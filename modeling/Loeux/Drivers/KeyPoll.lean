import Loeux.Lib.Ring
import Loeux.Lib.Runs
import Mathlib.Data.List.Perm.Basic
import Mathlib.Data.List.Count
import Mathlib.Tactic.IntervalCases
/-!
# Polling the keyboard (`drivers/keyboard.c`)

Any number of tasks in `keyboard_poll` and the device, step by step: the test of
the loop, which holds no lock, the section under `fdbm_lk`, the call of
`handle_key`, the device taking a posted buffer and the device completing one. The
state keeps the completed events and counts the sections, so that an event is
named by its number.
-/

open Function List Nat

namespace KeyPoll

variable {C : Type}

def QUEUE_NUM : Nat := 8

def INPUT_EVENT_BUFS : Nat := 8

def VIRTIO_INPUT_EV_KEY : UInt16 := 1

/-- `struct virtio_input_event`. -/
structure InputEvent where
  type : UInt16 := 0
  code : UInt16 := 0
  value : UInt32 := 0
deriving Repr, DecidableEq

/-- Where a task is. -/
inductive Phase
  /-- In front of the test, or not in the loop. -/
  | away
  /-- The test has passed. -/
  | tested
  /-- The section is left with a copy of the event, which was the `n`th section. -/
  | has (n : Nat) (ev : InputEvent)
deriving Repr, DecidableEq

/-- The queue with its rings, the buffers, the device and what has happened. -/
structure Queue (C : Type) where
  free_desc_bit_map : Nat → Bool := fun _ => false
  addr : Nat → Nat := fun _ => 0
  avail_idx : Nat := 0
  avail : Nat → Nat := fun _ => 0
  used_idx : Nat := 0
  used : Nat → Nat := fun _ => 0
  last_used_idx : Nat := 0
  ev_bufs : Nat → InputEvent := fun _ => {}
  calls : C → Phase := fun _ => .away
  /-- How many posted buffers the device has taken, and those it has not completed. -/
  takes : Nat := 0
  device : List Nat := []
  completed : List InputEvent := []
  sections : Nat := 0
  handled : List (Nat × InputEvent) := []

def submitEventLocked (s : Queue C) (idx : Nat) : Queue C :=
  if s.free_desc_bit_map idx then s
  else { s with
    free_desc_bit_map := Function.update s.free_desc_bit_map idx true
    addr := Function.update s.addr idx idx
    avail := Function.update s.avail (s.avail_idx % QUEUE_NUM) idx
    avail_idx := (s.avail_idx + 1) % 2 ^ 16 }

def Queue.current (s : Queue C) : Nat := s.used (s.last_used_idx % QUEUE_NUM)

/-- The section under the lock. -/
def locked (s : Queue C) : Queue C :=
  let buf_idx := s.current
  submitEventLocked { s with
    free_desc_bit_map := Function.update s.free_desc_bit_map buf_idx false
    last_used_idx := (s.last_used_idx + 1) % 2 ^ 16
    sections := s.sections + 1 } buf_idx

def Queue.goto [DecidableEq C] (s : Queue C) (c : C) (p : Phase) : Queue C := { s with calls := Function.update s.calls c p }

def Queue.handle (s : Queue C) (n : Nat) (ev : InputEvent) : Queue C :=
  if ev.type = VIRTIO_INPUT_EV_KEY then { s with handled := s.handled ++ [(n, ev)] } else s

/-- The device writes an event into a buffer and its element into the used ring. -/
def Queue.store (s : Queue C) (id : Nat) (ev : InputEvent) : Queue C :=
  { s with
    ev_bufs := Function.update s.ev_bufs (s.addr id) ev
    used := Function.update s.used (s.used_idx % QUEUE_NUM) id
    used_idx := (s.used_idx + 1) % 2 ^ 16
    completed := s.completed ++ [ev] }

inductive Event (C : Type)
  | test (c : C)
  | section (c : C)
  | handle (c : C)
  /-- The device takes the next posted buffer. -/
  | take
  /-- The device completes one of the buffers it has taken. -/
  | complete (i : Nat) (ev : InputEvent)

def next [DecidableEq C] (s : Queue C) : Event C → Option (Queue C)
  | .test c =>
    match s.calls c with
    | .away => some (if s.used_idx ≠ s.last_used_idx then s.goto c .tested else s)
    | _ => none
  | .section c =>
    match s.calls c with
    | .tested => some ((locked s).goto c (.has s.sections (s.ev_bufs s.current)))
    | _ => none
  | .handle c =>
    match s.calls c with
    | .has n ev => some ((s.handle n ev).goto c .away)
    | _ => none
  | .take =>
    if s.avail_idx = s.takes % 2 ^ 16 then none
    else some { s with takes := s.takes + 1, device := s.device ++ [s.avail (s.takes % QUEUE_NUM)] }
  | .complete i ev =>
    match s.device[i]? with
    | some id => some ({ s with device := s.device.eraseIdx i }.store id ev)
    | none => none

def Step [DecidableEq C] (s : Queue C) (e : Event C) (s' : Queue C) : Prop := next s e = some s'

def fresh : Queue C := (List.range INPUT_EVENT_BUFS).foldl submitEventLocked {}

def Queue.posted (s : Queue C) : List Nat :=
  Lib.window s.avail QUEUE_NUM s.takes ((s.avail_idx + 2 ^ 16 - s.takes % 2 ^ 16) % 2 ^ 16)

/-- The driver is behind the device, no buffer is posted twice, and each completed
key event is still in the used ring, held by exactly one task, or was handled once. -/
structure EachOnce (s : Queue C) : Prop where
  behind : s.sections ≤ s.completed.length
  last : s.last_used_idx = s.sections % 2 ^ 16
  used : s.used_idx = s.completed.length % 2 ^ 16
  posted : (s.posted ++ s.device).Nodup
  handled_once : (s.handled.map Prod.fst).Nodup
  handled : ∀ n ev, (n, ev) ∈ s.handled → s.completed[n]? = some ev ∧ ev.type = VIRTIO_INPUT_EV_KEY ∧ n < s.sections
  held_once : ∀ c c' n ev ev', s.calls c = .has n ev → s.calls c' = .has n ev' → c = c'
  held : ∀ c n ev, s.calls c = .has n ev → s.completed[n]? = some ev ∧ n < s.sections ∧ n ∉ s.handled.map Prod.fst
  reached : ∀ n ev, n < s.sections → s.completed[n]? = some ev → ev.type = VIRTIO_INPUT_EV_KEY →
    (n, ev) ∈ s.handled ∨ ∃ c, s.calls c = .has n ev

/-- A section is entered only while there is something to take. -/
def Calm (s : Queue C) : Event C → Prop
  | .section _ => s.used_idx ≠ s.last_used_idx
  | _ => True

instance (s : Queue C) : DecidablePred (Calm s)
  | .section _ => inferInstanceAs (Decidable (_ ≠ _))
  | .test _ | .handle _ | .take | .complete _ _ => isTrue trivial

/-! ## The rings -/

def Queue.waiting (s : Queue C) : List Nat := Lib.window s.used QUEUE_NUM s.sections (s.completed.length - s.sections)

/-- Every buffer is in one place, and a completed one holds its event. -/
structure Rings (s : Queue C) : Prop where
  behind : s.sections ≤ s.completed.length
  last : s.last_used_idx = s.sections % 2 ^ 16
  used : s.used_idx = s.completed.length % 2 ^ 16
  avail : s.avail_idx = (8 + s.sections) % 2 ^ 16
  takes : s.takes = s.completed.length + s.device.length
  places : (Lib.window s.avail 8 s.takes (8 + s.sections - s.takes) ++ s.device ++ s.waiting).Perm (List.range 8)
  addr : ∀ d < 8, s.addr d = d
  events : ∀ n ev, s.sections ≤ n → s.completed[n]? = some ev → s.ev_bufs (s.used (n % 8)) = ev

/-- The tasks and the events that are taken. -/
structure Tasks (s : Queue C) : Prop where
  handled_once : (s.handled.map Prod.fst).Nodup
  handled : ∀ n ev, (n, ev) ∈ s.handled → s.completed[n]? = some ev ∧ ev.type = VIRTIO_INPUT_EV_KEY ∧ n < s.sections
  held_once : ∀ c c' n ev ev', s.calls c = .has n ev → s.calls c' = .has n ev' → c = c'
  held : ∀ c n ev, s.calls c = .has n ev → s.completed[n]? = some ev ∧ n < s.sections ∧ n ∉ s.handled.map Prod.fst
  reached : ∀ n ev, n < s.sections → s.completed[n]? = some ev → ev.type = VIRTIO_INPUT_EV_KEY →
    (n, ev) ∈ s.handled ∨ ∃ c, s.calls c = .has n ev

section

variable {s s' : Queue C}

variable (h : Rings s)

include h

theorem Rings.count : s.takes ≤ 8 + s.sections ∧
    8 + s.sections - s.takes + s.device.length + (s.completed.length - s.sections) = 8 := by
  have hlen := h.places.length_eq
  simp only [length_append, Lib.length_window, Queue.waiting, length_range] at hlen
  have := h.takes
  omega

theorem Rings.posted_eq : s.posted = Lib.window s.avail 8 s.takes (8 + s.sections - s.takes) := by
  have := h.count
  have := h.avail
  unfold Queue.posted QUEUE_NUM
  congr 1
  omega

theorem Rings.eachOnce (ht : Tasks s) : EachOnce s where
  behind := h.behind
  last := h.last
  used := h.used
  posted := by
    have hnodup := h.places.nodup_iff.2 nodup_range
    rw [h.posted_eq]
    exact (nodup_append.1 hnodup).1
  handled_once := ht.handled_once
  handled := ht.handled
  held_once := ht.held_once
  held := ht.held
  reached := ht.reached

theorem Rings.goto [DecidableEq C] (c : C) (p : Phase) : Rings (s.goto c p) :=
  ⟨h.behind, h.last, h.used, h.avail, h.takes, h.places, h.addr, h.events⟩

theorem Rings.handle (n : Nat) (ev : InputEvent) : Rings (s.handle n ev) := by
  unfold Queue.handle
  split
  · exact ⟨h.behind, h.last, h.used, h.avail, h.takes, h.places, h.addr, h.events⟩
  · exact h

omit h in
/-- The bit is cleared before the buffer is posted again, so it always is. -/
theorem locked_eq : locked s = { s with
    free_desc_bit_map := update (update s.free_desc_bit_map s.current false) s.current true
    addr := update s.addr s.current s.current
    avail := update s.avail (s.avail_idx % QUEUE_NUM) s.current
    avail_idx := (s.avail_idx + 1) % 2 ^ 16
    last_used_idx := (s.last_used_idx + 1) % 2 ^ 16
    sections := s.sections + 1 } := by
  unfold locked submitEventLocked
  simp only [update_self, Bool.false_eq_true, if_false]

theorem Rings.current_eq : s.current = s.used (s.sections % 8) := by
  have := h.last
  unfold Queue.current QUEUE_NUM
  congr 1
  omega

theorem Rings.behind_of_ne (hne : s.used_idx ≠ s.last_used_idx) : s.sections < s.completed.length := by
  have := h.last
  have := h.used
  have := h.behind
  rcases Nat.lt_or_ge s.sections s.completed.length with hlt | hge
  · exact hlt
  · exact absurd (by omega) hne

theorem Rings.section (hne : s.used_idx ≠ s.last_used_idx) : Rings (locked s) := by
  have hlt := h.behind_of_ne hne
  obtain ⟨hcount, hsum⟩ := h.count
  have hslot : s.avail_idx % QUEUE_NUM = (s.takes + (8 + s.sections - s.takes)) % 8 := by
    have := h.avail
    unfold QUEUE_NUM
    omega
  -- the head of what waits is posted behind what is posted
  have hwaiting : s.waiting = s.current :: Lib.window s.used 8 (s.sections + 1) (s.completed.length - (s.sections + 1)) := by
    unfold Queue.waiting QUEUE_NUM
    rw [show s.completed.length - s.sections = s.completed.length - (s.sections + 1) + 1 by omega, Lib.window_cons, h.current_eq]
  have hposted : Lib.window (update s.avail (s.avail_idx % QUEUE_NUM) s.current) 8 s.takes (8 + (s.sections + 1) - s.takes) =
      Lib.window s.avail 8 s.takes (8 + s.sections - s.takes) ++ [s.current] := by
    rw [hslot, show 8 + (s.sections + 1) - s.takes = 8 + s.sections - s.takes + 1 by omega]
    exact Lib.window_push (by omega) _
  rw [locked_eq]
  refine ⟨hlt, ?_, h.used, ?_, h.takes, ?_, ?_, fun n ev hn => h.events n ev (le_of_succ_le hn)⟩
  · have := h.last
    show (s.last_used_idx + 1) % 2 ^ 16 = (s.sections + 1) % 2 ^ 16
    omega
  · have := h.avail
    show (s.avail_idx + 1) % 2 ^ 16 = (8 + (s.sections + 1)) % 2 ^ 16
    omega
  · show (Lib.window (update s.avail (s.avail_idx % QUEUE_NUM) s.current) 8 s.takes (8 + (s.sections + 1) - s.takes) ++ s.device ++
        Lib.window s.used 8 (s.sections + 1) (s.completed.length - (s.sections + 1))).Perm (List.range 8)
    have hplaces := h.places
    rw [hwaiting] at hplaces
    rw [hposted]
    refine List.Perm.trans (perm_iff_count.2 fun x => ?_) hplaces
    simp only [count_append, count_cons, count_nil]
    omega
  · intro d hd
    show update s.addr s.current s.current d = d
    by_cases hdc : d = s.current
    · rw [hdc, update_self]
    · rw [update_of_ne hdc, h.addr d hd]

theorem Rings.take (hne : s.avail_idx ≠ s.takes % 2 ^ 16) :
    Rings { s with takes := s.takes + 1, device := s.device ++ [s.avail (s.takes % QUEUE_NUM)] } := by
  obtain ⟨hcount, hsum⟩ := h.count
  have hlt : s.takes < 8 + s.sections := by
    have := h.avail
    rcases Nat.lt_or_ge s.takes (8 + s.sections) with hlt | hge
    · exact hlt
    · exact absurd (by omega) hne
  refine ⟨h.behind, h.last, h.used, h.avail, ?_, ?_, h.addr, h.events⟩
  · have := h.takes
    simp only [length_append, length_singleton]
    omega
  · have hplaces := h.places
    rw [show 8 + s.sections - s.takes = 8 + s.sections - (s.takes + 1) + 1 by omega, Lib.window_cons] at hplaces
    refine List.Perm.trans (perm_iff_count.2 fun x => ?_) hplaces
    show List.count x (Lib.window s.avail 8 (s.takes + 1) (8 + s.sections - (s.takes + 1)) ++ (s.device ++ [s.avail (s.takes % 8)]) ++ s.waiting) = _
    simp only [count_append, count_cons, count_nil]
    omega

theorem Rings.complete {i id : Nat} (hi : s.device[i]? = some id) (ev : InputEvent) :
    Rings ({ s with device := s.device.eraseIdx i }.store id ev) := by
  obtain ⟨hlt, hid⟩ := List.getElem?_eq_some_iff.1 hi
  have herase : (id :: s.device.eraseIdx i).Perm s.device := hid ▸ getElem_cons_eraseIdx_perm hlt
  have hlen : (s.device.eraseIdx i).length + 1 = s.device.length := by simpa using herase.length_eq
  obtain ⟨hcount, hsum⟩ := h.count
  have hnodup := h.places.nodup_iff.2 nodup_range
  have hmem : id ∈ s.device := herase.mem_iff.1 (mem_cons_self ..)
  have hid8 : id < 8 := mem_range.1 (h.places.mem_iff.1 (mem_append_left _ (mem_append_right _ hmem)))
  have hfree : id ∉ s.waiting := fun hw => (nodup_append.1 hnodup).2.2 id (mem_append_right _ hmem) id hw rfl
  have hslot : s.used_idx % QUEUE_NUM = (s.sections + (s.completed.length - s.sections)) % 8 := by
    have := h.used
    have := h.behind
    unfold QUEUE_NUM
    omega
  have hwaiting : Lib.window (update s.used (s.used_idx % QUEUE_NUM) id) 8 s.sections (s.completed.length + 1 - s.sections) =
      s.waiting ++ [id] := by
    have := h.behind
    rw [hslot, show s.completed.length + 1 - s.sections = s.completed.length - s.sections + 1 by omega]
    exact Lib.window_push (by omega) _
  have hclen : (s.completed ++ [ev]).length = s.completed.length + 1 := by simp
  refine ⟨?_, h.last, ?_, h.avail, ?_, ?_, h.addr, ?_⟩
  · have := h.behind
    show s.sections ≤ (s.completed ++ [ev]).length
    omega
  · have := h.used
    show (s.used_idx + 1) % 2 ^ 16 = (s.completed ++ [ev]).length % 2 ^ 16
    omega
  · have := h.takes
    show s.takes = (s.completed ++ [ev]).length + (s.device.eraseIdx i).length
    omega
  · show (Lib.window s.avail 8 s.takes (8 + s.sections - s.takes) ++ s.device.eraseIdx i ++
        Lib.window (update s.used (s.used_idx % QUEUE_NUM) id) 8 s.sections ((s.completed ++ [ev]).length - s.sections)).Perm (List.range 8)
    rw [hclen, hwaiting]
    refine List.Perm.trans (perm_iff_count.2 fun x => ?_) h.places
    have hx := herase.count_eq x
    simp only [count_append, count_cons, count_nil] at hx ⊢
    omega
  · intro n ev' hn hev
    show update s.ev_bufs (s.addr id) ev (update s.used (s.used_idx % QUEUE_NUM) id (n % 8)) = ev'
    change (s.completed ++ [ev])[n]? = some ev' at hev
    change s.sections ≤ n at hn
    rw [h.addr id hid8]
    rcases Nat.lt_or_ge n s.completed.length with hold | hnew
    · rw [getElem?_append_left hold] at hev
      have hne : n % 8 ≠ s.used_idx % QUEUE_NUM := by
        have := h.used
        have := h.behind
        unfold QUEUE_NUM
        omega
      have hw : s.used (n % 8) ∈ s.waiting :=
        Lib.mem_window.2 ⟨n - s.sections, by omega, by rw [Nat.add_sub_cancel' hn]; rfl⟩
      have hother : s.used (n % 8) ≠ id := by
        rintro rfl
        exact hfree hw
      rw [update_of_ne hne, update_of_ne hother]
      exact h.events n ev' hn hev
    · rw [getElem?_append_right hnew] at hev
      have hn0 : n = s.completed.length := by
        by_contra hne
        rw [getElem?_eq_none (by simp only [length_singleton]; omega)] at hev
        cases hev
      rw [hn0, Nat.sub_self] at hev
      cases hev
      have heq : n % 8 = s.used_idx % QUEUE_NUM := by
        have := h.used
        unfold QUEUE_NUM
        omega
      rw [heq, update_self, update_self]

end

/-! ## The tasks -/

section

variable {s : Queue C}

theorem Tasks.store (h : Tasks s) (id : Nat) (ev : InputEvent) (device : List Nat) (hle : s.sections ≤ s.completed.length) :
    Tasks ({ s with device := device }.store id ev) := by
  have hkeep : ∀ n ev', n < s.sections → ((s.completed ++ [ev])[n]? = some ev' ↔ s.completed[n]? = some ev') := by
    intro n ev' hn
    rw [getElem?_append_left (by omega)]
  refine ⟨h.handled_once, fun n ev' hm => ?_, h.held_once, fun c n ev' hc => ?_, fun n ev' hn hev => h.reached n ev' hn ((hkeep n ev' hn).1 hev)⟩
  · obtain ⟨h1, h2, h3⟩ := h.handled n ev' hm
    exact ⟨(hkeep n ev' h3).2 h1, h2, h3⟩
  · obtain ⟨h1, h2, h3⟩ := h.held c n ev' hc
    exact ⟨(hkeep n ev' h2).2 h1, h2, h3⟩

theorem inv_fresh : Rings (fresh : Queue C) ∧ Tasks (fresh : Queue C) := by
  have hposted : Lib.window (fresh : Queue C).avail 8 0 8 = List.range 8 := rfl
  refine ⟨⟨Nat.le_refl _, rfl, rfl, rfl, rfl, ?_, fun d hd => ?_, fun n ev _ hev => ?_⟩,
    ⟨List.Pairwise.nil, fun n ev hm => ?_, fun c c' n ev ev' hc => ?_, fun c n ev hc => ?_, fun n ev hn => absurd hn (Nat.not_lt_zero n)⟩⟩
  · show (Lib.window (fresh : Queue C).avail 8 0 8 ++ [] ++ []).Perm (List.range 8)
    rw [hposted, append_nil, append_nil]
  · interval_cases d <;> rfl
  · cases hev
  · cases hm
  · cases hc
  · cases hc

variable [DecidableEq C]

theorem goto_self (c : C) (p : Phase) : (s.goto c p).calls c = p := update_self ..

theorem goto_of_ne {c c' : C} (hne : c' ≠ c) (p : Phase) : (s.goto c p).calls c' = s.calls c' := update_of_ne hne ..

theorem Tasks.test (h : Tasks s) {c : C} (hc : s.calls c = .away) : Tasks (s.goto c .tested) := by
  -- the tasks that hold an event are the same
  have hsame : ∀ c' n ev, (s.goto c .tested).calls c' = .has n ev ↔ s.calls c' = .has n ev := by
    intro c' n ev
    by_cases hcc : c' = c
    · rw [hcc, goto_self, hc]
      constructor <;> intro h <;> cases h
    · rw [goto_of_ne hcc]
  refine ⟨h.handled_once, h.handled, fun c1 c2 n ev ev' h1 h2 => h.held_once c1 c2 n ev ev' ((hsame ..).1 h1) ((hsame ..).1 h2),
    fun c1 n ev h1 => h.held c1 n ev ((hsame ..).1 h1), fun n ev hn hev hk => ?_⟩
  rcases h.reached n ev hn hev hk with hm | ⟨c1, h1⟩
  · exact .inl hm
  · exact .inr ⟨c1, (hsame ..).2 h1⟩

theorem Tasks.section (h : Tasks s) (hr : Rings s) (hne : s.used_idx ≠ s.last_used_idx) {c : C} (hc : s.calls c = .tested) :
    Tasks ((locked s).goto c (.has s.sections (s.ev_bufs s.current))) := by
  have hlt := hr.behind_of_ne hne
  obtain ⟨ev0, hev0⟩ : ∃ ev, s.completed[s.sections]? = some ev := ⟨_, getElem?_eq_getElem hlt⟩
  have hcopy : s.ev_bufs s.current = ev0 := by
    rw [hr.current_eq]
    exact hr.events _ _ (Nat.le_refl _) hev0
  rw [hcopy, locked_eq]
  have hcalls : ∀ c' n ev, update s.calls c (.has s.sections ev0) c' = .has n ev ↔
      c' = c ∧ n = s.sections ∧ ev = ev0 ∨ s.calls c' = .has n ev := by
    intro c' n ev
    by_cases hcc : c' = c
    · rw [hcc, update_self, hc]
      simp [eq_comm]
    · rw [update_of_ne hcc]
      simp [hcc]
  -- no task holds the event of this section yet
  have hnew : ∀ c' n ev, s.calls c' = .has n ev → n ≠ s.sections := fun c' n ev hc' => Nat.ne_of_lt (h.held c' n ev hc').2.1
  refine ⟨h.handled_once, fun n ev hm => ?_, fun c1 c2 n ev ev' h1 h2 => ?_, fun c1 n ev h1 => ?_, fun n ev hn hev hk => ?_⟩
  · obtain ⟨h1, h2, h3⟩ := h.handled n ev hm
    exact ⟨h1, h2, lt_succ_of_lt h3⟩
  · rcases (hcalls ..).1 h1 with ⟨e1, hn, -⟩ | k1 <;> rcases (hcalls ..).1 h2 with ⟨e2, hn', -⟩ | k2
    · rw [e1, e2]
    · exact absurd hn (hnew _ _ _ k2)
    · exact absurd hn' (hnew _ _ _ k1)
    · exact h.held_once _ _ _ _ _ k1 k2
  · rcases (hcalls ..).1 h1 with ⟨-, rfl, rfl⟩ | h1
    · refine ⟨hev0, lt_succ_self _, fun hm => ?_⟩
      obtain ⟨⟨n, ev⟩, hm, hn⟩ := mem_map.1 hm
      exact absurd (h.handled n ev hm).2.2 (by dsimp only at hn; omega)
    · obtain ⟨h2, h3, h4⟩ := h.held c1 n ev h1
      exact ⟨h2, lt_succ_of_lt h3, h4⟩
  · rcases Nat.lt_or_ge n s.sections with hold | hge
    · rcases h.reached n ev hold hev hk with hm | ⟨c1, h1⟩
      · exact .inl hm
      · exact .inr ⟨c1, (hcalls ..).2 (.inr h1)⟩
    · obtain rfl : n = s.sections := Nat.le_antisymm (Nat.lt_succ_iff.1 hn) hge
      obtain rfl : ev = ev0 := Option.some.inj (hev.symm.trans hev0)
      exact .inr ⟨c, (hcalls ..).2 (.inl ⟨rfl, rfl, rfl⟩)⟩

theorem Tasks.handle (h : Tasks s) {c : C} {n : Nat} {ev : InputEvent} (hc : s.calls c = .has n ev) :
    Tasks ((s.handle n ev).goto c .away) := by
  obtain ⟨hev, hn, hfresh⟩ := h.held c n ev hc
  have hcalls : ∀ c' m ev', update s.calls c .away c' = .has m ev' ↔ c' ≠ c ∧ s.calls c' = .has m ev' := by
    intro c' m ev'
    by_cases hcc : c' = c
    · rw [hcc, update_self]
      simp
    · rw [update_of_ne hcc]
      simp [hcc]
  have hother : ∀ c' m ev', c' ≠ c → s.calls c' = .has m ev' → m ≠ n := by
    rintro c' m ev' hne hc' rfl
    exact hne (h.held_once c' c m ev' ev hc' hc)
  unfold Queue.handle
  split
  · next hkey =>
    refine ⟨?_, fun m ev' hm => ?_, fun c1 c2 m e1 e2 h1 h2 => h.held_once _ _ _ _ _ ((hcalls ..).1 h1).2 ((hcalls ..).1 h2).2,
      fun c1 m ev' h1 => ?_, fun m ev' hm hev' hk => ?_⟩
    · show ((s.handled ++ [(n, ev)]).map Prod.fst).Nodup
      rw [map_append]
      refine nodup_append.2 ⟨h.handled_once, pairwise_singleton _ _, fun a ha b hb e => hfresh ?_⟩
      rwa [e, mem_singleton.1 hb] at ha
    · rcases mem_append.1 (show (m, ev') ∈ s.handled ++ [(n, ev)] from hm) with hm | hm
      · exact h.handled m ev' hm
      · cases mem_singleton.1 hm
        exact ⟨hev, hkey, hn⟩
    · obtain ⟨hne, h1⟩ := (hcalls ..).1 h1
      obtain ⟨h2, h3, h4⟩ := h.held c1 m ev' h1
      refine ⟨h2, h3, fun hm => ?_⟩
      rcases mem_append.1 (map_append ▸ hm : m ∈ s.handled.map Prod.fst ++ [(n, ev)].map Prod.fst) with hm | hm
      · exact h4 hm
      · exact hother c1 m ev' hne h1 (mem_singleton.1 hm)
    · rcases h.reached m ev' hm hev' hk with hmem | ⟨c1, h1⟩
      · exact .inl (mem_append_left _ hmem)
      · by_cases hcc : c1 = c
        · rw [hcc, hc] at h1
          cases h1
          exact .inl (mem_append_right _ (mem_singleton_self _))
        · exact .inr ⟨c1, (hcalls ..).2 ⟨hcc, h1⟩⟩
  · next hkey =>
    refine ⟨h.handled_once, h.handled, fun c1 c2 m e1 e2 h1 h2 => h.held_once _ _ _ _ _ ((hcalls ..).1 h1).2 ((hcalls ..).1 h2).2,
      fun c1 m ev' h1 => h.held c1 m ev' ((hcalls ..).1 h1).2, fun m ev' hm hev' hk => ?_⟩
    rcases h.reached m ev' hm hev' hk with hmem | ⟨c1, h1⟩
    · exact .inl hmem
    · by_cases hcc : c1 = c
      · rw [hcc, hc] at h1
        cases h1
        exact absurd hk hkey
      · exact .inr ⟨c1, (hcalls ..).2 ⟨hcc, h1⟩⟩

/-! ## Runs -/

theorem inv_step {s' : Queue C} {e : Event C} (h : Rings s ∧ Tasks s) (hcalm : Calm s e) (hs : Step s e s') : Rings s' ∧ Tasks s' := by
  obtain ⟨hr, ht⟩ := h
  unfold Step next at hs
  cases e with
  | test c =>
    dsimp only at hs
    split at hs
    · next hc =>
      cases hs
      split
      · exact ⟨hr.goto c _, ht.test hc⟩
      · exact ⟨hr, ht⟩
    · cases hs
  | «section» c =>
    dsimp only at hs
    split at hs
    · next hc =>
      cases hs
      exact ⟨(hr.section hcalm).goto c _, ht.section hr hcalm hc⟩
    · cases hs
  | handle c =>
    dsimp only at hs
    split at hs
    · next n ev hc =>
      cases hs
      exact ⟨(hr.handle n ev).goto c _, ht.handle hc⟩
    · cases hs
  | take =>
    dsimp only at hs
    split at hs
    · cases hs
    · next hne =>
      cases hs
      exact ⟨hr.take hne, ⟨ht.handled_once, ht.handled, ht.held_once, ht.held, ht.reached⟩⟩
  | complete i ev =>
    dsimp only at hs
    split at hs
    · next id hi =>
      cases hs
      exact ⟨hr.complete hi ev, ht.store id ev _ hr.behind⟩
    · cases hs

/-- In every run of the tasks and the device in which each section is entered while
the used index is not the last one, every key event is handled exactly once, in
every state reached. -/
theorem events_handled_once {s' : Queue C} {es : List (Event C)} (hr : Lib.Run (Lib.Guarded Calm Step) fresh es s') : EachOnce s' := by
  have hinv := hr.inv (fun s => Rings s ∧ Tasks s) (fun s e s' hi hc hs => inv_step hi hc hs) inv_fresh
  exact hinv.1.eachOnce hinv.2

end

namespace PollSample

def keyA : InputEvent := ⟨1, 30, 1⟩

/-- Two tasks test after one completion and both enter the section. -/
def stale : List (Event Bool) := [.take, .complete 0 keyA, .test true, .test false, .section true, .section false, .handle true, .handle false]

/-- The second task handles a stale element, passes the used index and posts a
posted buffer again. -/
theorem stale_test_doubles : ∃ s', Lib.Run Step fresh stale s' ∧ s'.completed.length < s'.sections ∧ ¬(s'.posted ++ s'.device).Nodup ∧
    ¬EachOnce s' := by
  obtain ⟨s', hs', hpast, hposted⟩ : ∃ s', Lib.exec next fresh stale = some s' ∧ s'.completed.length < s'.sections ∧
      ¬(s'.posted ++ s'.device).Nodup := by
    refine ⟨_, rfl, by decide +kernel, by decide +kernel⟩
  exact ⟨s', Lib.run_of_exec (fun _ _ _ h => h) hs', hpast, hposted, fun h => hposted h.posted⟩

def calmly : List (Event Bool) :=
  [.take, .take, .complete 0 keyA, .test true, .section true, .complete 0 keyA, .test false, .section false, .handle false, .handle true]

theorem calm_events_once : ∃ s', Lib.Run (Lib.Guarded Calm Step) fresh calmly s' ∧ EachOnce s' ∧ s'.handled = [(1, keyA), (0, keyA)] := by
  have hrun : (Lib.exec (fun s e => if Calm s e then next s e else none) fresh calmly).map Queue.handled =
      some [(1, keyA), (0, keyA)] := by decide +kernel
  obtain ⟨s, hs, hhandled⟩ := Option.map_eq_some_iff.1 hrun
  have hr : Lib.Run (Lib.Guarded Calm Step) fresh calmly s := by
    refine Lib.run_of_exec (fun s e s' h => ?_) hs
    split_ifs at h with hcalm
    exact ⟨hcalm, h⟩
  exact ⟨s, hr, events_handled_once hr, hhandled⟩

end PollSample

end KeyPoll
