import Loeux.Drivers.Disk
/-!
# Whose completion a call returns on

A call waits until the used index differs from the one it sampled after it
published, whoever's completion that was. `Belongs` is what should hold: a call
that returns without an error has been served, no call waits for a completion that
came before its sample, and requests in flight have descriptors of their own. It
holds in every run in which a call samples only while no other request is waited
for, the device completes a request only after its call has sampled, and takes each
request from a slot that holds its chain.
-/

open Function List

namespace Disk

variable {C : Type} [DecidableEq C]

def Queue.Served (s : Queue C) (c : C) : Prop := some c ∈ s.done

/-- The chain is published and not completed. -/
def Queue.InFlight (s : Queue C) (c : C) (is : List Nat) : Prop := (c, is) ∈ s.published ∧ ¬s.Served c

structure Belongs (s : Queue C) : Prop where
  returned : ∀ c r, s.calls c = .back (some r) → s.Served c
  counted : ∀ c head last seen, s.calls c = .waits head last seen → some c ∉ s.done.take seen
  apart : ∀ c is c' is', s.InFlight c is → s.InFlight c' is' → c ≠ c' → is.Disjoint is'

def Calm (s : Queue C) : Event C → Prop
  | .sample c => ∀ c' head last seen, c' ≠ c → s.calls c' = .waits head last seen → s.Served c'
  | .take => ∃ c is, s.published[s.takes]? = some (c, is) ∧ is.head? = some (s.avail (s.takes % QUEUE_NUM))
  | .complete i _ _ => ∃ head c h last seen, s.device[i]? = some (head, some c) ∧ s.calls c = .waits h last seen
  | _ => True

/-! ## The invariant -/

def Phase.head? : Phase → Option Nat
  | .holds head | .sent head | .waits head _ _ | .leaves head _ | .indexed head _ => some head
  | .out | .reads _ | .back _ => none

def Phase.past : Phase → Bool
  | .leaves _ _ | .indexed _ _ | .reads _ | .back _ => true
  | .out | .holds _ | .sent _ | .waits _ _ _ => false

/-- Each call that holds a chain owns its descriptors, and the bitmap knows them. -/
structure Owning (t : Table C) (calls : C → Phase) (chain : C → List Nat) : Prop where
  linked : ∀ c head, (calls c).head? = some head → (chain c).head? = some head ∧ Linked t.desc (chain c) ∧ (chain c).length = 3
  nodup : ∀ c head, (calls c).head? = some head → (chain c).Nodup
  small : ∀ c head, (calls c).head? = some head → ∀ i ∈ chain c, i < 32
  apart : ∀ c c' head head', c ≠ c' → (calls c).head? = some head → (calls c').head? = some head' → (chain c).Disjoint (chain c')
  bits : Bits t.free_desc_bit_map fun i => ∃ c head, (calls c).head? = some head ∧ i ∈ chain c

/-- What holds between the steps of a calm run. -/
structure Inv (s : Queue C) (chain : C → List Nat) : Prop where
  counted : Counted s
  owning : Owning s.table s.calls chain
  /-- A published chain stays with its call until it is completed. -/
  flight : ∀ c is, s.InFlight c is → is = chain c ∧
    ((∃ head, s.calls c = .sent head) ∨ ∃ head last seen, s.calls c = .waits head last seen)
  addr : ∀ c is head, s.InFlight c is → is.head? = some head → (s.table.desc head).addr = some c
  new : ∀ c head, s.calls c = .out ∨ s.calls c = .holds head → c ∉ s.published.map Prod.fst
  names : (s.published.map Prod.fst).Nodup
  takes : s.takes ≤ s.published.length
  done : ∀ c, s.Served c → c ∈ (s.published.take s.takes).map Prod.fst
  device : ∀ p ∈ s.device, ∃ c, p.2 = some c ∧ c ∈ (s.published.take s.takes).map Prod.fst ∧ ¬s.Served c
  once : (s.device.map Prod.snd).Nodup
  sent : ∀ c head, s.calls c = .sent head → ¬s.Served c ∧ c ∈ s.published.map Prod.fst
  waits : ∀ c head last seen, s.calls c = .waits head last seen →
    last = seen % 2 ^ 16 ∧ seen ≤ s.done.length ∧ c ∈ s.published.map Prod.fst ∧ some c ∉ s.done.take seen ∧
      (¬s.Served c → seen = s.done.length)
  alone : ∀ c head last seen c' head' last' seen', s.calls c = .waits head last seen → s.calls c' = .waits head' last' seen' →
    ¬s.Served c → ¬s.Served c' → c = c'
  served : ∀ c, (s.calls c).past = true → s.Served c

section Steps

variable {s s' : Queue C} {chain : C → List Nat} {c c' : C} {t t' : Table C} {calls : C → Phase} {p : Phase} {head : Nat}

/-! ## Who owns which descriptors -/

@[simp] theorem goto_calls_self : (s.goto c p).calls c = p := update_self _ _ _

theorem goto_calls_of_ne (h : c' ≠ c) : (s.goto c p).calls c' = s.calls c' := update_of_ne h _ _

theorem Owning.keep (h : Owning t calls chain) (hp : p.head? = (calls c).head?) :
    Owning t (update calls c p) chain := by
  have hheads : ∀ c', (update calls c p c').head? = (calls c').head? := by
    intro c'
    by_cases hc : c' = c
    · subst hc
      rw [update_self, hp]
    · rw [update_of_ne hc]
  refine ⟨fun c' head hh => h.linked c' head (hheads c' ▸ hh), fun c' head hh => h.nodup c' head (hheads c' ▸ hh),
    fun c' head hh => h.small c' head (hheads c' ▸ hh),
    fun c1 c2 head head' hne h1 h2 => h.apart c1 c2 head head' hne (hheads c1 ▸ h1) (hheads c2 ▸ h2), ?_⟩
  refine h.bits.congr fun i _ => ?_
  simp only [hheads]

omit [DecidableEq C] in
theorem Owning.congr (h : Owning t calls chain)
    (hd : ∀ c head, (calls c).head? = some head → ∀ i ∈ chain c, (t'.desc i).f_next = (t.desc i).f_next ∧ (t'.desc i).next = (t.desc i).next)
    (hb : t'.free_desc_bit_map = t.free_desc_bit_map ∨ Bits t'.free_desc_bit_map fun i => ∃ c head, (calls c).head? = some head ∧ i ∈ chain c) :
    Owning t' calls chain := by
  refine ⟨fun c head hh => ?_, h.nodup, h.small, h.apart, ?_⟩
  · obtain ⟨h1, h2, h3⟩ := h.linked c head hh
    exact ⟨h1, h2.congr (hd c head hh), h3⟩
  · rcases hb with hb | hb
    · rw [hb]
      exact h.bits
    · exact hb

theorem Owning.take (h : Owning t calls chain) (hc : (calls c).head? = none) {is : List Nat}
    (hf : Fresh (fun i => ∃ c head, (calls c).head? = some head ∧ i ∈ chain c) t t' (head :: is))
    (hl : Linked t'.desc (head :: is)) (h3 : (head :: is).length = 3) :
    Owning t' (update calls c (.holds head)) (update chain c (head :: is)) := by
  have hself : (update calls c (.holds head) c).head? = some head := by rw [update_self]; rfl
  have hother : ∀ c', c' ≠ c → (update calls c (.holds head) c').head? = (calls c').head? := fun c' hne => by
    rw [update_of_ne hne]
  -- a chain of another call is none of the new descriptors
  have hnew : ∀ c' head', (calls c').head? = some head' → ∀ i ∈ chain c', i ∉ head :: is := fun c' head' hh i hi hmem =>
    (hf.free i hmem).2 ⟨c', head', hh, hi⟩
  refine ⟨fun c' head' hh => ?_, fun c' head' hh => ?_, fun c' head' hh => ?_, fun c1 c2 head1 head2 hne h1 h2 => ?_, ?_⟩
  · by_cases hc' : c' = c
    · subst hc'
      rw [hself] at hh
      rw [update_self]
      exact ⟨hh, hl, h3⟩
    · rw [hother c' hc'] at hh
      obtain ⟨h1, h2, h3⟩ := h.linked c' head' hh
      rw [update_of_ne hc']
      refine ⟨h1, h2.congr fun i hi => ?_, h3⟩
      rw [hf.others i (hnew c' head' hh i hi)]
      exact ⟨rfl, rfl⟩
  · by_cases hc' : c' = c
    · subst hc'
      rw [update_self]
      exact hf.nodup
    · rw [hother c' hc'] at hh
      rw [update_of_ne hc']
      exact h.nodup c' head' hh
  · by_cases hc' : c' = c
    · subst hc'
      rw [update_self]
      exact fun i hi => (hf.free i hi).1
    · rw [hother c' hc'] at hh
      rw [update_of_ne hc']
      exact h.small c' head' hh
  · by_cases hc1 : c1 = c
    · subst hc1
      rw [hother c2 hne.symm] at h2
      rw [update_self, update_of_ne hne.symm]
      exact fun i hi hi' => hnew c2 head2 h2 i hi' hi
    · rw [hother c1 hc1] at h1
      rw [update_of_ne hc1]
      by_cases hc2 : c2 = c
      · subst hc2
        rw [update_self]
        exact fun i hi hi' => hnew c1 head1 h1 i hi hi'
      · rw [hother c2 hc2] at h2
        rw [update_of_ne hc2]
        exact h.apart c1 c2 head1 head2 hne h1 h2
  · refine hf.bits.congr fun i _ => ?_
    constructor
    · rintro (⟨c', head', hh, hi⟩ | hi)
      · have hne : c' ≠ c := by
          rintro rfl
          rw [hc] at hh
          cases hh
        exact ⟨c', head', by rw [hother c' hne, hh], by rwa [update_of_ne hne]⟩
      · exact ⟨c, head, hself, by rwa [update_self]⟩
    · rintro ⟨c', head', hh, hi⟩
      by_cases hne : c' = c
      · subst hne
        rw [update_self] at hi
        exact .inr hi
      · rw [hother c' hne] at hh
        rw [update_of_ne hne] at hi
        exact .inl ⟨c', head', hh, hi⟩

theorem Owning.give (h : Owning t calls chain) (hc : (calls c).head? = some head) (hp : p.head? = none) :
    Owning (freeDesc head t) (update calls c p) chain ∧ ∀ j, ((freeDesc head t).desc j).addr = (t.desc j).addr := by
  obtain ⟨hhead, hl, h3⟩ := h.linked c head hc
  have hnd := h.nodup c head hc
  have hsmall := h.small c head hc
  obtain ⟨is, his⟩ : ∃ is, chain c = head :: is := by
    cases hch : chain c with
    | nil =>
      rw [hch] at hhead
      cases hhead
    | cons i is =>
      rw [hch] at hhead
      cases hhead
      exact ⟨is, rfl⟩
  have hfree : freeDesc head t = (chain c).foldl Table.drop t := by
    rw [his] at hl hnd h3 ⊢
    exact freeLoop_eq hl hnd (by rw [length_cons] at h3; omega)
  have hother : ∀ c' head', (update calls c p c').head? = some head' → c' ≠ c ∧ (calls c').head? = some head' := by
    intro c' head' hh
    by_cases hne : c' = c
    · subst hne
      rw [update_self, hp] at hh
      cases hh
    · rw [update_of_ne hne] at hh
      exact ⟨hne, hh⟩
  rw [hfree]
  refine ⟨⟨fun c' head' hh => ?_, fun c' head' hh => h.nodup c' head' (hother c' head' hh).2,
    fun c' head' hh => h.small c' head' (hother c' head' hh).2,
    fun c1 c2 head1 head2 hne h1 h2 => h.apart c1 c2 head1 head2 hne (hother c1 head1 h1).2 (hother c2 head2 h2).2, ?_⟩,
    fun j => foldl_drop_addr⟩
  · obtain ⟨hne, hh⟩ := hother c' head' hh
    obtain ⟨h1, h2, h3'⟩ := h.linked c' head' hh
    refine ⟨h1, h2.congr fun i hi => ?_, h3'⟩
    rw [foldl_drop_desc fun hmem => h.apart c' c head' head hne hh hc hi hmem]
    exact ⟨rfl, rfl⟩
  · refine foldl_drop_bits (h.bits.congr fun i _ => ?_) hnd fun i hi => ⟨hsmall i hi, ?_⟩
    · constructor
      · rintro ⟨c', head', hh, hi⟩
        by_cases hne : c' = c
        · subst hne
          exact .inr hi
        · exact .inl ⟨c', head', by rw [update_of_ne hne, hh], hi⟩
      · rintro (⟨c', head', hh, hi⟩ | hi)
        · exact ⟨c', head', (hother c' head' hh).2, hi⟩
        · exact ⟨c, head, hc, hi⟩
    · rintro ⟨c', head', hh, hi'⟩
      obtain ⟨hne, hh⟩ := hother c' head' hh
      exact h.apart c' c head' head hne hh hc hi' hi

omit [DecidableEq C] in
theorem fill_spec (c : C) (read : Bool) {i j : Nat} (hl : Linked t.desc [head, i, j]) (hn : [head, i, j].Nodup) :
    (fill t c read head).2 = [head, i, j] ∧ (fill t c read head).1.free_desc_bit_map = t.free_desc_bit_map ∧
      (∀ k, ((fill t c read head).1.desc k).f_next = (t.desc k).f_next ∧ ((fill t c read head).1.desc k).next = (t.desc k).next) ∧
      (∀ k, k ∉ [head, i, j] → (fill t c read head).1.desc k = t.desc k) ∧
      ((fill t c read head).1.desc head).addr = some c := by
  obtain ⟨h1, hi, h2, hj, h3⟩ := hl
  obtain ⟨hij, hjne⟩ : (head ≠ i ∧ head ≠ j) ∧ i ≠ j := by simpa using hn
  have hdesc : (fill t c read head).2 = [head, i, j] ∧ (fill t c read head).1.desc = update (update (update t.desc
      head { t.desc head with addr := some c, f_next := true })
      i { t.desc i with addr := some c, f_next := true, f_write := (t.desc i).f_write || read })
      j { t.desc j with addr := some c, f_next := false, f_write := true } := by
    unfold fill Table.set
    simp only [update_self, hi, hj, update_of_ne hij.1.symm, update_of_ne hij.2.symm, update_of_ne hjne.symm, and_self]
  refine ⟨hdesc.1, rfl, fun k => ?_, fun k hk => ?_, ?_⟩
  · rw [hdesc.2]
    by_cases hkj : k = j
    · subst hkj
      rw [update_self]
      exact ⟨h3.symm, rfl⟩
    rw [update_of_ne hkj]
    by_cases hki : k = i
    · subst hki
      rw [update_self]
      exact ⟨h2.symm, rfl⟩
    rw [update_of_ne hki]
    by_cases hkh : k = head
    · subst hkh
      rw [update_self]
      exact ⟨h1.symm, rfl⟩
    rw [update_of_ne hkh]
    exact ⟨rfl, rfl⟩
  · simp only [mem_cons, not_mem_nil, or_false, not_or] at hk
    rw [hdesc.2, update_of_ne hk.2.2, update_of_ne hk.2.1, update_of_ne hk.1]
  · rw [hdesc.2, update_of_ne hij.2, update_of_ne hij.1, update_self]

/-! ## Steps of a call -/

theorem of_goto {q : Phase} (h : (s.goto c p).calls c' = q) : c' = c ∧ p = q ∨ c' ≠ c ∧ s.calls c' = q := by
  by_cases hc : c' = c
  · subst hc
    exact .inl ⟨rfl, goto_calls_self.symm.trans h⟩
  · exact .inr ⟨hc, (goto_calls_of_ne hc).symm.trans h⟩

theorem of_goto_ne {q : Phase} (h : (s.goto c p).calls c' = q) (hne : q ≠ p) : s.calls c' = q :=
  (of_goto h).elim (fun e => absurd e.2.symm hne) And.right

section

variable (h : Inv s chain)

include h

omit [DecidableEq C] in
theorem Inv.flight_owned {is : List Nat} (hf : s.InFlight c is) : ∃ head, (s.calls c).head? = some head ∧ is = chain c := by
  obtain ⟨his, ⟨head, hc⟩ | ⟨head, last, seen, hc⟩⟩ := h.flight c is hf <;> exact ⟨head, by rw [hc]; rfl, his⟩

omit [DecidableEq C] in
theorem Inv.belongs : Belongs s where
  returned c r hc := h.served c (by rw [hc]; rfl)
  counted c head last seen hc := (h.waits c head last seen hc).2.2.2.1
  apart c is c' is' hf hf' hne := by
    obtain ⟨head, hh, rfl⟩ := h.flight_owned hf
    obtain ⟨head', hh', rfl⟩ := h.flight_owned hf'
    exact h.owning.apart c c' head head' hne hh hh'

theorem Inv.past (hc : s.Served c) (hp : p.past = true) (ho : Owning t (update s.calls c p) chain)
    (ha : ∀ j, (t.desc j).addr = (s.table.desc j).addr) : Inv ({ s with table := t }.goto c p) chain := by
  have hne : ∀ {q : Phase}, q.past = false → q ≠ p := fun hq e => by
    rw [e, hp] at hq
    cases hq
  refine
    { counted := ⟨h.counted.avail, h.counted.used_idx, h.counted.used⟩, owning := ho, flight := fun c' is hf => ?_,
      addr := fun c' is head hf hh => (ha head).trans (h.addr c' is head hf hh), new := fun c' head hq => ?_, names := h.names,
      takes := h.takes, done := h.done, device := h.device, once := h.once, sent := fun c' head hq => ?_,
      waits := fun c' head last seen hq => h.waits c' head last seen (of_goto_ne hq (hne rfl)),
      alone := fun c1 head1 last1 seen1 c2 head2 last2 seen2 h1 h2 =>
        h.alone c1 head1 last1 seen1 c2 head2 last2 seen2 (of_goto_ne h1 (hne rfl)) (of_goto_ne h2 (hne rfl)), served := fun c' hq => ?_ }
  · have hcc : c' ≠ c := fun heq => hf.2 (heq ▸ hc)
    rw [goto_calls_of_ne hcc]
    exact h.flight c' is hf
  · exact h.new c' head (hq.imp (of_goto_ne · (hne rfl)) (of_goto_ne · (hne rfl)))
  · exact h.sent c' head (of_goto_ne hq (hne rfl))
  · by_cases hcc : c' = c
    · subst hcc
      exact hc
    · rw [goto_calls_of_ne hcc] at hq
      exact h.served c' hq

theorem Inv.served_goto (hp : p.past = false) (hq : ((s.goto c p).calls c').past = true) : s.Served c' := by
  by_cases hcc : c' = c
  · subst hcc
    rw [goto_calls_self, hp] at hq
    cases hq
  · rw [goto_calls_of_ne hcc] at hq
    exact h.served c' hq

theorem Inv.sample (hc : s.calls c = .sent head) (hcalm : Calm s (.sample c)) :
    Inv (s.goto c (.waits head s.used_idx s.done.length)) chain := by
  obtain ⟨hserved, hpub⟩ := h.sent c head hc
  refine
    { counted := ⟨h.counted.avail, h.counted.used_idx, h.counted.used⟩, owning := h.owning.keep (by rw [hc]; rfl),
      flight := fun c' is hf => ?_, addr := h.addr, new := fun c' head hq => ?_, names := h.names, takes := h.takes, done := h.done,
      device := h.device, once := h.once, sent := fun c' head hq => ?_, waits := fun c' head' last seen hq => ?_,
      alone := fun c1 head1 last1 seen1 c2 head2 last2 seen2 h1 h2 hs1 hs2 => ?_, served := fun c' hq => ?_ }
  · by_cases hcc : c' = c
    · subst hcc
      exact ⟨(h.flight c' is hf).1, .inr ⟨_, _, _, goto_calls_self⟩⟩
    · rw [goto_calls_of_ne hcc]
      exact h.flight c' is hf
  · exact h.new c' head (hq.imp (of_goto_ne · (by simp)) (of_goto_ne · (by simp)))
  · exact h.sent c' head (of_goto_ne hq (by simp))
  · obtain ⟨rfl, heq⟩ | ⟨-, hq⟩ := of_goto hq
    · cases heq
      refine ⟨h.counted.used_idx, Nat.le_refl _, hpub, ?_, fun _ => rfl⟩
      rw [show (s.goto c' _).done = s.done from rfl, take_length]
      exact hserved
    · exact h.waits c' head' last seen hq
  · rcases of_goto h1 with ⟨rfl, -⟩ | ⟨hne1, hq1⟩
    · rcases of_goto h2 with ⟨rfl, -⟩ | ⟨hne2, hq2⟩
      · rfl
      · exact absurd (hcalm c2 head2 last2 seen2 hne2 hq2) hs2
    · exact absurd (hcalm c1 head1 last1 seen1 hne1 hq1) hs1
  · exact h.served_goto rfl hq

omit [DecidableEq C] in
theorem Inv.served_of_exit {last seen : Nat} (hc : s.calls c = .waits head last seen) (hne : s.used_idx ≠ last) :
    s.Served c := by
  by_contra hs
  obtain ⟨hlast, -, -, -, hseen⟩ := h.waits c head last seen hc
  rw [hseen hs] at hlast
  exact hne (h.counted.used_idx.trans hlast.symm)

omit [DecidableEq C] in
theorem Inv.table (ho : Owning t s.calls chain) (ha : ∀ j, (t.desc j).addr = (s.table.desc j).addr) :
    Inv { s with table := t } chain where
  counted := ⟨h.counted.avail, h.counted.used_idx, h.counted.used⟩
  owning := ho
  flight := h.flight
  addr c is head hf hh := (ha head).trans (h.addr c is head hf hh)
  new := h.new
  names := h.names
  takes := h.takes
  done := h.done
  device := h.device
  once := h.once
  sent := h.sent
  waits := h.waits
  alone := h.alone
  served := h.served

theorem Inv.alloc (hc : s.calls c = .out) {is : List Nat}
    (ho : Owning t (update s.calls c (.holds head)) (update chain c is))
    (ha : ∀ j, (t.desc j).addr = (s.table.desc j).addr) :
    Inv ({ s with table := t }.goto c (.holds head)) (update chain c is) := by
  have hnew : c ∉ s.published.map Prod.fst := h.new c head (.inl hc)
  refine
    { counted := ⟨h.counted.avail, h.counted.used_idx, h.counted.used⟩, owning := ho, flight := fun c' is' hf => ?_,
      addr := fun c' is head hf hh => (ha head).trans (h.addr c' is head hf hh), new := fun c' head' hq => ?_, names := h.names,
      takes := h.takes, done := h.done, device := h.device, once := h.once, sent := fun c' head' hq => h.sent c' head' (of_goto_ne hq (by simp)),
      waits := fun c' head' last seen hq => h.waits c' head' last seen (of_goto_ne hq (by simp)),
      alone := fun c1 head1 last1 seen1 c2 head2 last2 seen2 h1 h2 =>
        h.alone c1 head1 last1 seen1 c2 head2 last2 seen2 (of_goto_ne h1 (by simp)) (of_goto_ne h2 (by simp)), served := fun c' hq => ?_ }
  · have hcc : c' ≠ c := by
      rintro rfl
      exact hnew (mem_map_of_mem (f := Prod.fst) hf.1)
    rw [goto_calls_of_ne hcc, update_of_ne hcc]
    exact h.flight c' is' hf
  · by_cases hcc : c' = c
    · subst hcc
      exact hnew
    · rw [goto_calls_of_ne hcc] at hq
      exact h.new c' head' hq
  · exact h.served_goto rfl hq

theorem Inv.publish (hc : s.calls c = .holds head) (read : Bool) :
    Inv ({ s with
      table := (fill s.table c read head).1
      avail := update s.avail (publishSlot s) head
      avail_idx := (s.avail_idx + 1) % 2 ^ 16
      published := s.published ++ [(c, (fill s.table c read head).2)] }.goto c (.sent head)) chain := by
  have hnew : c ∉ s.published.map Prod.fst := h.new c head (.inr hc)
  have hunserved : ¬s.Served c := fun hs => hnew (map_subset _ (take_subset _ _) (h.done c hs))
  have hhead : (s.calls c).head? = some head := by rw [hc]; rfl
  obtain ⟨hfirst, hl, h3⟩ := h.owning.linked c head hhead
  obtain ⟨i, j, hch⟩ : ∃ i j, chain c = [head, i, j] := by
    obtain ⟨a, i, j, hch⟩ := length_eq_three.1 h3
    rw [hch] at hfirst
    cases hfirst
    exact ⟨i, j, hch⟩
  have hn := h.owning.nodup c head hhead
  rw [hch] at hl hn
  obtain ⟨hlist, hbits, hlinks, hothers, haddr⟩ := fill_spec c read hl hn
  rw [hlist, ← hch]
  rw [← hch] at hothers
  have htake : (s.published ++ [(c, chain c)]).take s.takes = s.published.take s.takes := take_append_of_le_length h.takes
  -- a request in flight is an earlier one or the new one
  have hold : ∀ {c' is}, (c', is) ∈ s.published ++ [(c, chain c)] → ¬s.Served c' → c' ≠ c ∧ s.InFlight c' is ∨ c' = c ∧ is = chain c := by
    intro c' is hmem hs
    rcases mem_append.1 hmem with hin | hin
    · refine .inl ⟨?_, hin, hs⟩
      rintro rfl
      exact hnew (mem_map_of_mem (f := Prod.fst) hin)
    · cases mem_singleton.1 hin
      exact .inr ⟨rfl, rfl⟩
  have hmem : ∀ {c'}, c' ∈ s.published.map Prod.fst → c' ∈ (s.published ++ [(c, chain c)]).map Prod.fst := fun hc' => by
    rw [map_append]
    exact mem_append_left _ hc'
  refine
    { counted := ⟨?_, h.counted.used_idx, h.counted.used⟩, owning := ?_, flight := fun c' is hf => ?_, addr := fun c' is head' hf hh => ?_,
      new := fun c' head' hq => ?_, names := ?_, takes := ?_, done := fun c' hs => ?_, device := fun p hp => ?_, once := h.once,
      sent := fun c' head' hq => ?_, waits := fun c' head' last seen hq => ?_,
      alone := fun c1 head1 last1 seen1 c2 head2 last2 seen2 h1 h2 =>
        h.alone c1 head1 last1 seen1 c2 head2 last2 seen2 (of_goto_ne h1 (by simp)) (of_goto_ne h2 (by simp)), served := fun c' hq => ?_ }
  · show (s.avail_idx + 1) % 2 ^ 16 = (s.published ++ [_]).length % 2 ^ 16
    rw [length_append, length_singleton, h.counted.avail]
    omega
  · exact (h.owning.congr (fun _ _ _ k _ => hlinks k) (.inl hbits)).keep (by rw [hc]; rfl)
  · rcases hold hf.1 hf.2 with ⟨hcc, hf⟩ | ⟨rfl, rfl⟩
    · rw [goto_calls_of_ne hcc]
      exact h.flight c' is hf
    · exact ⟨rfl, .inl ⟨head, goto_calls_self⟩⟩
  · rcases hold hf.1 hf.2 with ⟨hcc, hf⟩ | ⟨rfl, rfl⟩
    · show ((fill s.table c read head).1.desc head').addr = some c'
      rw [hothers head' ?_]
      · exact h.addr c' is head' hf hh
      · obtain ⟨head1, hh1, rfl⟩ := h.flight_owned hf
        exact fun hmem => h.owning.apart c' c head1 head hcc hh1 hhead (mem_of_head? hh) hmem
    · rw [hfirst] at hh
      cases hh
      exact haddr
  · rw [show (Queue.goto _ _ _).published = s.published ++ [(c, chain c)] from rfl, map_append, mem_append, not_or]
    have hcc : c' ≠ c := by
      rintro rfl
      rw [goto_calls_self] at hq
      rcases hq with hq | hq <;> cases hq
    rw [goto_calls_of_ne hcc] at hq
    exact ⟨h.new c' head' hq, fun hmem => hcc (mem_singleton.1 hmem)⟩
  · show ((s.published ++ [(c, chain c)]).map Prod.fst).Nodup
    rw [map_append]
    exact nodup_append.2 ⟨h.names, nodup_singleton _, fun a ha b hb => by
      rw [mem_singleton.1 hb]
      rintro rfl
      exact hnew ha⟩
  · show s.takes ≤ (s.published ++ [_]).length
    rw [length_append]
    exact Nat.le_add_right_of_le h.takes
  · show c' ∈ ((s.published ++ [(c, chain c)]).take s.takes).map Prod.fst
    rw [htake]
    exact h.done c' hs
  · show ∃ c', p.2 = some c' ∧ c' ∈ ((s.published ++ [(c, chain c)]).take s.takes).map Prod.fst ∧ ¬s.Served c'
    rw [htake]
    exact h.device p hp
  · rcases of_goto hq with ⟨rfl, -⟩ | ⟨-, hq⟩
    · refine ⟨hunserved, ?_⟩
      show c' ∈ (s.published ++ [(c', chain c')]).map Prod.fst
      simp
    · exact ⟨(h.sent c' head' hq).1, hmem (h.sent c' head' hq).2⟩
  · obtain ⟨h1, h2, h3, h4⟩ := h.waits c' head' last seen (of_goto_ne hq (by simp))
    exact ⟨h1, h2, hmem h3, h4⟩
  · exact h.served_goto rfl hq

/-! ## Steps of the device -/

omit [DecidableEq C] in
theorem Inv.take (hcalm : Calm s .take) :
    Inv { s with
      takes := s.takes + 1
      device := s.device ++ [(s.avail (s.takes % QUEUE_NUM), (s.table.desc (s.avail (s.takes % QUEUE_NUM))).addr)] } chain := by
  obtain ⟨c, is, hget, hhead⟩ := hcalm
  obtain ⟨hlt, hget'⟩ := List.getElem?_eq_some_iff.1 hget
  have htake : (s.published.take (s.takes + 1)).map Prod.fst = (s.published.take s.takes).map Prod.fst ++ [c] := by
    rw [take_add_one, hget, map_append]
    rfl
  -- the names are used once, so the request is a new one
  have hnot : c ∉ (s.published.take s.takes).map Prod.fst := by
    have hnd : ((s.published.take (s.takes + 1)).map Prod.fst).Nodup := h.names.sublist ((take_sublist _ _).map _)
    rw [htake] at hnd
    exact fun hmem => (nodup_append.1 hnd).2.2 c hmem c (mem_singleton_self _) rfl
  have hserved : ¬s.Served c := fun hs => hnot (h.done c hs)
  have haddr : (s.table.desc (s.avail (s.takes % QUEUE_NUM))).addr = some c :=
    h.addr c is _ ⟨mem_of_getElem? hget, hserved⟩ hhead
  rw [haddr]
  refine
    { counted := ⟨h.counted.avail, h.counted.used_idx, h.counted.used⟩, owning := h.owning, flight := h.flight, addr := h.addr,
      new := h.new, names := h.names, takes := hlt, done := fun c' hs => ?_, device := fun p hp => ?_, once := ?_, sent := h.sent,
      waits := h.waits, alone := h.alone, served := h.served }
  · show c' ∈ (s.published.take (s.takes + 1)).map Prod.fst
    rw [htake]
    exact mem_append_left _ (h.done c' hs)
  · show ∃ c', p.2 = some c' ∧ c' ∈ (s.published.take (s.takes + 1)).map Prod.fst ∧ ¬s.Served c'
    rw [htake]
    rcases mem_append.1 hp with hp | hp
    · obtain ⟨c', h1, h2, h3⟩ := h.device p hp
      exact ⟨c', h1, mem_append_left _ h2, h3⟩
    · rw [mem_singleton.1 hp]
      exact ⟨c, rfl, mem_append_right _ (mem_singleton_self _), hserved⟩
  · show ((s.device ++ [(_, some c)]).map Prod.snd).Nodup
    rw [map_append]
    refine nodup_append.2 ⟨h.once, nodup_singleton _, fun o ho o' ho' => ?_⟩
    rw [mem_singleton.1 ho']
    rintro rfl
    obtain ⟨p, hp, hpc⟩ := mem_map.1 ho
    obtain ⟨c', h1, h2, -⟩ := h.device p hp
    rw [hpc] at h1
    cases h1
    exact hnot h2

theorem Inv.complete {i len head' last seen : Nat} {st : UInt8} (hi : s.device[i]? = some (head, some c))
    (hc : s.calls c = .waits head' last seen) :
    Inv ({ s with device := s.device.eraseIdx i }.store head len (some c) st) chain := by
  obtain ⟨c0, h0, hcpub, hcs⟩ := h.device _ (mem_of_getElem? hi)
  cases h0
  have hserved : ∀ {c'}, ({ s with device := s.device.eraseIdx i }.store head len (some c) st).Served c' ↔ s.Served c' ∨ c' = c := by
    intro c'
    show some c' ∈ s.done ++ [some c] ↔ _
    simp [Queue.Served]
  refine
    { counted := ?_, owning := h.owning, flight := fun c' is hf => ?_, addr := fun c' is head hf => ?_, new := h.new, names := h.names,
      takes := h.takes, done := fun c' hs => ?_, device := fun p hp => ?_, once := h.once.sublist ((eraseIdx_sublist _ _).map _),
      sent := fun c' head hq => ?_, waits := fun c' head last seen hq => ?_,
      alone := fun c1 head1 last1 seen1 c2 head2 last2 seen2 h1 h2 hs1 hs2 => ?_, served := fun c' hq => hserved.2 (.inl (h.served c' hq)) }
  · have hrest : Counted { s with device := s.device.eraseIdx i } := ⟨h.counted.avail, h.counted.used_idx, h.counted.used⟩
    exact hrest.store head len (some c) st
  · exact h.flight c' is ⟨hf.1, fun hs => hf.2 (hserved.2 (.inl hs))⟩
  · exact h.addr c' is head ⟨hf.1, fun hs => hf.2 (hserved.2 (.inl hs))⟩
  · rcases hserved.1 hs with hs | rfl
    · exact h.done c' hs
    · exact hcpub
  · -- another entry has another name
    obtain ⟨k, hk, hget⟩ := mem_eraseIdx_iff_getElem?.1 hp
    obtain ⟨c', h1, h2, h3⟩ := h.device p (mem_of_getElem? hget)
    refine ⟨c', h1, h2, fun hs => ?_⟩
    rcases hserved.1 hs with hs | rfl
    · exact h3 hs
    · have h4 : (s.device.map Prod.snd)[k]? = some (some c') := by rw [getElem?_map, hget, ← h1]; rfl
      have h5 : (s.device.map Prod.snd)[i]? = some (some c') := by rw [getElem?_map, hi]; rfl
      have hlt := (List.getElem?_eq_some_iff.1 h4).1
      exact hk ((getElem?_inj hlt h.once).1 (h4.trans h5.symm))
  · obtain ⟨h1, h2⟩ := h.sent c' head hq
    refine ⟨fun hs => ?_, h2⟩
    rcases hserved.1 hs with hs | rfl
    · exact h1 hs
    · rw [show s.calls c' = .sent head from hq] at hc
      cases hc
  · obtain ⟨h1, h2, h3, h4, h5⟩ := h.waits c' head last seen hq
    refine ⟨h1, ?_, h3, ?_, fun hs => ?_⟩
    · show seen ≤ (s.done ++ [some c]).length
      rw [length_append]
      exact Nat.le_add_right_of_le h2
    · show some c' ∉ (s.done ++ [some c]).take seen
      rw [take_append_of_le_length h2]
      exact h4
    · -- two calls that wait for a completion are one
      obtain rfl : c' = c := h.alone c' head last seen c _ _ _ hq hc (fun h => hs (hserved.2 (.inl h))) hcs
      exact absurd (hserved.2 (.inr rfl)) hs
  · exact h.alone c1 head1 last1 seen1 c2 head2 last2 seen2 h1 h2 (fun h => hs1 (hserved.2 (.inl h))) fun h => hs2 (hserved.2 (.inl h))

/-! ## Runs -/

theorem Inv.step {e : Event C} (hcalm : Calm s e) (hs : Step s e s') : ∃ chain', Inv s' chain' := by
  have hd := hs.does
  cases e with
  | alloc c =>
    obtain ⟨hc, hd⟩ := hd
    have hnone : (s.calls c).head? = none := by rw [hc]; rfl
    rcases allocDesc_spec (n := 3) (by decide) h.owning.bits with ⟨u, i, is, hr, h3, hfresh, hlinked⟩ | ⟨u, is, hr, hbits, hfree, hkeep, haddr⟩
    · obtain ⟨t, head, ht, rfl⟩ | ⟨t, ht, -⟩ := hd
      · cases hr.symm.trans ht
        exact ⟨_, h.alloc hc (h.owning.take hnone hfresh hlinked h3) hfresh.addr⟩
      · cases hr.symm.trans ht
    · obtain ⟨t, head, ht, -⟩ | ⟨t, ht, rfl⟩ := hd
      · cases hr.symm.trans ht
      · cases hr.symm.trans ht
        refine ⟨chain, h.table (h.owning.congr (fun c' head' hh j hj => ?_) (.inr hbits)) haddr⟩
        rw [hkeep j fun hmem => hfree j hmem ⟨c', head', hh, hj⟩]
        exact ⟨rfl, rfl⟩
  | publish c read =>
    obtain ⟨head, hc, rfl⟩ := hd
    exact ⟨chain, h.publish hc read⟩
  | sample c =>
    obtain ⟨head, hc, rfl⟩ := hd
    exact ⟨chain, h.sample hc hcalm⟩
  | exit c =>
    obtain ⟨head, last, seen, hc, hne, rfl⟩ := hd
    exact ⟨chain, h.past (h.served_of_exit hc hne) rfl (h.owning.keep (by rw [hc]; rfl)) fun _ => rfl⟩
  | index c =>
    obtain ⟨head, hc, rfl⟩ := hd
    exact ⟨chain, h.past (h.served c (by rw [hc]; rfl)) rfl (h.owning.keep (by rw [hc]; rfl)) fun _ => rfl⟩
  | free c =>
    obtain ⟨head, p, ⟨idx, hc, rfl⟩ | ⟨hc, rfl⟩, rfl⟩ := hd
    · obtain ⟨ho, ha⟩ := h.owning.give (p := .reads idx) (show (s.calls c).head? = some head by rw [hc]; rfl) rfl
      exact ⟨chain, h.past (h.served c (by rw [hc]; rfl)) rfl ho ha⟩
    · obtain ⟨ho, ha⟩ := h.owning.give (p := .back none) (show (s.calls c).head? = some head by rw [hc]; rfl) rfl
      exact ⟨chain, h.past (h.served c (by rw [hc]; rfl)) rfl ho ha⟩
  | finish c =>
    obtain ⟨idx, r, hc, rfl⟩ := hd
    exact ⟨chain, h.past (h.served c (by rw [hc]; rfl)) rfl (h.owning.keep (by rw [hc]; rfl)) fun _ => rfl⟩
  | take =>
    obtain ⟨-, rfl⟩ := hd
    exact ⟨chain, h.take hcalm⟩
  | complete i len st =>
    obtain ⟨head, o, hi, rfl⟩ := hd
    obtain ⟨head', c, h', last, seen, hi', hc⟩ := hcalm
    cases hi.symm.trans hi'
    exact ⟨chain, h.complete hi hc⟩

end

omit [DecidableEq C] in
theorem inv_fresh (status : C → UInt8) : Inv (fresh status) fun _ => [] where
  counted := counted_fresh status
  owning :=
    { linked := fun _ _ h => nomatch h
      nodup := fun _ _ h => nomatch h
      small := fun _ _ h => nomatch h
      apart := fun _ _ _ _ _ h => nomatch h
      bits := fun n _ => by
        show BitVec.getLsbD 0#64 n = true ↔ _
        rw [BitVec.getLsbD_zero]
        exact ⟨(fun h => nomatch h), fun ⟨_, _, h, _⟩ => nomatch h⟩ }
  flight _ _ h := nomatch h.1
  addr _ _ _ h := nomatch h.1
  new _ _ _ := not_mem_nil
  names := nodup_nil
  takes := Nat.le_refl _
  done _ h := nomatch h
  device _ h := nomatch h
  once := nodup_nil
  sent _ _ h := nomatch h
  waits _ _ _ _ h := nomatch h
  alone _ _ _ _ _ _ _ _ h := nomatch h
  served _ h := nomatch h

end Steps

/-- In every run of any number of calls whose steps are all calm, a call returns only
on its own completion. -/
theorem completion_belongs {status : C → UInt8} {es : List (Event C)} {s : Queue C}
    (hr : Lib.Run (Lib.Guarded Calm Step) (fresh status) es s) : Belongs s := by
  obtain ⟨chain, h⟩ : ∃ chain, Inv s chain :=
    hr.keep (fun s => ∃ chain, Inv s chain) (fun _ _ _ ⟨_, h⟩ hs => h.step hs.1 hs.2) ⟨_, inv_fresh status⟩
  exact h.belongs

namespace RunSample

def crossed : List (Event Bool) :=
  [.alloc false, .publish false true, .sample false, .alloc true, .publish true true, .sample true, .take, .take,
    .complete 1 513 0, .exit false, .index false, .free false, .finish false]

/-- The first call returns a length while its request is still with the device. -/
theorem other_completion_returns : ∃ s : Queue Bool, Lib.Run Step (fresh fun _ => 0) crossed s ∧ ¬Belongs s := by
  have hrun : (Lib.exec next (fresh fun _ => 0) crossed).map (fun s => (s.calls false, s.done)) = some (.back (some 512), [some true]) := by
    decide +kernel
  obtain ⟨s, hs, hcall⟩ := Option.map_eq_some_iff.1 hrun
  refine ⟨s, Lib.run_of_exec (fun _ _ _ h => h) hs, fun h => ?_⟩
  have hdone : s.done = [some true] := congrArg Prod.snd hcall
  have hserved : some false ∈ s.done := h.returned false 512 (congrArg Prod.fst hcall)
  rw [hdone] at hserved
  simp at hserved

def waiting : Phase → Bool
  | .waits _ _ _ => true
  | _ => false

/-- `Calm` for two calls, decided. -/
def calmPair (s : Queue Bool) : Event Bool → Bool
  | .sample c => !waiting (s.calls !c) || s.done.contains (some !c)
  | .take =>
    match s.published[s.takes]? with
    | some (_, is) => is.head? = some (s.avail (s.takes % QUEUE_NUM))
    | none => false
  | .complete i _ _ =>
    match s.device[i]? with
    | some (_, some c) => waiting (s.calls c)
    | _ => false
  | _ => true

theorem waits_of_waiting {p : Phase} (h : waiting p = true) : ∃ head last seen, p = .waits head last seen := by
  cases p <;> first | exact ⟨_, _, _, rfl⟩ | cases h

theorem calm_of_calmPair {s : Queue Bool} {e : Event Bool} (h : calmPair s e = true) : Calm s e := by
  cases e with
  | sample c =>
    intro c' head last seen hne hc
    obtain rfl : c' = !c := by cases c <;> cases c' <;> simp_all
    simpa [calmPair, waiting, hc, Queue.Served] using h
  | take =>
    unfold calmPair at h
    dsimp only at h
    split at h
    · next c is hget => exact ⟨c, is, hget, of_decide_eq_true h⟩
    · cases h
  | complete i len st =>
    unfold calmPair at h
    dsimp only at h
    split at h
    · next head c hi =>
      obtain ⟨h, last, seen, hc⟩ := waits_of_waiting h
      exact ⟨head, c, h, last, seen, hi, hc⟩
    · cases h
  | _ => trivial

/-- Both requests are with the device when the first completes. The second call samples
after that, and then the device completes its request. -/
def inFlight : List (Event Bool) :=
  [.alloc false, .publish false true, .sample false, .alloc true, .publish true true, .take, .take, .complete 0 513 0,
    .sample true, .complete 0 513 0, .exit false, .index false, .free false, .finish false, .exit true, .index true,
    .free true, .finish true]

theorem in_flight_belongs : ∃ s : Queue Bool, Lib.Run (Lib.Guarded Calm Step) (fresh fun _ => 7) inFlight s ∧
    s.calls false = .back (some 512) ∧ s.calls true = .back (some 512) ∧ Belongs s := by
  have hrun : (Lib.exec (fun s e => if calmPair s e then next s e else none) (fresh fun _ => 7) inFlight).map
      (fun s => (s.calls false, s.calls true)) = some (.back (some 512), .back (some 512)) := by
    decide +kernel
  obtain ⟨s, hs, hcall⟩ := Option.map_eq_some_iff.1 hrun
  have hr : Lib.Run (Lib.Guarded Calm Step) (fresh fun _ => 7) inFlight s := by
    refine Lib.run_of_exec (fun s e s' h => ?_) hs
    split_ifs at h with hcalm
    exact ⟨calm_of_calmPair hcalm, h⟩
  exact ⟨s, hr, congrArg Prod.fst hcall, congrArg Prod.snd hcall, completion_belongs hr⟩

end RunSample

end Disk
