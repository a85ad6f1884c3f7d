import Loeux.Drivers.Desc
import Loeux.Lib.Runs
/-!
# The disk queue (`drivers/virtio_disk.c`)

Any number of calls of `virtio_disk_rw_sync` and the device, step by step: taking
descriptors, publishing a chain, sampling the used index, leaving the wait, giving
the descriptors back and reading the length. The device takes requests in order
from the slots of a ring of `QUEUE_NUM`, the size `init_virtio_disk` gives it, and
completes them in any order. A call is named by `c`, and each name is used once.
-/

open Function List

namespace Disk

variable {C : Type} [DecidableEq C]

/-- The queue size that `init_virtio_disk` writes to the device. -/
def QUEUE_NUM : Nat := 256

structure Elem (C : Type) where
  id : Nat := 0
  len : Nat := 0
  of : Option C := none

/-- Where a call is. -/
inductive Phase
  | out
  /-- The chain is taken. -/
  | holds (head : Nat)
  /-- The chain is in the avail ring. -/
  | sent (head : Nat)
  /-- The used index was `last` when `seen` requests were completed. -/
  | waits (head last seen : Nat)
  /-- The used index has changed; whether the status is zero. -/
  | leaves (head : Nat) (ok : Bool)
  /-- The used index was read again. -/
  | indexed (head idx : Nat)
  /-- The chain is given back. -/
  | reads (idx : Nat)
  | back (result : Option Nat)
deriving Repr, DecidableEq

/-- The driver's memory, the device, and what has happened: the calls in the order
they published, with their chains, and the completions in order. -/
structure Queue (C : Type) where
  table : Table C := {}
  avail_idx : Nat := 0
  avail : Nat → Nat := fun _ => 0
  used_idx : Nat := 0
  used : Nat → Elem C := fun _ => {}
  status : C → UInt8
  calls : C → Phase := fun _ => .out
  published : List (C × List Nat) := []
  takes : Nat := 0
  device : List (Nat × Option C) := []
  done : List (Option C) := []

def fill (t : Table C) (c : C) (read : Bool) (head : Nat) : Table C × List Nat :=
  let t := t.set head { t.desc head with addr := some c, f_next := true }
  let i := (t.desc head).next
  let t := t.set i { t.desc i with addr := some c, f_next := true, f_write := (t.desc i).f_write || read }
  let j := (t.desc i).next
  let t := t.set j { t.desc j with addr := some c, f_next := false, f_write := true }
  (t, [head, i, j])

def publishSlot (s : Queue C) : Nat := s.avail_idx % QUEUE_SIZE

/-- `(used_start->idx - 1) & (queue_size - 1)`. -/
def usedSlot (idx : Nat) : Nat := (idx + 2 ^ 32 - 1) % 2 ^ 32 &&& (QUEUE_SIZE - 1)

inductive Event (C : Type)
  | alloc (c : C)
  | publish (c : C) (read : Bool)
  | sample (c : C)
  | exit (c : C)
  | index (c : C)
  | free (c : C)
  | finish (c : C)
  /-- The device takes its next request. -/
  | take
  /-- The device completes one of the requests it has taken. -/
  | complete (i len : Nat) (status : UInt8)

def Queue.goto (s : Queue C) (c : C) (p : Phase) : Queue C := { s with calls := Function.update s.calls c p }

/-- The device completes a request: the used element, the status, the used index. -/
def Queue.store (s : Queue C) (head len : Nat) (o : Option C) (st : UInt8) : Queue C :=
  { s with
    used := Function.update s.used (s.done.length % QUEUE_NUM) ⟨head, len, o⟩
    used_idx := (s.used_idx + 1) % 2 ^ 16
    status := match o with
      | some c => Function.update s.status c st
      | none => s.status
    done := s.done ++ [o] }

def next (s : Queue C) : Event C → Option (Queue C)
  | .alloc c =>
    match s.calls c, allocDesc 3 s.table with
    | .out, (t, some head) => some ({ s with table := t }.goto c (.holds head))
    | .out, (t, none) => some { s with table := t }
    | _, _ => none
  | .publish c read =>
    match s.calls c with
    | .holds head => some ({ s with
        table := (fill s.table c read head).1
        avail := Function.update s.avail (publishSlot s) head
        avail_idx := (s.avail_idx + 1) % 2 ^ 16
        published := s.published ++ [(c, (fill s.table c read head).2)] }.goto c (.sent head))
    | _ => none
  | .sample c =>
    match s.calls c with
    | .sent head => some (s.goto c (.waits head s.used_idx s.done.length))
    | _ => none
  | .exit c =>
    match s.calls c with
    | .waits head last _ => if s.used_idx = last then none else some (s.goto c (.leaves head (s.status c = 0)))
    | _ => none
  | .index c =>
    match s.calls c with
    | .leaves head true => some (s.goto c (.indexed head s.used_idx))
    | _ => none
  | .free c =>
    match s.calls c with
    | .indexed head idx => some ({ s with table := freeDesc head s.table }.goto c (.reads idx))
    | .leaves head false => some ({ s with table := freeDesc head s.table }.goto c (.back none))
    | _ => none
  | .finish c =>
    match s.calls c with
    | .reads idx => some (s.goto c (.back (some (((s.used (usedSlot idx)).len + 2 ^ 32 - 1) % 2 ^ 32))))
    | _ => none
  | .take =>
    if s.avail_idx = s.takes % 2 ^ 16 then none
    else
      let head := s.avail (s.takes % QUEUE_NUM)
      some { s with takes := s.takes + 1, device := s.device ++ [(head, (s.table.desc head).addr)] }
  | .complete i len st =>
    match s.device[i]? with
    | some (head, o) => some ({ s with device := s.device.eraseIdx i }.store head len o st)
    | none => none

/-- After `init_virtio_queue`. -/
def fresh (status : C → UInt8) : Queue C := { status }

def Step (s : Queue C) (e : Event C) (s' : Queue C) : Prop := next s e = some s'

/-! ## What a step does -/

def Does (s s' : Queue C) : Event C → Prop
  | .alloc c => s.calls c = .out ∧
    ((∃ t head, allocDesc 3 s.table = (t, some head) ∧ s' = { s with table := t }.goto c (.holds head)) ∨
      ∃ t, allocDesc 3 s.table = (t, none) ∧ s' = { s with table := t })
  | .publish c read => ∃ head, s.calls c = .holds head ∧ s' = { s with
      table := (fill s.table c read head).1
      avail := Function.update s.avail (publishSlot s) head
      avail_idx := (s.avail_idx + 1) % 2 ^ 16
      published := s.published ++ [(c, (fill s.table c read head).2)] }.goto c (.sent head)
  | .sample c => ∃ head, s.calls c = .sent head ∧ s' = s.goto c (.waits head s.used_idx s.done.length)
  | .exit c => ∃ head last seen, s.calls c = .waits head last seen ∧ s.used_idx ≠ last ∧
      s' = s.goto c (.leaves head (s.status c = 0))
  | .index c => ∃ head, s.calls c = .leaves head true ∧ s' = s.goto c (.indexed head s.used_idx)
  | .free c => ∃ head p, ((∃ idx, s.calls c = .indexed head idx ∧ p = .reads idx) ∨ s.calls c = .leaves head false ∧ p = .back none) ∧
      s' = { s with table := freeDesc head s.table }.goto c p
  | .finish c => ∃ idx r, s.calls c = .reads idx ∧ s' = s.goto c (.back (some r))
  | .take => s.avail_idx ≠ s.takes % 2 ^ 16 ∧ s' = { s with
      takes := s.takes + 1
      device := s.device ++ [(s.avail (s.takes % QUEUE_NUM), (s.table.desc (s.avail (s.takes % QUEUE_NUM))).addr)] }
  | .complete i len st => ∃ head o, s.device[i]? = some (head, o) ∧
      s' = { s with device := s.device.eraseIdx i }.store head len o st

theorem Step.does {s s' : Queue C} {e : Event C} (h : Step s e s') : Does s s' e := by
  unfold Step next at h
  cases e with
  | alloc c =>
    dsimp only at h
    split at h
    · next hc ht =>
      cases h
      exact ⟨hc, .inl ⟨_, _, ht, rfl⟩⟩
    · next hc ht =>
      cases h
      exact ⟨hc, .inr ⟨_, ht, rfl⟩⟩
    · cases h
  | publish c read =>
    dsimp only at h
    split at h
    · next hc =>
      cases h
      exact ⟨_, hc, rfl⟩
    · cases h
  | sample c =>
    dsimp only at h
    split at h
    · next hc =>
      cases h
      exact ⟨_, hc, rfl⟩
    · cases h
  | exit c =>
    dsimp only at h
    split at h
    · next hc =>
      split at h
      · cases h
      · next hne =>
        cases h
        exact ⟨_, _, _, hc, hne, rfl⟩
    · cases h
  | index c =>
    dsimp only at h
    split at h
    · next hc =>
      cases h
      exact ⟨_, hc, rfl⟩
    · cases h
  | free c =>
    dsimp only at h
    split at h
    · next hc =>
      cases h
      exact ⟨_, _, .inl ⟨_, hc, rfl⟩, rfl⟩
    · next hc =>
      cases h
      exact ⟨_, _, .inr ⟨hc, rfl⟩, rfl⟩
    · cases h
  | finish c =>
    dsimp only at h
    split at h
    · next hc =>
      cases h
      exact ⟨_, _, hc, rfl⟩
    · cases h
  | take =>
    dsimp only at h
    split at h
    · cases h
    · next hne =>
      cases h
      exact ⟨hne, rfl⟩
  | complete i len st =>
    dsimp only at h
    split at h
    · next hd =>
      cases h
      exact ⟨_, _, hd, rfl⟩
    · cases h

/-! ## Slots -/

/-- The indices are the 16-bit counts of what has happened, and a slot of the used
ring holds the last completion stored there. -/
structure Counted (s : Queue C) : Prop where
  avail : s.avail_idx = s.published.length % 2 ^ 16
  used_idx : s.used_idx = s.done.length % 2 ^ 16
  used : ∀ slot c, (s.used slot).of = some c ↔
    ∃ j, s.done[j]? = some (some c) ∧ j % QUEUE_NUM = slot ∧ s.done.length ≤ j + QUEUE_NUM

theorem Counted.store {s : Queue C} (h : Counted s) (head len : Nat) (o : Option C) (st : UInt8) :
    Counted (s.store head len o st) := by
  refine ⟨h.avail, ?_, fun slot c => ?_⟩
  · show (s.used_idx + 1) % 2 ^ 16 = (s.done ++ [o]).length % 2 ^ 16
    rw [length_append, length_singleton, h.used_idx]
    omega
  · show (update s.used (s.done.length % QUEUE_NUM) ⟨head, len, o⟩ slot).of = some c ↔
      ∃ j, (s.done ++ [o])[j]? = some (some c) ∧ j % QUEUE_NUM = slot ∧ (s.done ++ [o]).length ≤ j + QUEUE_NUM
    rw [length_append, length_singleton]
    by_cases hslot : slot = s.done.length % QUEUE_NUM
    · subst hslot
      rw [update_self]
      constructor
      · rintro ho
        exact ⟨s.done.length, by simp [show o = some c from ho], rfl, by unfold QUEUE_NUM; omega⟩
      · rintro ⟨j, hj, hmod, hle⟩
        have hlt : j < s.done.length + 1 := by
          have := (List.getElem?_eq_some_iff.1 hj).1
          simpa using this
        obtain rfl : j = s.done.length := by
          unfold QUEUE_NUM at hmod hle
          omega
        simpa using hj
    · rw [update_of_ne hslot, h.used]
      constructor
      · rintro ⟨j, hj, hmod, hle⟩
        have hlt := (List.getElem?_eq_some_iff.1 hj).1
        refine ⟨j, by rw [getElem?_append_left hlt, hj], hmod, ?_⟩
        unfold QUEUE_NUM at hmod hle hslot ⊢
        omega
      · rintro ⟨j, hj, hmod, hle⟩
        have hlt : j < s.done.length := by
          have hlt' : j < s.done.length + 1 := by
            have := (List.getElem?_eq_some_iff.1 hj).1
            simpa using this
          rcases Nat.lt_or_eq_of_le (Nat.le_of_lt_succ hlt') with h1 | rfl
          · exact h1
          · exact absurd hmod.symm hslot
        exact ⟨j, by rwa [getElem?_append_left hlt] at hj, hmod, by omega⟩

omit [DecidableEq C] in
theorem counted_fresh (status : C → UInt8) : Counted (fresh status) :=
  ⟨rfl, rfl, fun _ _ => ⟨(fun h => nomatch h), fun ⟨_, hj, _⟩ => nomatch hj⟩⟩

theorem Counted.step {s s' : Queue C} {e : Event C} (h : Counted s) (hs : Step s e s') : Counted s' := by
  have hd := hs.does
  cases e with
  | alloc c =>
    obtain ⟨-, ⟨t, head, -, rfl⟩ | ⟨t, -, rfl⟩⟩ := hd <;> exact ⟨h.avail, h.used_idx, h.used⟩
  | publish c read =>
    obtain ⟨head, -, rfl⟩ := hd
    refine ⟨?_, h.used_idx, h.used⟩
    show (s.avail_idx + 1) % 2 ^ 16 = (s.published ++ [_]).length % 2 ^ 16
    rw [length_append, length_singleton, h.avail]
    omega
  | sample c =>
    obtain ⟨head, -, rfl⟩ := hd
    exact ⟨h.avail, h.used_idx, h.used⟩
  | exit c =>
    obtain ⟨head, last, seen, -, -, rfl⟩ := hd
    exact ⟨h.avail, h.used_idx, h.used⟩
  | index c =>
    obtain ⟨head, -, rfl⟩ := hd
    exact ⟨h.avail, h.used_idx, h.used⟩
  | free c =>
    obtain ⟨head, p, -, rfl⟩ := hd
    exact ⟨h.avail, h.used_idx, h.used⟩
  | finish c =>
    obtain ⟨idx, r, -, rfl⟩ := hd
    exact ⟨h.avail, h.used_idx, h.used⟩
  | take =>
    obtain ⟨-, rfl⟩ := hd
    exact ⟨h.avail, h.used_idx, h.used⟩
  | complete i len st =>
    obtain ⟨head, o, -, rfl⟩ := hd
    have hrest : Counted { s with device := s.device.eraseIdx i } := ⟨h.avail, h.used_idx, h.used⟩
    exact hrest.store head len o st

/-- Driver and device use the same slots: the next chain is published in the slot the
device will take it from, and a call that reads a length reads the element stored
for its own request. -/
structure SlotsAgree (s : Queue C) : Prop where
  publish : publishSlot s = s.published.length % QUEUE_NUM
  length : ∀ c idx, s.calls c = .reads idx → (s.used (usedSlot idx)).of = some c

/-- In every state of any number of calls and requests, the slots agree exactly when
the two moduli do: for the number of requests published so far, and for the number
`j` of the completion of each call that reads its length. -/
theorem slots_agree_iff {status : C → UInt8} {es : List (Event C)} {s : Queue C} (hr : Lib.Run Step (fresh status) es s) :
    SlotsAgree s ↔ s.published.length % 2 ^ 16 % QUEUE_SIZE = s.published.length % QUEUE_NUM ∧
      ∀ c idx, s.calls c = .reads idx →
        ∃ j, s.done[j]? = some (some c) ∧ j % QUEUE_NUM = usedSlot idx ∧ s.done.length ≤ j + QUEUE_NUM := by
  have hc : Counted s := hr.keep Counted (fun _ _ _ h hs => h.step hs) (counted_fresh status)
  constructor
  · rintro ⟨hp, hl⟩
    refine ⟨?_, fun c idx hi => (hc.used _ _).1 (hl c idx hi)⟩
    rw [publishSlot, hc.avail] at hp
    exact hp
  · rintro ⟨hp, hl⟩
    refine ⟨?_, fun c idx hi => (hc.used _ _).2 (hl c idx hi)⟩
    rw [publishSlot, hc.avail]
    exact hp

namespace SlotSample

def upToFree (c : Nat) : List (Event Nat) :=
  [.alloc c, .publish c true, .sample c, .take, .complete 0 513 0, .exit c, .index c, .free c]

def nine : List (Event Nat) := (List.range 8).flatMap (fun c => upToFree c ++ [.finish c]) ++ upToFree 8

theorem step_of_next {C : Type} [DecidableEq C] (s : Queue C) (e : Event C) (s' : Queue C) (h : next s e = some s') : Step s e s' := h

/-- The ninth call returns the length of the first request. -/
theorem ninth_reads_first : ∃ s : Queue Nat, Lib.Run Step (fresh fun _ => 0) nine s ∧ ¬SlotsAgree s := by
  have hrun : (Lib.exec next (fresh fun _ => 0) nine).map (fun s => (s.calls 8, (s.used (usedSlot 9)).of)) = some (.reads 9, some 0) := by
    decide +kernel
  obtain ⟨s, hs, hcall⟩ := Option.map_eq_some_iff.1 hrun
  refine ⟨s, Lib.run_of_exec step_of_next hs, fun h => ?_⟩
  have hown := h.length 8 9 (congrArg Prod.fst hcall)
  rw [show (s.used (usedSlot 9)).of = some 0 from congrArg Prod.snd hcall] at hown
  cases hown

/-- Two requests are with the device at once. Each call reads the index before the next completion. -/
def two : List (Event Bool) :=
  [.alloc false, .publish false true, .sample false, .alloc true, .publish true true, .sample true, .take, .take,
    .complete 0 513 0, .exit false, .index false, .free false, .complete 0 513 0, .exit true, .index true, .free true]

theorem two_agree : ∃ s : Queue Bool, Lib.Run Step (fresh fun _ => 0) two s ∧
    s.calls false = .reads 1 ∧ s.calls true = .reads 2 ∧ SlotsAgree s := by
  have hrun : (Lib.exec next (fresh fun _ => 0) two).map
      (fun s => (s.calls false, s.calls true, s.published.length, s.done)) =
        some (.reads 1, .reads 2, 2, [some false, some true]) := by
    decide +kernel
  obtain ⟨s, hs, hcall⟩ := Option.map_eq_some_iff.1 hrun
  simp only [Prod.mk.injEq] at hcall
  obtain ⟨hfirst, hsecond, hlen, hdone⟩ := hcall
  have hr : Lib.Run Step (fresh fun _ => 0) two s := Lib.run_of_exec step_of_next hs
  refine ⟨s, hr, hfirst, hsecond, (slots_agree_iff hr).2 ⟨by rw [hlen]; decide, fun c idx hi => ?_⟩⟩
  rw [hdone]
  cases c with
  | false =>
    rw [hfirst] at hi
    cases hi
    exact ⟨0, rfl, by decide, by decide⟩
  | true =>
    rw [hsecond] at hi
    cases hi
    exact ⟨1, rfl, by decide, by decide⟩

end SlotSample

end Disk
