import Mathlib
import Loeux.Utils.HashmapSpec
/-!
# Tasks on one table

An operation reads the size of the table before it takes the lock. Between the two
steps other tasks may grow or shrink the table, and then the bucket that the
operation goes to is not the bucket of its key.
-/

namespace Utils

open Lib Mm Function

inductive Work
  | insert (value : Nat) (overwrite : Bool)
  | insertIfAbsent (value : Nat)
  | lookup
  | delete
deriving DecidableEq

structure Pending where
  key : Key
  work : Work
  index : UInt32

structure Pool where
  table : Table
  pending : Nat → Option Pending

deriving instance DecidableEq for Result

/-- A task reads the size of the table, or goes through the locked section and returns. -/
inductive Event
  | start (task : Nat) (k : Key) (w : Work)
  | finish (task : Nat) (R : Room) (k : Key) (w : Work) (r : Result)

def Work.op (k : Key) : Work → Op
  | .insert value overwrite => .insert k.ptr k.len value overwrite
  | .insertIfAbsent value => .insertIfAbsent k.ptr k.len value
  | .lookup => .lookup k.ptr k.len
  | .delete => .delete k.ptr k.len

/-- The completed calls, in the order of their locked sections. -/
def Event.call : Event → Option Call
  | .start .. => none
  | .finish _ R k w r => some ⟨R, w.op k, r⟩

section

variable (K : Keys)

def Work.locked (R : Room) (t : Table) (index : UInt32) (k : Key) : Work → Except Halt (Result × Table)
  | .insert value overwrite => do
    let (b, t) ← hashTableInsertLocked K R t index k value overwrite
    pure (.bool b, t)
  | .insertIfAbsent value => do
    let (b, t) ← hashTableInsertIfAbsentLocked K R t index k value
    pure (.bool b, t)
  | .lookup => do
    let v ← hashTableLookupLocked K t index k
    pure (.pointer v, t)
  | .delete => do
    let (b, t) ← hashTableDeleteLocked K R t index k
    pure (.bool b, t)

/-- The next state, if the event is possible. -/
def Pool.next (s : Pool) : Event → Option Pool
  | .start i k w =>
    match s.pending i with
    | none => some { s with pending := Function.update s.pending i (some ⟨k, w, s.table.index K k⟩) }
    | some _ => none
  | .finish i R k w r =>
    match s.pending i with
    | none => none
    | some p =>
      if p.key = k ∧ p.work = w then
        match w.locked K R s.table p.index k with
        | .ok (r', t) => if r' = r then some ⟨t, Function.update s.pending i none⟩ else none
        | .error _ => none
      else none

def Pool.Step (s : Pool) (e : Event) (s' : Pool) : Prop := s.next K e = some s'

/-- The locked section finds the size that the operation has read, or one that gives the
same bucket. -/
def Pool.Steady (s : Pool) : Event → Prop
  | .start .. => True
  | .finish i _ _ _ _ => ∀ p, s.pending i = some p → p.index = s.table.index K p.key

instance Pool.decidableSteady (s : Pool) : (e : Event) → Decidable (s.Steady K e)
  | .start .. => isTrue trivial
  | .finish i _ _ _ _ =>
    decidable_of_iff (∀ p ∈ s.pending i, p.index = s.table.index K p.key) (Iff.refl _)

end

section

variable {K : Keys} {M : K.Map} {t : Table}

theorem Key.mk?_self (k : Key) : Key.mk? k.ptr k.len = some k := dif_pos ⟨k.ptr_ne, k.len_ne⟩

theorem Work.locked_eq (R : Room) (k : Key) (w : Work) : w.locked K R t (t.index K k) k = (w.op k).run K R t := by
  cases w <;> simp only [Work.locked, Work.op, Op.run, hashTableInsert, hashTableInsertIfAbsent, hashTableLookup,
    hashTableDelete, Key.mk?_self]

theorem Pool.step_holds {s s' : Pool} {e : Event} (h : Holds K s.table M) (hP : s.Steady K e)
    (hs : Pool.Step K s e s') :
    match e.call with
    | none => s'.table = s.table
    | some c => Call.Step K s.table c s'.table := by
  unfold Pool.Step at hs
  cases e with
  | start i k w =>
    cases hp : s.pending i with
    | none =>
      simp only [Pool.next, hp, Option.some.injEq] at hs
      exact hs ▸ rfl
    | some p => simp [Pool.next, hp] at hs
  | finish i R k w r =>
    cases hp : s.pending i with
    | none => simp [Pool.next, hp] at hs
    | some p =>
      have hi := hP p hp
      simp only [Pool.next, hp] at hs
      split at hs
      · next hkw =>
        obtain ⟨rfl, rfl⟩ := hkw
        obtain ⟨r', t', -, he, -⟩ := (p.work.op p.key).run_holds h R
        rw [hi, Work.locked_eq, he] at hs
        dsimp only at hs
        split at hs
        · next hr =>
          cases hs
          exact hr ▸ he
        · cases hs
      · cases hs

theorem Pool.run_holds {s s' : Pool} {es : List Event} (h : Run (Guarded (Pool.Steady K) (Pool.Step K)) s es s')
    (hM : Holds K s.table M) :
    ∃ M', Run Call.Abstract M (es.filterMap Event.call) M' ∧ Holds K s'.table M' := by
  induction h generalizing M with
  | nil => exact ⟨M, .nil _, hM⟩
  | @cons s s' s'' e es hs _ ih =>
    have hstep := Pool.step_holds hM hs.1 hs.2
    rw [List.filterMap_cons]
    cases hc : e.call with
    | none =>
      rw [hc] at hstep
      exact ih (by rw [show s'.table = s.table from hstep]; exact hM)
    | some c =>
      rw [hc] at hstep
      obtain ⟨M', ha, h'⟩ := Call.step_holds s.table M c s'.table hM hstep
      obtain ⟨M'', hr, h''⟩ := ih h'
      exact ⟨M'', .cons ha hr, h''⟩

/-- If every locked section finds the bucket of its key, each operation takes place on a map at its locked section; no
key is stored twice, and every index is within the array. -/
theorem hash_table_linearizable {ht : Bool} {R : Room} {n : UInt32} {s s' : Pool}
    (hc : hashTableCreate ht R n = .ok (some s.table)) {es : List Event}
    (h : Run (Guarded (Pool.Steady K) (Pool.Step K)) s es s') :
    (∃ M : K.Map, Run Call.Abstract (Keys.Map.empty K) (es.filterMap Event.call) M) ∧
      (s'.table.nodes.map fun n => K.cls n.key).Nodup ∧
      ∀ i p, s'.pending i = some p → p.index = s'.table.index K p.key →
        p.index.toNat < s'.table.buckets.length ∧
          ∀ R, ∃ r t', p.work.locked K R s'.table p.index p.key = .ok (r, t') := by
  obtain ⟨M, hr, hM⟩ := Pool.run_holds h (hashTableCreate_holds hc)
  refine ⟨⟨M, hr⟩, hM.content.distinct, fun i p _ hi => ⟨?_, fun R => ?_⟩⟩
  · obtain ⟨c, hb, -⟩ := hM.bucket p.key
    rw [hi]
    exact (List.getElem?_eq_some_iff.1 hb).1
  · obtain ⟨r, t', -, he, -⟩ := (p.work.op p.key).run_holds hM R
    rw [hi, Work.locked_eq]
    exact ⟨r, t', he⟩

end

/-! ## A table that grows under a lookup -/

namespace Sample

def plain : Keys where
  hash_func := fun key _ => UInt32.ofNat key
  key_equal := fun a b _ => a == b
  equal := ptr_equal
  agree := fun k k' _ h => by
    rw [beq_iff_eq] at h
    rw [h]

def idle : Pool := ⟨fresh, fun _ => none⟩

def store (p : Nat) : List Event :=
  [.start 0 (key p) (.insertIfAbsent (p + 1)), .finish 0 ⟨true, true⟩ (key p) (.insertIfAbsent (p + 1)) (.bool true)]

/-- Six keys are stored. Task 1 begins a lookup of the first, task 0 stores a seventh, for
which the table grows, and task 1 goes on: the key is in the same bucket of the larger table. -/
def overlapping : List Event :=
  [0, 1, 2, 3, 4, 5].flatMap store ++ [.start 1 (key 0) .lookup] ++ store 6 ++
    [.finish 1 ⟨true, true⟩ (key 0) .lookup (.pointer 1)]

theorem overlapping_linearizable : ∃ s, Run (Guarded (Pool.Steady plain) (Pool.Step plain)) idle overlapping s ∧
    s.table.buckets.length = 16 ∧
    (∃ M : plain.Map, Run Call.Abstract (Keys.Map.empty plain) (overlapping.filterMap Event.call) M) ∧
      (s.table.nodes.map fun n => plain.cls n.key).Nodup ∧
      ∀ i p, s.pending i = some p → p.index = s.table.index plain p.key →
        p.index.toNat < s.table.buckets.length ∧
          ∀ R, ∃ r t', p.work.locked plain R s.table p.index p.key = .ok (r, t') := by
  have h : (exec (fun s e => if s.Steady plain e then s.next plain e else none) idle overlapping).map
      (fun s => s.table.buckets.length) = some 16 := by decide
  obtain ⟨s, hs, hl⟩ := Option.map_eq_some_iff.1 h
  have hr := guarded_of_exec (fun _ _ _ h => h) hs
  exact ⟨s, hr, hl, hash_table_linearizable fresh_created hr⟩

/-- Six keys are stored, the pointer 8 first. Task 1 begins a lookup of that key, task 0
stores a seventh key, for which the table grows, and task 1 goes on. -/
def missed : List Event :=
  [7, 0, 1, 2, 3, 4].flatMap store ++ [.start 1 (key 7) .lookup] ++ store 5 ++
    [.finish 1 ⟨true, true⟩ (key 7) .lookup (.pointer 0)]

/-- The lookup does not find the key, which is stored before it begins and never removed. -/
theorem lookup_misses : hashTableCreate true ⟨true, true⟩ 5 = .ok (some idle.table) ∧
    ∃ s, Run (Pool.Step plain) idle missed s ∧ hashTableLookup plain s.table 8 1 = .ok 8 := by
  refine ⟨fresh_created, ?_⟩
  have h : (exec (Pool.next plain) idle missed).isSome = true := by decide
  obtain ⟨s, hs⟩ := Option.isSome_iff_exists.1 h
  refine ⟨s, run_of_exec (fun _ _ _ h => h) hs, ?_⟩
  have hl : (exec (Pool.next plain) idle missed).map (fun s => hashTableLookup plain s.table 8 1) = some (.ok 8) := by
    decide
  rw [hs] at hl
  exact Option.some.inj hl

end Sample

end Utils
