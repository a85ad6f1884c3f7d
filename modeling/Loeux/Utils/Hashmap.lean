import Loeux.Lib.Buckets
import Loeux.Mm.Memory
/-!
# Hash tables

`utils/hashmap.c`: chained buckets that grow and shrink with the number of entries.
An operation computes the index of its bucket from the size of the table before it
takes the lock; the functions named `...Locked` are what it does from there on,
with the index that it has.
-/

namespace Mm

def SLAB_SIZE_4096 : Nat := 4096

def SLAB_SIZE_8 : Nat := 8

def slabRoundUp (size : Nat) : Nat :=
  if size = 0 ∨ SLAB_SIZE_4096 < size then 0
  else if size ≤ SLAB_SIZE_8 then SLAB_SIZE_8
  else
    let size := size - 1
    let size := size ||| size >>> 1
    let size := size ||| size >>> 2
    let size := size ||| size >>> 4
    let size := size ||| size >>> 8
    let size := size ||| size >>> 16
    size + 1

end Mm

namespace Utils

open Lib Mm

structure Key where
  ptr : Nat
  len : UInt32
  ptr_ne : ptr ≠ 0
  len_ne : len ≠ 0
deriving DecidableEq

def Key.mk? (key : Nat) (key_len : UInt32) : Option Key :=
  if h : key ≠ 0 ∧ key_len ≠ 0 then some ⟨key, key_len, h.1, h.2⟩ else none

/-- The functions of a table. They agree: the comparison is an equality of keys, and
equal keys have equal hashes. -/
structure Keys where
  hash_func : Nat → UInt32 → UInt32
  key_equal : Nat → Nat → UInt32 → Bool
  equal : Equivalence fun k k' : Key => k.len = k'.len ∧ key_equal k.ptr k'.ptr k'.len = true
  agree : ∀ k k' : Key, k.len = k'.len → key_equal k.ptr k'.ptr k'.len = true →
    hash_func k.ptr k.len = hash_func k'.ptr k'.len

namespace Keys

def hash (K : Keys) (k : Key) : UInt32 := K.hash_func k.ptr k.len

def setoid (K : Keys) : Setoid Key := ⟨_, K.equal⟩

end Keys

/-! ## The built-in functions -/

def defaultHashFunc (mem : Nat → UInt8) (key : Nat) (len : UInt32) : UInt32 :=
  (List.range len.toNat).foldl (fun hash i => (hash ^^^ (mem (key + i)).toUInt32) * 16777619) 2166136261

def defaultKeyEqual (mem : Nat → UInt8) (key1 key2 : Nat) (len : UInt32) : Bool :=
  if key1 = key2 then true
  else if key1 = 0 ∨ key2 = 0 then false
  else (List.range len.toNat).all fun i => mem (key1 + i) == mem (key2 + i)

theorem defaultKeyEqual_iff {mem : Nat → UInt8} {k k' : Key} {n : UInt32} :
    defaultKeyEqual mem k.ptr k'.ptr n = true ↔ ∀ i < n.toNat, mem (k.ptr + i) = mem (k'.ptr + i) := by
  unfold defaultKeyEqual
  by_cases e : k.ptr = k'.ptr
  · simp [e]
  · simp [e, k.ptr_ne, k'.ptr_ne]

/-- The built-in functions agree, whatever the bytes of the keys are. -/
def Keys.default (mem : Nat → UInt8) : Keys where
  hash_func := defaultHashFunc mem
  key_equal := defaultKeyEqual mem
  equal := by
    simp only [defaultKeyEqual_iff]
    refine ⟨fun k => ⟨rfl, fun _ _ => rfl⟩, fun h => ⟨h.1.symm, ?_⟩, fun h h' => ⟨h.1.trans h'.1, ?_⟩⟩
    · intro i hi
      exact (h.2 i (h.1 ▸ hi)).symm
    · intro i hi
      exact (h.2 i (h'.1 ▸ hi)).trans (h'.2 i hi)
  agree := by
    intro k k' hl he
    rw [defaultKeyEqual_iff] at he
    unfold defaultHashFunc
    rw [hl]
    refine List.foldl_ext _ _ _ fun a i hi => ?_
    rw [he i (List.mem_range.1 hi)]

/-! ## Tables -/

structure Node where
  key : Key
  value : Nat
  hash : UInt32
deriving DecidableEq

structure Table where
  buckets : List (List Node)
  size : UInt32
  count : UInt32
deriving DecidableEq

def HASH_TABLE_LOAD_FACTOR : UInt32 := 75

def HASH_TABLE_MIN_SIZE : UInt32 := 8

/-- What `slab_alloc` says to the requests of one call, within its own limits: for an
array of buckets, and for a node. -/
structure Room where
  array : Bool
  node : Bool
deriving DecidableEq

/-- `slab_alloc` takes the number of bytes as 32 bits. -/
def granted (ok : Bool) (bytes : Nat) : Bool := ok && slabRoundUp (bytes % 2 ^ 32) != 0

def doubled (n : UInt32) : Nat → UInt32 → Except Halt UInt32
  | 0, p => if p < n then .error .endless else .ok p
  | k + 1, p => if p < n then doubled n k (p <<< 1) else .ok p

def roundUpPow2 (n : UInt32) : Except Halt UInt32 := doubled n 32 HASH_TABLE_MIN_SIZE

/-- `ht` is what `slab_alloc` says to the request for the table itself. -/
def hashTableCreate (ht : Bool) (R : Room) (initial_size : UInt32) : Except Halt (Option Table) := do
  let initial_size := if initial_size < HASH_TABLE_MIN_SIZE then HASH_TABLE_MIN_SIZE else initial_size
  let initial_size ← roundUpPow2 initial_size
  if granted ht 48 = false then pure none
  else if granted R.array (8 * initial_size.toNat) = false then pure none
  else pure (some ⟨List.replicate initial_size.toNat [], initial_size, 0⟩)

def hashTableResize (R : Room) (t : Table) (new_size : UInt32) : Except Halt (Bool × Table) := do
  let new_size ← roundUpPow2 new_size
  if new_size < HASH_TABLE_MIN_SIZE then pure (false, t)
  else if granted R.array (8 * new_size.toNat) = false then pure (false, t)
  else pure (true, { t with
    buckets := Buckets.spread (·.hash.toNat) new_size.toNat t.buckets
    size := new_size })

namespace Table

def bucket (t : Table) (index : UInt32) : Except Halt (List Node) :=
  match t.buckets[index.toNat]? with
  | some c => .ok c
  | none => .error .stray

def setBucket (t : Table) (index : UInt32) (c : List Node) : Table := { t with buckets := t.buckets.set index.toNat c }

end Table

section

variable (K : Keys)

def Node.holds (hash : UInt32) (k : Key) (n : Node) : Bool :=
  n.hash == hash && n.key.len == k.len && K.key_equal n.key.ptr k.ptr k.len

def Table.index (t : Table) (k : Key) : UInt32 := K.hash k % t.size

/-- Store a value in the first entry that fits. -/
def overwritten (p : Node → Bool) (value : Nat) : List Node → List Node
  | [] => []
  | n :: c => if p n then { n with value := value } :: c else n :: overwritten p value c

/-- A new entry in front of a chain. -/
def linkLocked (R : Room) (t : Table) (index : UInt32) (k : Key) (value : Nat) : Except Halt (Bool × Table) :=
  if granted R.node 32 = false then pure (false, t)
  else do
    let c ← t.bucket index
    pure (true, { t.setBucket index (⟨k, value, K.hash k⟩ :: c) with count := t.count + 1 })

/-- A new entry for a key that is not there. The table may grow before; then the index
is computed again. -/
def addLocked (R : Room) (t : Table) (index : UInt32) (k : Key) (value : Nat) : Except Halt (Bool × Table) :=
  if (t.count + 1) * 100 / t.size > HASH_TABLE_LOAD_FACTOR then do
    let (_, t) ← hashTableResize R t (t.size * 2)
    linkLocked K R t (t.index K k) k value
  else linkLocked K R t index k value

def hashTableInsertLocked (R : Room) (t : Table) (index : UInt32) (k : Key) (value : Nat) (overwrite : Bool) :
    Except Halt (Bool × Table) := do
  let c ← t.bucket index
  if c.any (Node.holds K (K.hash k) k) then
    if overwrite then pure (true, t.setBucket index (overwritten (Node.holds K (K.hash k) k) value c))
    else pure (false, t)
  else addLocked K R t index k value

def hashTableInsertIfAbsentLocked (R : Room) (t : Table) (index : UInt32) (k : Key) (value : Nat) :
    Except Halt (Bool × Table) := do
  let c ← t.bucket index
  if c.any (Node.holds K (K.hash k) k) then pure (false, t)
  else addLocked K R t index k value

def hashTableLookupLocked (t : Table) (index : UInt32) (k : Key) : Except Halt Nat := do
  let c ← t.bucket index
  match c.find? (Node.holds K (K.hash k) k) with
  | some n => pure n.value
  | none => pure 0

def hashTableDeleteLocked (R : Room) (t : Table) (index : UInt32) (k : Key) : Except Halt (Bool × Table) := do
  let c ← t.bucket index
  if c.any (Node.holds K (K.hash k) k) then do
    let t := { t.setBucket index (c.eraseP (Node.holds K (K.hash k) k)) with count := t.count - 1 }
    if t.size > HASH_TABLE_MIN_SIZE ∧ t.count * 100 / t.size < HASH_TABLE_LOAD_FACTOR / 2 then do
      let (_, t) ← hashTableResize R t (t.size / 2)
      pure (true, t)
    else pure (true, t)
  else pure (false, t)

/-! ## Operations -/

def hashTableInsert (R : Room) (t : Table) (key : Nat) (key_len : UInt32) (value : Nat) (overwrite : Bool) :
    Except Halt (Bool × Table) :=
  match Key.mk? key key_len with
  | none => pure (false, t)
  | some k => hashTableInsertLocked K R t (t.index K k) k value overwrite

def hashTableInsertIfAbsent (R : Room) (t : Table) (key : Nat) (key_len : UInt32) (value : Nat) :
    Except Halt (Bool × Table) :=
  match Key.mk? key key_len with
  | none => pure (false, t)
  | some k => hashTableInsertIfAbsentLocked K R t (t.index K k) k value

def hashTableLookup (t : Table) (key : Nat) (key_len : UInt32) : Except Halt Nat :=
  match Key.mk? key key_len with
  | none => pure 0
  | some k => hashTableLookupLocked K t (t.index K k) k

def hashTableDelete (R : Room) (t : Table) (key : Nat) (key_len : UInt32) : Except Halt (Bool × Table) :=
  match Key.mk? key key_len with
  | none => pure (false, t)
  | some k => hashTableDeleteLocked K R t (t.index K k) k

def hashTableCount (t : Table) : UInt32 := t.count

/-- What the callback is called with, in order: key, length and value. -/
def hashTableForeach (t : Table) : List (Key × Nat) := t.buckets.flatMap fun c => c.map fun n => (n.key, n.value)

end

end Utils
