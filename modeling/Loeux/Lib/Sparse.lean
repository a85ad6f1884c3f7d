import Mathlib.Data.List.Basic
/-!
# Sparse byte arrays

A byte array with a size; bytes at and beyond the size have values too, which an
array that grows without being written shows.
-/

namespace Lib

structure Sparse where
  size : Nat
  data : Nat → UInt8

namespace Sparse

/-- Store `count` bytes of `buf` at `pos`. -/
def write (a : Sparse) (pos : Nat) (buf : Nat → UInt8) (count : Nat) : Sparse where
  size := max a.size (pos + count)
  data off := if pos ≤ off ∧ off < pos + count then buf (off - pos) else a.data off

def resize (a : Sparse) (size : Nat) : Sparse where
  size := size
  data off := if off < size then a.data off else 0

/-- The bytes from `pos` on, at most `count`. -/
def read (a : Sparse) (pos count : Nat) : List UInt8 :=
  (List.range (min count (a.size - pos))).map fun j => a.data (pos + j)

/-- All bytes beyond the size are zero. -/
def Clear (a : Sparse) : Prop := ∀ off, a.size ≤ off → a.data off = 0

theorem clear_resize (a : Sparse) (size : Nat) : (a.resize size).Clear := fun _ h => if_neg (Nat.not_lt.2 h)

theorem Clear.write {a : Sparse} (h : a.Clear) (pos : Nat) (buf : Nat → UInt8) (count : Nat) :
    (a.write pos buf count).Clear := by
  intro off hoff
  have hoff : max a.size (pos + count) ≤ off := hoff
  show (if pos ≤ off ∧ off < pos + count then buf (off - pos) else a.data off) = 0
  rw [if_neg (by omega)]
  exact h off (by omega)

end Sparse

end Lib
