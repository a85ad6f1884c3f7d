import Loeux.Lib.Rv64
import Mathlib.Data.Nat.Bitwise
/-!
# Scattered bits

A value is put into a word in chunks, each at a place of its own, around the bits of the
word that are kept. A window of the word is then a window of the value if each of its bits
comes from one bit, and putting a second value in leaves nothing of the first.
-/

namespace Lib

open Rv64

/-- `len` bits of a value from `lo` on, at `pos` in the word. -/
structure Chunk where
  lo : Nat
  len : Nat
  pos : Nat

namespace Chunk

variable {keep : Nat} {cs : List Chunk} {x u : Nat}

def scatter (cs : List Chunk) (u : Nat) (w : Nat) : Nat :=
  cs.foldl (fun w c => w ||| (u >>> c.lo &&& (2 ^ c.len - 1)) <<< c.pos) w

def put (keep : Nat) (cs : List Chunk) (x u : Nat) : Nat := scatter cs u (x &&& keep)

/-- The bits of the value that are put at bit `j`. -/
def sources (cs : List Chunk) (j : Nat) : List Nat :=
  cs.filterMap fun c => if c.pos ≤ j ∧ j < c.pos + c.len then some (c.lo + (j - c.pos)) else none

theorem testBit_scatter (w j : Nat) : (scatter cs u w).testBit j = (w.testBit j || (sources cs j).any u.testBit) := by
  induction cs generalizing w with
  | nil => simp [scatter, sources]
  | cons c cs ih =>
    have hcons : scatter (c :: cs) u w = scatter cs u (w ||| (u >>> c.lo &&& (2 ^ c.len - 1)) <<< c.pos) := rfl
    rw [hcons, ih, Nat.testBit_or, Nat.testBit_shiftLeft, Nat.testBit_and, Nat.testBit_shiftRight,
      Nat.testBit_two_pow_sub_one, Bool.or_assoc]
    congr 1
    by_cases h : c.pos ≤ j ∧ j < c.pos + c.len
    · have hlen : j - c.pos < c.len := by omega
      simp [sources, h, hlen]
    · have hout : ¬(c.pos ≤ j ∧ j - c.pos < c.len) := by omega
      simp only [sources, List.filterMap_cons, if_neg h]
      by_cases hpos : c.pos ≤ j
      · simp [hpos, show ¬j - c.pos < c.len by omega]
      · simp [hpos]

theorem bits_put (pos n lo : Nat) (h : ∀ i < n, keep.testBit (pos + i) = false ∧ sources cs (pos + i) = [lo + i]) :
    bits (put keep cs x u) pos n = bits u lo n := by
  refine Nat.eq_of_testBit_eq fun i => ?_
  simp only [bits, Nat.testBit_mod_two_pow, Nat.testBit_div_two_pow, put, testBit_scatter, Nat.testBit_and]
  by_cases hi : i < n
  · simp [h i hi, Nat.add_comm]
  · simp [hi]

theorem put_rest (h : ∀ c ∈ cs, (2 ^ c.len - 1) <<< c.pos &&& keep = 0) (x u : Nat) : put keep cs x u &&& keep = x &&& keep := by
  have hscatter : ∀ w, scatter cs u w &&& keep = w &&& keep := by
    induction cs with
    | nil => exact fun _ => rfl
    | cons c cs ih =>
      intro w
      rw [scatter, List.foldl_cons, ← scatter, ih fun d hd => h d (List.mem_cons_of_mem c hd), Nat.and_or_distrib_right,
        Nat.shiftLeft_and_distrib, Nat.and_assoc, h c List.mem_cons_self, Nat.and_zero, Nat.or_zero]
  rw [put, hscatter, Nat.and_assoc, Nat.and_self]

theorem put_put (h : ∀ c ∈ cs, (2 ^ c.len - 1) <<< c.pos &&& keep = 0) (x u v : Nat) :
    put keep cs (put keep cs x u) v = put keep cs x v := by
  rw [put, put_rest h, put]

theorem put_lt {n : Nat} (hk : keep < 2 ^ n) (hc : ∀ c ∈ cs, c.pos + c.len ≤ n) : put keep cs x u < 2 ^ n := by
  refine Nat.lt_pow_two_of_testBit _ fun j hj => ?_
  have hsources : sources cs j = [] := List.filterMap_eq_nil_iff.2 fun c h => if_neg (by have := hc c h; omega)
  rw [put, testBit_scatter, hsources, Nat.testBit_and, Nat.testBit_lt_two_pow (hk.trans_le (Nat.pow_le_pow_right (by decide) hj))]
  simp

/-! ## Windows next to each other -/

theorem bits_zero (u n : Nat) : bits u 0 n = u % 2 ^ n := by
  rw [bits, pow_zero, Nat.div_one]

theorem bits_one (u n : Nat) : bits u 1 n * 2 = u % 2 ^ (1 + n) / 2 * 2 := by
  rw [bits, pow_one, Nat.pow_add, pow_one, Nat.mod_mul_right_div_self]

theorem bits_join_zero (u k n : Nat) : bits u k n * 2 ^ k + u % 2 ^ k = u % 2 ^ (k + n) := by
  rw [bits, Nat.pow_add, Nat.mod_mul, Nat.add_comm, Nat.mul_comm]

theorem bits_join {k : Nat} (hk : 0 < k) (u n : Nat) :
    bits u k n * 2 ^ k + u % 2 ^ k / 2 * 2 = u % 2 ^ (k + n) / 2 * 2 := by
  obtain ⟨k, rfl⟩ := Nat.exists_eq_add_one.2 hk
  rw [← bits_join_zero u (k + 1) n, pow_succ, ← Nat.mul_assoc]
  generalize bits u (k + 1) n * 2 ^ k = a, u % (2 ^ k * 2) = b
  omega

end Chunk

end Lib
