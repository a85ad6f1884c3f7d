import Mathlib.Data.Nat.Bitwise
import Mathlib.Tactic.Ring
import Mathlib.Tactic.IntervalCases
/-!
# Byte buffers

A buffer is a function from offsets to bytes. Little-endian fields, copies and
single bits are read and written in place; what a write leaves alone is read
back as before.
-/

open Function Nat

namespace Lib

/-- The bytes of a buffer, by offset. -/
abbrev Bytes := Nat → UInt8

namespace Bytes

/-- All bytes zero. -/
def zero : Bytes := fun _ => 0

def get : (n o : Nat) → Bytes → Nat
  | 0, _, _ => 0
  | n + 1, o, b => (b o).toNat + 256 * get n (o + 1) b

/-- Store the low `n` bytes of `v` from `o` on. -/
def put (n o v : Nat) (b : Bytes) : Bytes := fun i =>
  if o ≤ i ∧ i < o + n then UInt8.ofNat (v / 256 ^ (i - o)) else b i

/-- Copy `n` bytes of `src` to offset `o` of `b`. -/
def copy (n o : Nat) (b src : Bytes) : Bytes := fun i =>
  if o ≤ i ∧ i < o + n then src (i - o) else b i

def slice (n o : Nat) (b : Bytes) : Bytes := fun i => if i < n then b (o + i) else 0

attribute [local simp] get put copy slice

theorem get_congr {n o : Nat} {b b' : Bytes} (h : ∀ i, o ≤ i → i < o + n → b i = b' i) : get n o b = get n o b' := by
  induction n generalizing o with
  | zero => rfl
  | succ n ih =>
    simp only [get]
    rw [h o (by omega) (by omega), ih (fun i h1 h2 => h i (by omega) (by omega))]

theorem get_lt (n o : Nat) (b : Bytes) : get n o b < 256 ^ n := by
  induction n generalizing o with
  | zero => simp
  | succ n ih =>
    have h1 := ih (o + 1)
    have h2 := (b o).toNat_lt
    simp only [get, pow_succ]
    omega

theorem get_zero (n o : Nat) : get n o zero = 0 := by
  induction n generalizing o with
  | zero => rfl
  | succ n ih => simp only [get, ih]; rfl

theorem put_of_ne {n o v i : Nat} (b : Bytes) (h : i < o ∨ o + n ≤ i) : put n o v b i = b i := by
  simp only [put]
  rw [if_neg (by omega)]

theorem get_put_of_disjoint {n o m p : Nat} (v : Nat) (b : Bytes) (h : o + n ≤ p ∨ p + m ≤ o) :
    get n o (put m p v b) = get n o b :=
  get_congr (fun _ _ _ => put_of_ne b (by omega))

private theorem get_shift (n o v : Nat) (b : Bytes) (hb : ∀ i, i < n → b (o + i) = UInt8.ofNat (v / 256 ^ i)) :
    get n o b = v % 256 ^ n := by
  induction n generalizing o v with
  | zero => simp [mod_one]
  | succ n ih =>
    have h0 := hb 0 (by omega)
    simp only [Nat.add_zero, pow_zero, Nat.div_one] at h0
    have hs : ∀ i, i < n → b (o + 1 + i) = UInt8.ofNat (v / 256 / 256 ^ i) := by
      intro i hi
      have := hb (i + 1) (by omega)
      rw [show o + 1 + i = o + (i + 1) by ring, this, pow_succ, mul_comm, Nat.div_div_eq_div_mul]
    simp only [get, ih (o + 1) (v / 256) hs, h0, pow_succ]
    rw [mul_comm (256 ^ n) 256, mod_mul]
    simp

theorem get_put (n o v : Nat) (b : Bytes) : get n o (put n o v b) = v % 256 ^ n := by
  apply get_shift
  intro i hi
  simp only [put]
  rw [if_pos (by omega), show o + i - o = i by omega]

theorem copy_of_ne {n o i : Nat} (src b : Bytes) (h : i < o ∨ o + n ≤ i) : copy n o b src i = b i := by
  simp only [copy]
  rw [if_neg (by omega)]

theorem get_copy_of_disjoint {n o m p : Nat} (src b : Bytes) (h : o + n ≤ p ∨ p + m ≤ o) :
    get n o (copy m p b src) = get n o b :=
  get_congr (fun _ _ _ => copy_of_ne src b (by omega))

theorem slice_copy (n o : Nat) (src b : Bytes) : slice n o (copy n o b src) = slice n 0 src := by
  funext i
  by_cases hi : i < n
  · simp [hi]
  · simp [hi]

theorem slice_copy_of_disjoint {n o m p : Nat} (src b : Bytes) (h : o + n ≤ p ∨ p + m ≤ o) :
    slice n o (copy m p b src) = slice n o b := by
  funext i
  simp only [slice]
  split
  · exact copy_of_ne src b (by omega)
  · rfl

theorem get_slice {n o m p : Nat} (b : Bytes) (h : o + n ≤ m) : get n o (slice m p b) = get n (p + o) b := by
  induction n generalizing o with
  | zero => rfl
  | succ n ih =>
    simp only [get]
    rw [ih (by omega), show p + (o + 1) = p + o + 1 by ring]
    simp [show o < m by omega]

/-! ## Bits -/

/-- Bit `i` of a bitmap. -/
def bit (b : Bytes) (i : Nat) : Bool := b (i / 8) &&& (1 <<< UInt8.ofNat (i % 8)) != 0

/-- Set bit `i`. -/
def setBit (b : Bytes) (i : Nat) : Bytes :=
  Function.update b (i / 8) (b (i / 8) ||| (1 <<< UInt8.ofNat (i % 8)))

/-- Clear bit `i`. -/
def clearBit (b : Bytes) (i : Nat) : Bytes :=
  Function.update b (i / 8) (b (i / 8) &&& ~~~(1 <<< UInt8.ofNat (i % 8)))

theorem mask_toNat {k : Nat} (hk : k < 8) : ((1 : UInt8) <<< UInt8.ofNat k).toNat = 2 ^ k := by
  interval_cases k <;> rfl

theorem ne_zero_toNat (x : UInt8) : (x != 0) = decide (x.toNat ≠ 0) := by
  by_cases hx : x = 0
  · subst hx; rfl
  · have : x.toNat ≠ 0 := fun h => hx (UInt8.toNat_inj.1 h)
    simp [hx, this]

theorem bit_eq (b : Bytes) (i : Nat) : bit b i = (b (i / 8)).toNat.testBit (i % 8) := by
  have hk : i % 8 < 8 := mod_lt _ (by omega)
  rw [bit, ne_zero_toNat, UInt8.toNat_and, mask_toNat hk, and_two_pow]
  cases (b (i / 8)).toNat.testBit (i % 8) <;> simp

theorem bit_setBit (b : Bytes) (i j : Nat) : bit (setBit b i) j = if j = i then true else bit b j := by
  have hk : i % 8 < 8 := mod_lt _ (by omega)
  rw [bit_eq, bit_eq, setBit]
  by_cases hb : j / 8 = i / 8
  · have hij : i % 8 = j % 8 ↔ j = i := by omega
    rw [hb, update_self, UInt8.toNat_or, mask_toNat hk, testBit_or, testBit_two_pow]
    by_cases h : j = i <;> simp [h, hij]
  · have hij : j ≠ i := by rintro rfl; exact hb rfl
    rw [update_of_ne hb, if_neg hij]

theorem bit_clearBit (b : Bytes) (i j : Nat) : bit (clearBit b i) j = if j = i then false else bit b j := by
  have hk : i % 8 < 8 := mod_lt _ (by omega)
  have hj : j % 8 < 8 := mod_lt _ (by omega)
  have hmask : ∀ k l, k < 8 → l < 8 → (~~~((1 : UInt8) <<< UInt8.ofNat k)).toNat.testBit l = !decide (k = l) := by
    intro k l h1 h2
    interval_cases k <;> interval_cases l <;> rfl
  rw [bit_eq, bit_eq, clearBit]
  by_cases hb : j / 8 = i / 8
  · have hij : i % 8 = j % 8 ↔ j = i := by omega
    rw [hb, update_self, UInt8.toNat_and, testBit_and, hmask _ _ hk hj]
    by_cases h : j = i <;> simp [h, hij]
  · have hij : j ≠ i := by rintro rfl; exact hb rfl
    rw [update_of_ne hb, if_neg hij]

end Bytes

end Lib
