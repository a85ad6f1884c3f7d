import Loeux.Lib.Bytes
/-!
# Memory primitives

`memmove`, `memcpy` and `memset` work on eight bytes at a time where they can.
A word is read as a whole before it is written.
-/

open Lib Bytes

namespace MemOps

/-! ## The functions of the source -/

/-- `while (n >= k)`: copy `k` bytes and step on. -/
def forth (k n d s : Nat) (m : Bytes) : Nat × Nat × Nat × Bytes :=
  if 0 < k ∧ k ≤ n then forth k (n - k) (d + k) (s + k) (put k d (get k s m) m) else (n, d, s, m)
termination_by n

/-- The same downwards from the ends. -/
def back (k n ed es : Nat) (m : Bytes) : Nat × Nat × Nat × Bytes :=
  if 0 < k ∧ k ≤ n then back k (n - k) (ed - k) (es - k) (put k (ed - k) (get k (es - k) m) m) else (n, ed, es, m)
termination_by n

def aligned (a b : Nat) : Bool := (a ||| b) &&& 7 = 0

def memmove (dst src n : Nat) (m : Bytes) : Bytes :=
  if n = 0 ∨ dst = src then m
  else if src < dst ∧ dst < src + n then
    let x := if aligned (src + n) (dst + n) then back 8 n (dst + n) (src + n) m else (n, dst + n, src + n, m)
    (back 1 x.1 x.2.1 x.2.2.1 x.2.2.2).2.2.2
  else
    let x := if aligned src dst then forth 8 n dst src m else (n, dst, src, m)
    (forth 1 x.1 x.2.1 x.2.2.1 x.2.2.2).2.2.2

def memcpy (dest src num : Nat) (m : Bytes) : Bytes :=
  -- the source counts up: `i + 8 <= num` is `8 <= n` for the `n` bytes that are left
  let x := if aligned src dest then forth 8 num dest src m else (num, dest, src, m)
  (forth 1 x.1 x.2.1 x.2.2.1 x.2.2.2).2.2.2

/-- The bytes up to an aligned address. -/
def head (p : Nat) (v : UInt8) (num i : Nat) (m : Bytes) : Nat × Bytes :=
  if i < num ∧ (p + i) &&& 7 ≠ 0 then head p v num (i + 1) (put 1 (p + i) v.toNat m) else (i, m)
termination_by num - i

/-- Store `w` as `k` bytes, `cnt` times. -/
def stores (k w : Nat) : (cnt p : Nat) → Bytes → Nat × Bytes
  | 0, p, m => (p, m)
  | cnt + 1, p, m => stores k w cnt (p + k) (put k p w m)

def memset (ptr : Nat) (value : Int) (num : Nat) (m : Bytes) : Bytes :=
  let v := UInt8.ofInt value
  let x := head ptr v num 0 m
  let y := if x.1 + 8 ≤ num then
      let w := stores 8 (v.toNat * 0x0101010101010101) ((num - x.1) / 8) (ptr + x.1) x.2
      (w.1 - ptr, w.2)
    else x
  (stores 1 v.toNat (num - y.1) (ptr + y.1) y.2).2

/-! ## Copies -/

/-- The bytes from `d + a` up to `d + b` are those that `m` has from `s + a` on. -/
def moved (a b d s : Nat) (m : Bytes) : Bytes := fun i => if d + a ≤ i ∧ i < d + b then m (s + (i - d)) else m i

variable {a b c d k n p s : Nat} {m : Bytes} {v : UInt8}

theorem byte_get {i : Nat} (h : i < n) : UInt8.ofNat (get n s m / 256 ^ i) = m (s + i) := by
  induction n generalizing s i with
  | zero => omega
  | succ n ih =>
    have hlt := (m s).toNat_lt
    cases i with
    | zero =>
      refine UInt8.toNat_inj.1 ?_
      rw [Bytes.get, UInt8.toNat_ofNat', pow_zero, Nat.div_one, show s + 0 = s from rfl]
      omega
    | succ i =>
      rw [Bytes.get, Nat.pow_succ', ← Nat.div_div_eq_div_mul, show ((m s).toNat + 256 * get n (s + 1) m) / 256 = get n (s + 1) m by omega,
        ih (by omega), Nat.add_right_comm, Nat.add_assoc]

theorem put_get : put k d (get k s m) m = moved 0 k d s m := by
  funext i
  unfold put moved
  rw [Nat.add_zero]
  split_ifs with h
  · exact byte_get (by omega)
  · rfl

theorem moved_forth (h : d ≤ s ∨ s + (c + k) ≤ d) : moved 0 k (d + c) (s + c) (moved 0 c d s m) = moved 0 (c + k) d s m := by
  funext i
  unfold moved
  grind

theorem moved_back (h : s ≤ d) (hk : k ≤ a) (hb : a ≤ b) :
    moved 0 k (d + (a - k)) (s + (a - k)) (moved a b d s m) = moved (a - k) b d s m := by
  funext i
  unfold moved
  grind

theorem forth_spec (hk : 0 < k) (h : d ≤ s ∨ s + (c + n) ≤ d) : ∃ r < k, r ≤ n ∧ forth k n (d + c) (s + c) (moved 0 c d s m) =
    (r, d + (c + n - r), s + (c + n - r), moved 0 (c + n - r) d s m) := by
  induction n using Nat.strong_induction_on generalizing c with
  | _ n ih =>
    rw [forth]
    split_ifs with hn
    -- `c` bytes are done, and what is read next was not written yet
    · obtain ⟨r, hr, hrn, he⟩ := @ih (n - k) (by omega) (c + k) (by omega)
      refine ⟨r, hr, by omega, ?_⟩
      rw [put_get, moved_forth (by omega), Nat.add_assoc, Nat.add_assoc, he, show c + k + (n - k) - r = c + n - r by omega]
    · exact ⟨n, by omega, le_rfl, by rw [Nat.add_sub_cancel]⟩

theorem back_spec (hk : 0 < k) (h : s ≤ d) (hb : n ≤ b) : ∃ r < k, r ≤ n ∧ back k n (d + n) (s + n) (moved n b d s m) =
    (r, d + r, s + r, moved r b d s m) := by
  induction n using Nat.strong_induction_on with
  | _ n ih =>
    rw [back]
    split_ifs with hn
    -- done from `n` on; the words below are read where nothing was written
    · obtain ⟨r, hr, hrn, he⟩ := @ih (n - k) (by omega) (by omega)
      refine ⟨r, hr, by omega, ?_⟩
      rw [put_get, show d + n - k = d + (n - k) by omega, show s + n - k = s + (n - k) by omega, moved_back h hn.2 hb, he]
    · exact ⟨n, by omega, le_rfl, rfl⟩

theorem moved_empty : moved a a d s m = m := by
  funext i
  unfold moved
  rw [if_neg (by omega)]

/-- Words as far as they go, and then bytes. -/
theorem forth_all (h : d ≤ s ∨ s + n ≤ d) (w : Bool) (x : Nat × Nat × Nat × Bytes)
    (hx : x = if w then forth 8 n d s m else (n, d, s, m)) :
    (forth 1 x.1 x.2.1 x.2.2.1 x.2.2.2).2.2.2 = moved 0 n d s m := by
  obtain ⟨r, hr, hx⟩ : ∃ r ≤ n, x = (r, d + (n - r), s + (n - r), moved 0 (n - r) d s m) := by
    cases w with
    | false => exact ⟨n, le_rfl, by simp [hx, moved_empty]⟩
    | true =>
      obtain ⟨r, -, hr, he⟩ := @forth_spec 0 d 8 n s m (by decide) (by omega)
      rw [moved_empty] at he
      exact ⟨r, hr, hx.trans (by simpa using he)⟩
  obtain ⟨r', hr', -, he⟩ := @forth_spec (n - r) d 1 r s m (by decide) (by omega)
  rw [hx, he, show n - r + r - r' = n by omega]

theorem back_all (h : s ≤ d) (w : Bool) (x : Nat × Nat × Nat × Bytes)
    (hx : x = if w then back 8 n (d + n) (s + n) m else (n, d + n, s + n, m)) :
    (back 1 x.1 x.2.1 x.2.2.1 x.2.2.2).2.2.2 = moved 0 n d s m := by
  obtain ⟨r, hr, hx⟩ : ∃ r ≤ n, x = (r, d + r, s + r, moved r n d s m) := by
    cases w with
    | false => exact ⟨n, le_rfl, by simp [hx, moved_empty]⟩
    | true =>
      obtain ⟨r, -, hr, he⟩ := @back_spec n d 8 n s m (by decide) h le_rfl
      rw [moved_empty] at he
      exact ⟨r, hr, hx.trans (by simpa using he)⟩
  obtain ⟨r', hr', -, he⟩ := @back_spec n d 1 r s m (by decide) h hr
  rw [hx, he, show r' = 0 by omega]

/-! ## Fills -/

def filled (c p : Nat) (v : UInt8) (m : Bytes) : Bytes := fun i => if p ≤ i ∧ i < p + c then v else m i

theorem put_word : put 8 p (v.toNat * 0x0101010101010101) m = filled 8 p v m := by
  funext i
  unfold put filled
  split_ifs with h
  -- the product has the byte in all eight places
  · have hbyte : ∀ (x : Fin 256) (j : Fin 8), x.val * 0x0101010101010101 / 256 ^ j.val % 256 = x.val := by decide +kernel
    refine UInt8.toNat_inj.1 ?_
    rw [UInt8.toNat_ofNat']
    exact hbyte ⟨v.toNat, v.toNat_lt⟩ ⟨i - p, by omega⟩
  · rfl

theorem put_byte : put 1 p v.toNat m = filled 1 p v m := by
  funext i
  unfold put filled
  split_ifs with h
  · rw [show i - p = 0 by omega]
    simp
  · rfl

theorem filled_filled : filled k (p + c) v (filled c p v m) = filled (c + k) p v m := by
  funext i
  unfold filled
  grind

theorem head_spec {num i : Nat} (hi : i ≤ num) : ∃ j ≤ num, head p v num i (filled i p v m) = (j, filled j p v m) := by
  induction hn : num - i generalizing i with
  | zero =>
    rw [head, if_neg (by omega)]
    exact ⟨i, hi, rfl⟩
  | succ n ih =>
    rw [head]
    split_ifs with h
    · rw [put_byte, filled_filled]
      exact ih (by omega) (by omega)
    · exact ⟨i, hi, rfl⟩

theorem stores_spec {w : Nat} (hw : ∀ p m, put k p w m = filled k p v m) (cnt : Nat) :
    stores k w cnt (p + c) (filled c p v m) = (p + (c + cnt * k), filled (c + cnt * k) p v m) := by
  induction cnt generalizing c with
  | zero => simp [stores]
  | succ cnt ih =>
    rw [stores, hw, filled_filled, Nat.add_assoc, ih, Nat.succ_mul, Nat.add_assoc, Nat.add_comm k]

theorem memset_eq (value : Int) : memset p value n m = filled n p (UInt8.ofInt value) m := by
  have hz : filled 0 p (UInt8.ofInt value) m = m := by
    funext i
    unfold filled
    rw [if_neg (by omega)]
  obtain ⟨j, hj, hhead⟩ := @head_spec p m (UInt8.ofInt value) n 0 (Nat.zero_le n)
  rw [hz] at hhead
  have htail : ∀ c ≤ n, (stores 1 (UInt8.ofInt value).toNat (n - c) (p + c) (filled c p (UInt8.ofInt value) m)).2 =
      filled n p (UInt8.ofInt value) m := by
    intro c hc
    rw [stores_spec fun _ _ => put_byte, Nat.mul_one, Nat.add_sub_cancel' hc]
  unfold memset
  simp only [hhead]
  split_ifs with h8
  · rw [stores_spec fun _ _ => put_word]
    simp only [Nat.add_sub_cancel_left]
    exact htail _ (by omega)
  · exact htail j hj

theorem primitives_exact (d s n : Nat) (value : Int) (m : Bytes) : memmove d s n m = moved 0 n d s m ∧
    (d + n ≤ s ∨ s + n ≤ d → memcpy d s n m = moved 0 n d s m) ∧
    memset d value n m = filled n d (UInt8.ofInt value) m := by
  refine ⟨?_, fun h => forth_all (by omega) _ _ rfl, memset_eq value⟩
  unfold memmove
  by_cases h0 : n = 0 ∨ d = s
  · rw [if_pos h0]
    funext i
    unfold moved
    grind
  · rw [if_neg h0]
    -- outside of this overlap it is safe to go upwards
    by_cases hov : s < d ∧ d < s + n
    · rw [if_pos hov]
      exact back_all (by omega) _ _ rfl
    · rw [if_neg hov]
      exact forth_all (by omega) _ _ rfl

theorem disjoint_copied : (0 + 16 ≤ 32 ∨ 32 + 16 ≤ 0) ∧ memcpy 0 32 16 UInt8.ofNat 3 = 35 ∧
    memmove 9 8 16 UInt8.ofNat 24 = 23 := by
  obtain ⟨-, h, -⟩ := primitives_exact 0 32 16 0 UInt8.ofNat
  obtain ⟨h', -⟩ := primitives_exact 9 8 16 0 UInt8.ofNat
  rw [h (by decide), h']
  decide

end MemOps
