import Loeux.Lcc.Run
/-!
# Constants

`emit_li64` loads a number by its parts of 12 bits: the part above is loaded first, shifted,
and the low part is added. The processor takes a low part of 2048 or more for a negative
number, and nothing makes up for that in the part above.
-/

namespace Lcc

open Lib Rv64 List

/-- The words of a constant leave `x` in `rd` and change no other register, wherever they are. -/
def Loads (ws : List Nat) (rd : Nat) (x : Word) : Prop :=
  ∀ (I : Image) (p : Nat), I.LineAt p (.words ws) → ∀ m : Hart, m.pc = I.loc p →
    ∃ qs m', I.Runs p m qs (p + 4 * ws.length) m' ∧ m.Sets rd x m'

/-- The number is loaded by one instruction. -/
def Small (x : Int) : Prop := -2048 ≤ x ∧ x ≤ 2047

instance (x : Int) : Decidable (Small x) := inferInstanceAs (Decidable (_ ∧ _))

/-- Each part that is added is a number that the processor reads as it is. -/
def LiFits (x : Int) : Prop := ∀ i < 5, Small (x / 4096 ^ i) ∨ x / 4096 ^ i % 4096 < 2048

/-- The sum of what the processor takes off for the parts it reads as negative. -/
def liLoss : Nat → Int → Int
  | 0, _ => 0
  | k + 1, x => if Small x then 0 else 4096 * (liLoss k (x / 4096) + if x % 4096 < 2048 then 0 else 1)

/-! ## What is lost -/

theorem liLoss_bound (k : Nat) (x : Int) : 0 ≤ liLoss k x ∧ liLoss k x + 2 ≤ 2 * 4096 ^ k := by
  induction k generalizing x with
  | zero => exact ⟨le_refl _, le_refl _⟩
  | succ k ih =>
    have := ih (x / 4096)
    have hpow : (1 : Int) ≤ 4096 ^ k := one_le_pow₀ (by decide)
    rw [liLoss, pow_succ]
    split
    · omega
    · split <;> omega

theorem div_pow_succ (x : Int) (i : Nat) : x / 4096 ^ (i + 1) = x / 4096 / 4096 ^ i := by
  rw [pow_succ', Int.ediv_ediv_of_nonneg (by decide)]

theorem Small.div {x : Int} (h : Small x) (i : Nat) : Small (x / 4096 ^ i) := by
  induction i generalizing x with
  | zero => simpa using h
  | succ i ih =>
    rw [div_pow_succ]
    refine ih ?_
    obtain ⟨h1, h2⟩ := h
    exact ⟨by omega, by omega⟩

theorem liLoss_eq_zero (k : Nat) (x : Int) :
    liLoss k x = 0 ↔ ∀ i < k, Small (x / 4096 ^ i) ∨ x / 4096 ^ i % 4096 < 2048 := by
  induction k generalizing x with
  | zero => exact ⟨fun _ i hi => absurd hi (Nat.not_lt_zero i), fun _ => rfl⟩
  | succ k ih =>
    rw [liLoss]
    by_cases hs : Small x
    · rw [if_pos hs]
      exact ⟨fun _ i _ => .inl (hs.div i), fun _ => rfl⟩
    · rw [if_neg hs]
      have hb := (liLoss_bound k (x / 4096)).1
      constructor
      · intro h i hi
        cases i with
        | zero =>
          rw [pow_zero, Int.ediv_one]
          split at h <;> omega
        | succ i =>
          rw [div_pow_succ]
          exact (ih _).1 (by split at h <;> omega) i (by omega)
      · intro h
        have h0 := (h 0 (by omega)).resolve_left (by rwa [pow_zero, Int.ediv_one])
        rw [pow_zero, Int.ediv_one] at h0
        have hrest := (ih (x / 4096)).2 fun i hi => div_pow_succ x i ▸ h (i + 1) (by omega)
        rw [hrest, if_pos h0]
        rfl

/-- A number of `k` parts above the last has nothing to lose in that one. -/
theorem liLoss_enough (k : Nat) {x : Int} (hx : -2048 * 4096 ^ k ≤ x ∧ x < 2048 * 4096 ^ k) : liLoss (k + 1) x = liLoss k x := by
  induction k generalizing x with
  | zero => exact if_pos ⟨by omega, by omega⟩
  | succ k ih =>
    by_cases hs : Small x
    · exact (if_pos hs).trans (if_pos hs).symm
    · have hrec := @ih (x / 4096) (by rw [pow_succ] at hx; omega)
      rw [liLoss, hrec]
      rfl

theorem liFits_iff (x : Int) (hx : -2 ^ 63 ≤ x ∧ x < 2 ^ 63) : LiFits x ↔ liLoss 6 x = 0 := by
  rw [liLoss_eq_zero]
  refine ⟨fun h i hi => ?_, fun h i hi => h i (by omega)⟩
  rcases Nat.lt_succ_iff_lt_or_eq.1 hi with hi | rfl
  · exact h i hi
  · exact .inl ⟨by omega, by omega⟩

/-! ## What the words do -/

section
variable {rd : Nat}

theorem liWords_small (rd k : Nat) {x : Int} (h : Small x) : liWords rd (k + 1) x = [rvAddi rd 0 x] := by
  rw [liWords]
  exact if_pos h

theorem liWords_large (rd k : Nat) {x : Int} (h : ¬Small x) : liWords rd (k + 1) x =
    liWords rd k (x / 4096) ++ rvI 12 rd 1 rd 0x13 :: if x % 4096 ≠ 0 then [rvAddi rd rd (x % 4096)] else [] := by
  have hlo : x - x / 4096 * 4096 = x % 4096 := by omega
  rw [liWords, ← hlo]
  exact if_neg h

theorem liWords_length (rd k : Nat) (x : Int) : (liWords rd k x).length ≤ 2 * k := by
  induction k generalizing x with
  | zero => exact le_refl _
  | succ k ih =>
    by_cases h : Small x
    · rw [liWords_small rd k h, length_singleton]
      omega
    · have := ih (x / 4096)
      rw [liWords_large rd k h, length_append, length_cons]
      split
      · rw [length_singleton]
        omega
      · rw [length_nil]
        omega

theorem liWords_pos (rd k : Nat) (x : Int) : 0 < (liWords rd (k + 1) x).length := by
  by_cases h : Small x
  · rw [liWords_small rd k h]
    exact Nat.one_pos
  · rw [liWords_large rd k h, length_append, length_cons]
    omega

theorem decode_addi_low {lo : Int} (hd : rd < 32) (h : 0 ≤ lo ∧ lo < 4096) :
    decode (rvAddi rd rd lo) = some (.opImm .add rd rd (lo - if lo < 2048 then 0 else 4096)) := by
  split
  · rw [sub_zero]
    exact (decode_rvI hd hd (by omega) (by omega)).1
  · have hw : rvAddi rd rd lo = rvAddi rd rd (lo - 4096) := by
      unfold rvAddi
      rw [rvI_eq hd (by decide) hd (by decide), rvI_eq hd (by decide) hd (by decide)]
      unfold unsigned
      omega
    rw [hw]
    exact (decode_rvI hd hd (by omega) (by omega)).1

theorem sll_twelve (v : Int) : Alu.sll.eval (BitVec.ofInt 64 v) (BitVec.ofInt 64 12) = BitVec.ofInt 64 (v * 4096) := by
  have hpow : BitVec.twoPow 64 12 = BitVec.ofInt 64 4096 := by decide
  show BitVec.ofInt 64 v <<< 12 = _
  rw [BitVec.shiftLeft_eq_mul_twoPow, BitVec.ofInt_mul, hpow]

theorem li_exec (hd : rd < 32) (h0 : rd ≠ 0) (k : Nat) {x : Int} (hx : -2048 * 4096 ^ k ≤ x ∧ x < 2048 * 4096 ^ k) :
    ∃ is : List Instr, (liWords rd (k + 1) x).map decode = is.map some ∧ (∀ i ∈ is, i.isPlain) ∧
      ∀ m, ∃ m', execAll is m = some m' ∧ m.Sets rd (BitVec.ofInt 64 (x - liLoss (k + 1) x)) m' := by
  have hsmall : ∀ (k : Nat) (x : Int), Small x → ∃ is : List Instr, (liWords rd (k + 1) x).map decode = is.map some ∧
      (∀ i ∈ is, i.isPlain) ∧ ∀ m, ∃ m', execAll is m = some m' ∧ m.Sets rd (BitVec.ofInt 64 (x - liLoss (k + 1) x)) m' := by
    intro k x hs
    refine ⟨[.opImm .add rd 0 x], ?_, by simp [Instr.isPlain], fun m => ?_⟩
    · rw [liWords_small rd k hs, map_singleton, (decode_rvI (by decide) hd hs.1 (by have := hs.2; omega)).1]
      rfl
    · obtain ⟨m', he, hset⟩ := exec_opImm m .add h0 0 x
      refine ⟨m', by rw [execAll_cons he, execAll], ?_⟩
      rw [liLoss, if_pos hs, sub_zero]
      rwa [Hart.reg_zero, Alu.eval, show (0 : Word) + BitVec.ofInt 64 x = BitVec.ofInt 64 x from BitVec.zero_add _] at hset
  induction k generalizing x with
  | zero => exact hsmall 0 x ⟨by omega, by omega⟩
  | succ k ih =>
    by_cases hs : Small x
    · exact hsmall (k + 1) x hs
    obtain ⟨is, hdec, hplain, hexec⟩ := @ih (x / 4096) (by rw [pow_succ] at hx; omega)
    have hslli : decode (rvI 12 rd 1 rd 0x13) = some (.opImm .sll rd rd 12) := @decode_slli rd rd 12 hd hd (by decide)
    refine ⟨is ++ .opImm .sll rd rd 12 :: (if x % 4096 ≠ 0 then
      [.opImm .add rd rd (x % 4096 - if x % 4096 < 2048 then 0 else 4096)] else []), ?_, ?_, fun m => ?_⟩
    · rw [liWords_large rd (k + 1) hs, map_append, map_append, hdec, map_cons, map_cons, hslli]
      by_cases hz : x % 4096 ≠ 0
      · rw [if_pos hz, if_pos hz, map_singleton, decode_addi_low hd ⟨by omega, by omega⟩]
        rfl
      · rw [if_neg hz, if_neg hz]
        rfl
    · intro i hi
      rcases mem_append.1 hi with hi | hi
      · exact hplain i hi
      · rcases mem_cons.1 hi with rfl | hi
        · rfl
        · split at hi
          · obtain rfl := mem_singleton.1 hi
            rfl
          · cases hi
    · obtain ⟨m1, he1, hs1⟩ := hexec m
      obtain ⟨m2, he2, hs2⟩ := exec_opImm m1 .sll h0 rd 12
      rw [hs1.own, sll_twelve] at hs2
      have hval : x - liLoss (k + 1 + 1) x = (x / 4096 - liLoss (k + 1) (x / 4096)) * 4096 +
          (x % 4096 - if x % 4096 < 2048 then 0 else 4096) := by
        rw [liLoss, if_neg hs]
        split <;> omega
      rw [execAll_append, he1, Option.bind_some, execAll_cons he2, hval]
      by_cases hz : x % 4096 ≠ 0
      · obtain ⟨m3, he3, hs3⟩ := exec_opImm m2 .add h0 rd (x % 4096 - if x % 4096 < 2048 then 0 else 4096)
        rw [hs2.own, Alu.eval, ← BitVec.ofInt_add] at hs3
        exact ⟨m3, by rw [if_pos hz, execAll_cons he3, execAll], (hs1.trans hs2).trans hs3⟩
      · refine ⟨m2, by rw [if_neg hz, execAll], ?_⟩
        rw [not_not.1 hz, if_pos (by decide), sub_zero, add_zero]
        exact hs1.trans hs2

theorem long64_bound (bits : Nat) : -2 ^ 63 ≤ long64 bits ∧ long64 bits < 2 ^ 63 := by
  unfold long64
  have := Nat.mod_lt bits (show 0 < 2 ^ 64 by decide)
  split <;> omega

theorem liWords_enough (rd : Nat) (k j : Nat) {x : Int} (hx : -2048 * 4096 ^ k ≤ x ∧ x < 2048 * 4096 ^ k) :
    liWords rd (k + 1 + j) x = liWords rd (k + 1) x := by
  induction k generalizing x with
  | zero =>
    have hs : Small x := ⟨by omega, by omega⟩
    rw [show 0 + 1 + j = j + 1 by omega, liWords_small rd j hs, liWords_small rd 0 hs]
  | succ k ih =>
    rw [show k + 1 + 1 + j = k + 1 + j + 1 by omega]
    by_cases hs : Small x
    · rw [liWords_small rd _ hs, liWords_small rd _ hs]
    · rw [liWords_large rd _ hs, liWords_large rd _ hs, ih (by rw [pow_succ] at hx; omega)]

end

def Image.ofWords (ws : List Nat) : Image :=
  { code := fun a => ws[a.toNat / 4]?, base := 0, off := fun _ => none, address := fun _ => 0 }

theorem Image.ofWords_at {ws : List Nat} (hlen : 4 * ws.length ≤ 2 ^ 64) : (Image.ofWords ws).LineAt 0 (.words ws) := by
  intro i w hw
  have hi := (List.getElem?_eq_some_iff.1 hw).1
  show ws[(0#64 + BitVec.ofNat 64 (0 + 4 * i)).toNat / 4]? = some w
  rw [BitVec.zero_add, BitVec.toNat_ofNat, Nat.mod_eq_of_lt (by omega), Nat.zero_add, Nat.mul_div_cancel_left i (by decide)]
  exact hw

theorem ofInt_long64 (bits : Nat) : BitVec.ofInt 64 (long64 bits) = BitVec.ofNat 64 bits := by
  rw [← BitVec.toNat_inj, BitVec.toNat_ofInt, BitVec.toNat_ofNat]
  unfold long64
  split <;> omega

theorem long64_parts (bits : Nat) : -2048 * 4096 ^ 5 ≤ long64 bits ∧ long64 bits < 2048 * 4096 ^ 5 := by
  have := long64_bound bits
  omega

theorem loads_of_loss {rd : Nat} (hd : rd < 32) (h0 : rd ≠ 0) {bits : Nat} (hloss : liLoss 6 (long64 bits) = 0) :
    Loads (liWords rd 6 (long64 bits)) rd (BitVec.ofNat 64 bits) := by
  intro I p hat m hm
  obtain ⟨is, hdec, hplain, hexec⟩ := li_exec hd h0 5 (long64_parts bits)
  obtain ⟨m', he, hset⟩ := hexec m
  obtain ⟨qs, hruns⟩ := Image.Runs.words hat hdec hplain hm he
  rw [hloss, sub_zero, ofInt_long64] at hset
  exact ⟨qs, m', hruns, hset⟩

theorem loss_of_loads {rd : Nat} (hd : rd < 32) (h0 : rd ≠ 0) {bits : Nat}
    (h : Loads (liWords rd 6 (long64 bits)) rd (BitVec.ofNat 64 bits)) : liLoss 6 (long64 bits) = 0 := by
  obtain ⟨is, hdec, hplain, hexec⟩ := li_exec hd h0 5 (long64_parts bits)
  have hlen := liWords_length rd 6 (long64 bits)
  have hat := @Image.ofWords_at (liWords rd 6 (long64 bits)) (by omega)
  obtain ⟨m, hm⟩ : ∃ m : Hart, m.pc = (Image.ofWords (liWords rd 6 (long64 bits))).loc 0 := ⟨⟨_, fun _ => 0, fun _ => 0⟩, rfl⟩
  obtain ⟨qs, m1, hruns, hset⟩ := h _ 0 hat m hm
  obtain ⟨m2, he, hset'⟩ := hexec m
  obtain ⟨qs', hruns'⟩ := Image.Runs.words hat hdec hplain hm he
  obtain ⟨-, rfl⟩ := hruns.unique hruns' (by omega)
  have heq : (long64 bits - (long64 bits - liLoss 6 (long64 bits))) % 2 ^ 64 = 0 :=
    (ofInt_eq_iff _ _).1 ((ofInt_long64 bits).trans (hset.own.symm.trans hset'.own))
  have hbound := liLoss_bound 5 (long64 bits)
  have hfive : liLoss 6 (long64 bits) = liLoss 5 (long64 bits) := liLoss_enough 5 (long64_parts bits)
  omega

/-- The sequence for a constant is complete after six rounds, and it loads the constant if and only
if each part that it adds is below 2048. -/
theorem li_loads_iff (rd : Nat) (hd : rd < 32) (h0 : rd ≠ 0) (bits : Nat) :
    (∀ j, liWords rd (6 + j) (long64 bits) = liWords rd 6 (long64 bits)) ∧
      (Loads (liWords rd 6 (long64 bits)) rd (BitVec.ofNat 64 bits) ↔ LiFits (long64 bits)) := by
  refine ⟨fun j => liWords_enough rd 5 j (long64_parts bits), ?_⟩
  rw [liFits_iff _ (long64_bound bits)]
  exact ⟨loss_of_loads hd h0, loads_of_loss hd h0⟩

theorem li_loads_5000 : LiFits (long64 5000) ∧ Loads (liWords 10 6 (long64 5000)) 10 (BitVec.ofNat 64 5000) := by
  have hfits : LiFits (long64 5000) := by
    unfold LiFits
    decide
  exact ⟨hfits, (li_loads_iff 10 (by decide) (by decide) 5000).2.2 hfits⟩

/-- 2048 is loaded as -2048. -/
theorem li_2048_lost : ¬Loads (liWords 10 6 (long64 2048)) 10 (BitVec.ofNat 64 2048) := by
  intro h
  have := loss_of_loads (by decide) (by decide) h
  revert this
  decide

end Lcc
