import Loeux.Lib.Rv64
/-!
# Instruction words

The encoders of the compiler, bit by bit as it builds the words, and what the machine
decodes from them.
-/

namespace Lcc

open Lib Rv64

/-- The cast of an `int` to `unsigned`. -/
def unsigned (x : Int) : Nat := (x % 2 ^ 32).toNat

def rvR (funct7 rs2 rs1 funct3 rd opcode : Nat) : Nat :=
  (funct7 <<< 25 ||| rs2 <<< 20 ||| rs1 <<< 15 ||| funct3 <<< 12 ||| rd <<< 7 ||| opcode) % 2 ^ 32

def rvI (imm : Int) (rs1 funct3 rd opcode : Nat) : Nat :=
  ((unsigned imm &&& 0xfff) <<< 20 ||| rs1 <<< 15 ||| funct3 <<< 12 ||| rd <<< 7 ||| opcode) % 2 ^ 32

def rvS (imm : Int) (rs2 rs1 funct3 : Nat) : Nat :=
  let x := unsigned imm
  ((x >>> 5 &&& 0x7f) <<< 25 ||| rs2 <<< 20 ||| rs1 <<< 15 ||| funct3 <<< 12 ||| (x &&& 0x1f) <<< 7 ||| 0x23) % 2 ^ 32

def rvB (imm : Int) (rs2 rs1 funct3 : Nat) : Nat :=
  let x := unsigned imm
  ((x >>> 12 &&& 1) <<< 31 ||| (x >>> 5 &&& 0x3f) <<< 25 ||| rs2 <<< 20 ||| rs1 <<< 15 ||| funct3 <<< 12 |||
    (x >>> 1 &&& 0xf) <<< 8 ||| (x >>> 11 &&& 1) <<< 7 ||| 0x63) % 2 ^ 32

def rvU (imm20 : Int) (rd opcode : Nat) : Nat := (unsigned imm20 &&& 0xfffff000 ||| rd <<< 7 ||| opcode) % 2 ^ 32

def rvJ (imm : Int) (rd : Nat) : Nat :=
  let x := unsigned imm
  ((x >>> 20 &&& 1) <<< 31 ||| (x >>> 1 &&& 0x3ff) <<< 21 ||| (x >>> 11 &&& 1) <<< 20 ||| (x >>> 12 &&& 0xff) <<< 12 |||
    rd <<< 7 ||| 0x6f) % 2 ^ 32

def rvAddi (rd rs1 : Nat) (imm : Int) : Nat := rvI imm rs1 0 rd 0x13

def rvLd (rd rs1 : Nat) (imm : Int) : Nat := rvI imm rs1 3 rd 0x03

def rvLw (rd rs1 : Nat) (imm : Int) : Nat := rvI imm rs1 2 rd 0x03

def rvLb (rd rs1 : Nat) (imm : Int) : Nat := rvI imm rs1 0 rd 0x03

def rvSd (rs2 rs1 : Nat) (imm : Int) : Nat := rvS imm rs2 rs1 3

def rvSw (rs2 rs1 : Nat) (imm : Int) : Nat := rvS imm rs2 rs1 2

def rvSb (rs2 rs1 : Nat) (imm : Int) : Nat := rvS imm rs2 rs1 0

/-! ## Words as sums of their fields -/

theorem shl_or {a b k : Nat} (h : b < 2 ^ k) : a <<< k ||| b = a * 2 ^ k + b := by
  rw [← Nat.shiftLeft_add_eq_or_of_lt h, Nat.shiftLeft_eq]

theorem and_mask (x : Nat) (k : Nat) {m : Nat} (hm : m = 2 ^ k - 1) : x &&& m = x % 2 ^ k := by
  rw [hm, Nat.and_two_pow_sub_one_eq_mod]

theorem and_shifted (x k n : Nat) {m : Nat} (hm : m = (2 ^ n - 1) <<< k) : x &&& m = (x / 2 ^ k % 2 ^ n) <<< k := by
  rw [hm]
  refine Nat.eq_of_testBit_eq fun i => ?_
  simp only [Nat.testBit_and, Nat.testBit_shiftLeft, Nat.testBit_two_pow_sub_one, Nat.testBit_mod_two_pow,
    Nat.testBit_div_two_pow]
  by_cases hi : k ≤ i
  · rw [Nat.sub_add_cancel hi]
    simp [hi, Bool.and_comm]
  · simp [hi]

theorem unsigned_lt (x : Int) : unsigned x < 2 ^ 32 := by
  unfold unsigned
  omega

section
variable {funct7 rs2 rs1 funct3 rd opcode : Nat} {imm : Int}

theorem rvR_eq (h7 : funct7 < 128) (h2 : rs2 < 32) (h1 : rs1 < 32) (h3 : funct3 < 8) (hd : rd < 32) (ho : opcode < 128) :
    rvR funct7 rs2 rs1 funct3 rd opcode =
      funct7 * 2 ^ 25 + (rs2 * 2 ^ 20 + (rs1 * 2 ^ 15 + (funct3 * 2 ^ 12 + (rd * 2 ^ 7 + opcode)))) := by
  unfold rvR
  simp only [Nat.lor_assoc]
  rw [shl_or (a := rd) (by omega), shl_or (a := funct3) (by omega), shl_or (a := rs1) (by omega),
    shl_or (a := rs2) (by omega), shl_or (a := funct7) (by omega)]
  omega

theorem rvI_eq (h1 : rs1 < 32) (h3 : funct3 < 8) (hd : rd < 32) (ho : opcode < 128) : rvI imm rs1 funct3 rd opcode =
      unsigned imm % 2 ^ 12 * 2 ^ 20 + (rs1 * 2 ^ 15 + (funct3 * 2 ^ 12 + (rd * 2 ^ 7 + opcode))) := by
  unfold rvI
  rw [and_mask _ 12 (m := 0xfff) rfl]
  simp only [Nat.lor_assoc]
  rw [shl_or (a := rd) (by omega), shl_or (a := funct3) (by omega), shl_or (a := rs1) (by omega), shl_or (by omega)]
  omega

theorem rvS_eq (h2 : rs2 < 32) (h1 : rs1 < 32) (h3 : funct3 < 8) :
    rvS imm rs2 rs1 funct3 = unsigned imm / 2 ^ 5 % 2 ^ 7 * 2 ^ 25 +
      (rs2 * 2 ^ 20 + (rs1 * 2 ^ 15 + (funct3 * 2 ^ 12 + (unsigned imm % 2 ^ 5 * 2 ^ 7 + 0x23)))) := by
  unfold rvS
  dsimp only
  rw [and_mask _ 7 (m := 0x7f) rfl, and_mask _ 5 (m := 0x1f) rfl, Nat.shiftRight_eq_div_pow]
  simp only [Nat.lor_assoc]
  rw [shl_or (a := unsigned imm % 2 ^ 5) (by omega), shl_or (a := funct3) (by omega), shl_or (a := rs1) (by omega),
    shl_or (a := rs2) (by omega), shl_or (by omega)]
  omega

theorem rvB_eq (h2 : rs2 < 32) (h1 : rs1 < 32) (h3 : funct3 < 8) :
    rvB imm rs2 rs1 funct3 = unsigned imm / 2 ^ 12 % 2 * 2 ^ 31 + (unsigned imm / 2 ^ 5 % 2 ^ 6 * 2 ^ 25 +
      (rs2 * 2 ^ 20 + (rs1 * 2 ^ 15 + (funct3 * 2 ^ 12 + (unsigned imm / 2 % 2 ^ 4 * 2 ^ 8 +
        (unsigned imm / 2 ^ 11 % 2 * 2 ^ 7 + 0x63)))))) := by
  unfold rvB
  dsimp only
  rw [and_mask _ 6 (m := 0x3f) rfl, and_mask _ 4 (m := 0xf) rfl]
  simp only [Nat.and_one_is_mod, Nat.lor_assoc, Nat.shiftRight_eq_div_pow, pow_one]
  rw [shl_or (a := unsigned imm / 2 ^ 11 % 2) (by omega), shl_or (k := 8) (by omega), shl_or (a := funct3) (by omega),
    shl_or (a := rs1) (by omega), shl_or (a := rs2) (by omega), shl_or (k := 25) (by omega), shl_or (by omega)]
  omega

theorem rvJ_eq (hd : rd < 32) : rvJ imm rd = unsigned imm / 2 ^ 20 % 2 * 2 ^ 31 + (unsigned imm / 2 % 2 ^ 10 * 2 ^ 21 +
      (unsigned imm / 2 ^ 11 % 2 * 2 ^ 20 + (unsigned imm / 2 ^ 12 % 2 ^ 8 * 2 ^ 12 + (rd * 2 ^ 7 + 0x6f)))) := by
  unfold rvJ
  dsimp only
  rw [and_mask _ 10 (m := 0x3ff) rfl, and_mask _ 8 (m := 0xff) rfl]
  simp only [Nat.and_one_is_mod, Nat.lor_assoc, Nat.shiftRight_eq_div_pow, pow_one]
  rw [shl_or (a := rd) (by omega), shl_or (k := 12) (by omega), shl_or (k := 20) (by omega), shl_or (k := 21) (by omega),
    shl_or (by omega)]
  omega

theorem rvU_eq (hd : rd < 32) (ho : opcode < 128) :
    rvU imm rd opcode = unsigned imm / 2 ^ 12 * 2 ^ 12 + (rd * 2 ^ 7 + opcode) := by
  unfold rvU
  rw [and_shifted _ 12 20 (m := 0xfffff000) rfl]
  simp only [Nat.lor_assoc]
  rw [shl_or (a := rd) (by omega), shl_or (by omega)]
  have h := unsigned_lt imm
  omega

end

/-! ## Decoding -/

section
variable {funct7 rs2 rs1 funct3 rd opcode : Nat} {imm : Int}

theorem immI_rvI (h1 : rs1 < 32) (h3 : funct3 < 8) (hd : rd < 32) (ho : opcode < 128) (hl : -2048 ≤ imm)
    (hu : imm < 2048) : immI (rvI imm rs1 funct3 rd opcode) = imm := by
  rw [rvI_eq h1 h3 hd ho]
  unfold immI sext bits unsigned
  omega

theorem rvI_fields (h1 : rs1 < 32) (h3 : funct3 < 8) (hd : rd < 32) (ho : opcode < 128) :
    bits (rvI imm rs1 funct3 rd opcode) 0 7 = opcode ∧ bits (rvI imm rs1 funct3 rd opcode) 7 5 = rd ∧
      bits (rvI imm rs1 funct3 rd opcode) 12 3 = funct3 ∧ bits (rvI imm rs1 funct3 rd opcode) 15 5 = rs1 := by
  rw [rvI_eq h1 h3 hd ho]
  unfold bits
  omega

theorem fieldsS {w i j : Nat} (hi : i < 128) (h2 : rs2 < 32) (h1 : rs1 < 32) (h3 : funct3 < 8) (hj : j < 32)
    (ho : opcode < 128)
    (hw : w = i * 2 ^ 25 + (rs2 * 2 ^ 20 + (rs1 * 2 ^ 15 + (funct3 * 2 ^ 12 + (j * 2 ^ 7 + opcode))))) :
    bits w 0 7 = opcode ∧ bits w 7 5 = j ∧ bits w 12 3 = funct3 ∧ bits w 15 5 = rs1 ∧ bits w 20 5 = rs2 ∧
      bits w 25 7 = i := by
  subst hw
  unfold bits
  refine ⟨?_, ?_, ?_, ?_, ?_, ?_⟩ <;> omega

theorem fieldsB {w i j k l : Nat} (hi : i < 2) (hj : j < 64) (h2 : rs2 < 32) (h1 : rs1 < 32) (h3 : funct3 < 8)
    (hk : k < 16) (hl : l < 2) (ho : opcode < 128)
    (hw : w = i * 2 ^ 31 + (j * 2 ^ 25 + (rs2 * 2 ^ 20 + (rs1 * 2 ^ 15 + (funct3 * 2 ^ 12 + (k * 2 ^ 8 +
      (l * 2 ^ 7 + opcode))))))) :
    bits w 0 7 = opcode ∧ bits w 7 1 = l ∧ bits w 8 4 = k ∧ bits w 12 3 = funct3 ∧ bits w 15 5 = rs1 ∧
      bits w 20 5 = rs2 ∧ bits w 25 6 = j ∧ bits w 31 1 = i := by
  subst hw
  unfold bits
  refine ⟨?_, ?_, ?_, ?_, ?_, ?_, ?_, ?_⟩ <;> omega

theorem fieldsJ {w i j k l : Nat} (hi : i < 2) (hj : j < 1024) (hk : k < 2) (hl : l < 256) (hd : rd < 32)
    (ho : opcode < 128)
    (hw : w = i * 2 ^ 31 + (j * 2 ^ 21 + (k * 2 ^ 20 + (l * 2 ^ 12 + (rd * 2 ^ 7 + opcode))))) :
    bits w 0 7 = opcode ∧ bits w 7 5 = rd ∧ bits w 12 8 = l ∧ bits w 20 1 = k ∧ bits w 21 10 = j ∧ bits w 31 1 = i := by
  subst hw
  unfold bits
  refine ⟨?_, ?_, ?_, ?_, ?_, ?_⟩ <;> omega

theorem chunksB (u : Nat) : u / 2 ^ 12 % 2 * 2 ^ 12 + u / 2 ^ 11 % 2 * 2 ^ 11 + u / 2 ^ 5 % 64 * 2 ^ 5 +
    u / 2 % 16 * 2 = u % 2 ^ 13 / 2 * 2 := by
  omega

theorem chunksJ (u : Nat) : u / 2 ^ 20 % 2 * 2 ^ 20 + u / 2 ^ 12 % 256 * 2 ^ 12 + u / 2 ^ 11 % 2 * 2 ^ 11 +
    u / 2 % 1024 * 2 = u % 2 ^ 21 / 2 * 2 := by
  omega

theorem chunksS (u : Nat) : u / 2 ^ 5 % 128 * 2 ^ 5 + u % 32 = u % 2 ^ 12 := by
  omega

theorem rvS_fields (h2 : rs2 < 32) (h1 : rs1 < 32) (h3 : funct3 < 8) (hl : -2048 ≤ imm) (hu : imm < 2048) :
    bits (rvS imm rs2 rs1 funct3) 0 7 = 0x23 ∧ bits (rvS imm rs2 rs1 funct3) 12 3 = funct3 ∧
      bits (rvS imm rs2 rs1 funct3) 15 5 = rs1 ∧ bits (rvS imm rs2 rs1 funct3) 20 5 = rs2 ∧
      immS (rvS imm rs2 rs1 funct3) = imm := by
  obtain ⟨e1, e2, e3, e4, e5, e6⟩ := fieldsS (Nat.mod_lt _ (by decide)) h2 h1 h3 (Nat.mod_lt _ (by decide)) (by decide)
    (@rvS_eq rs2 rs1 funct3 imm h2 h1 h3)
  refine ⟨e1, e3, e4, e5, ?_⟩
  rw [immS, e6, e2, chunksS]
  unfold sext unsigned
  omega

/-- What is read back of an offset from the `n` bits of a branch or jump. -/
def cutOff (n : Nat) (d : Int) : Int := sext n (unsigned d % 2 ^ n / 2 * 2)

theorem cutOff_eq_iff {n : Nat} (hn : n = 13 ∨ n = 21) (d : Int) :
    cutOff n d = d ↔ -2 ^ (n - 1) ≤ d ∧ d < 2 ^ (n - 1) ∧ d % 2 = 0 := by
  unfold cutOff sext unsigned
  rcases hn with rfl | rfl <;> omega

theorem rvB_fields (h2 : rs2 < 32) (h1 : rs1 < 32) (h3 : funct3 < 8) :
    bits (rvB imm rs2 rs1 funct3) 0 7 = 0x63 ∧ bits (rvB imm rs2 rs1 funct3) 12 3 = funct3 ∧
      bits (rvB imm rs2 rs1 funct3) 15 5 = rs1 ∧ bits (rvB imm rs2 rs1 funct3) 20 5 = rs2 ∧
      immB (rvB imm rs2 rs1 funct3) = cutOff 13 imm := by
  obtain ⟨e1, e2, e3, e4, e5, e6, e7, e8⟩ := fieldsB (Nat.mod_lt _ (by decide)) (Nat.mod_lt _ (by decide)) h2 h1 h3
    (Nat.mod_lt _ (by decide)) (Nat.mod_lt _ (by decide)) (by decide) (@rvB_eq rs2 rs1 funct3 imm h2 h1 h3)
  refine ⟨e1, e4, e5, e6, ?_⟩
  rw [immB, e8, e2, e7, e3, chunksB, cutOff]

theorem rvJ_fields (hd : rd < 32) :
    bits (rvJ imm rd) 0 7 = 0x6f ∧ bits (rvJ imm rd) 7 5 = rd ∧ immJ (rvJ imm rd) = cutOff 21 imm := by
  obtain ⟨e1, e2, e3, e4, e5, e6⟩ := fieldsJ (Nat.mod_lt _ (by decide)) (Nat.mod_lt _ (by decide))
    (Nat.mod_lt _ (by decide)) (Nat.mod_lt _ (by decide)) hd (by decide) (@rvJ_eq rd imm hd)
  refine ⟨e1, e2, ?_⟩
  rw [immJ, e6, e3, e4, e5, chunksJ, cutOff]

theorem rvR_fields (h7 : funct7 < 128) (h2 : rs2 < 32) (h1 : rs1 < 32) (h3 : funct3 < 8) (hd : rd < 32) :
    bits (rvR funct7 rs2 rs1 funct3 rd 0x33) 0 7 = 0x33 ∧ bits (rvR funct7 rs2 rs1 funct3 rd 0x33) 7 5 = rd ∧
      bits (rvR funct7 rs2 rs1 funct3 rd 0x33) 12 3 = funct3 ∧ bits (rvR funct7 rs2 rs1 funct3 rd 0x33) 15 5 = rs1 ∧
      bits (rvR funct7 rs2 rs1 funct3 rd 0x33) 20 5 = rs2 ∧ bits (rvR funct7 rs2 rs1 funct3 rd 0x33) 25 7 = funct7 :=
  fieldsS h7 h2 h1 h3 hd (by decide) (rvR_eq h7 h2 h1 h3 hd (by decide))

theorem decode_rvR (h7 : funct7 < 128) (h2 : rs2 < 32) (h1 : rs1 < 32) (h3 : funct3 < 8) (hd : rd < 32) :
    decode (rvR funct7 rs2 rs1 funct3 rd 0x33) = (decodeOp funct7 funct3).map fun o => .op o rd rs1 rs2 := by
  obtain ⟨e1, e2, e3, e4, e5, e6⟩ := rvR_fields h7 h2 h1 h3 hd
  simp only [decode, e1, e2, e3, e4, e5, e6]

theorem decode_rvI (h1 : rs1 < 32) (hd : rd < 32) (hl : -2048 ≤ imm) (hu : imm < 2048) :
    decode (rvAddi rd rs1 imm) = some (.opImm .add rd rs1 imm) ∧
      decode (rvLd rd rs1 imm) = some (.load .double rd rs1 imm) ∧
      decode (rvLw rd rs1 imm) = some (.load .word rd rs1 imm) ∧
      decode (rvLb rd rs1 imm) = some (.load .byte rd rs1 imm) ∧
      decode (rvI imm rs1 3 rd 0x13) = some (.opImm .sltu rd rs1 imm) ∧
      decode (rvI imm rs1 4 rd 0x13) = some (.opImm .xor rd rs1 imm) ∧
      decode (rvI imm rs1 0 rd 0x67) = some (.jalr rd rs1 imm) := by
  have key : ∀ funct3 opcode, funct3 < 8 → opcode < 128 → _ := fun funct3 opcode h3 ho =>
    And.intro (@rvI_fields rs1 funct3 rd opcode imm h1 h3 hd ho) (immI_rvI h1 h3 hd ho hl hu)
  simp only [rvAddi, rvLd, rvLw, rvLb, decode, key 0 0x13 (by decide) (by decide), key 3 0x13 (by decide) (by decide),
    key 4 0x13 (by decide) (by decide), key 0 0x03 (by decide) (by decide), key 2 0x03 (by decide) (by decide),
    key 3 0x03 (by decide) (by decide), key 0 0x67 (by decide) (by decide), and_self]

theorem decode_slli {sh : Nat} (h1 : rs1 < 32) (hd : rd < 32) (hs : sh < 64) :
    decode (rvI sh rs1 1 rd 0x13) = some (.opImm .sll rd rs1 sh) := by
  obtain ⟨e1, e2, e3, e4⟩ := @rvI_fields rs1 1 rd 0x13 sh h1 (by decide) hd (by decide)
  have e5 : bits (rvI sh rs1 1 rd 0x13) 26 6 = 0 ∧ bits (rvI sh rs1 1 rd 0x13) 20 6 = sh := by
    rw [rvI_eq h1 (by decide) hd (by decide)]
    unfold bits unsigned
    omega
  simp only [decode, e1, e2, e3, e4, e5, if_true]

theorem decode_rvS (h2 : rs2 < 32) (h1 : rs1 < 32) (hl : -2048 ≤ imm) (hu : imm < 2048) :
    decode (rvSd rs2 rs1 imm) = some (.store .double rs2 rs1 imm) ∧
      decode (rvSw rs2 rs1 imm) = some (.store .word rs2 rs1 imm) ∧
      decode (rvSb rs2 rs1 imm) = some (.store .byte rs2 rs1 imm) := by
  have key : ∀ funct3, funct3 < 8 → _ := fun funct3 h3 => @rvS_fields rs2 rs1 funct3 imm h2 h1 h3 hl hu
  simp only [rvSd, rvSw, rvSb, decode, key 3 (by decide), key 2 (by decide), key 0 (by decide), and_self]

theorem decode_rvB (h2 : rs2 < 32) (h1 : rs1 < 32) : decode (rvB imm rs2 rs1 0) = some (.beq rs1 rs2 (cutOff 13 imm)) ∧
    decode (rvB imm rs2 rs1 1) = some (.bne rs1 rs2 (cutOff 13 imm)) := by
  have key : ∀ funct3, funct3 < 8 → _ := fun funct3 h3 => @rvB_fields rs2 rs1 funct3 imm h2 h1 h3
  simp only [decode, key 0 (by decide), key 1 (by decide), and_self]

theorem decode_rvJ (hd : rd < 32) : decode (rvJ imm rd) = some (.jal rd (cutOff 21 imm)) := by
  simp only [decode, rvJ_fields hd]

end

end Lcc
