import Loeux.Lcc.Reloc
/-!
# Instruction formats

The encoders put every field where the machine reads it, and the patch functions replace
the immediate and nothing else.
-/

namespace Lcc

open Lib Rv64

/-- The fields that an encoder takes. -/
structure Operands where
  funct7 : Fin 128
  rs2 : Fin 32
  rs1 : Fin 32
  funct3 : Fin 8
  rd : Fin 32
  opcode : Fin 128
  imm : Int

inductive Encoder
  | r | i | s | b | u | j

namespace Encoder

def encode (a : Operands) : Encoder → Nat
  | r => rvR a.funct7 a.rs2 a.rs1 a.funct3 a.rd a.opcode
  | i => rvI a.imm a.rs1 a.funct3 a.rd a.opcode
  | s => rvS a.imm a.rs2 a.rs1 a.funct3
  | b => rvB a.imm a.rs2 a.rs1 a.funct3
  | u => rvU a.imm a.rd a.opcode
  | j => rvJ a.imm a.rd

def fields (w : Nat) : Encoder → List Int
  | r => [bits w 0 7, bits w 7 5, bits w 12 3, bits w 15 5, bits w 20 5, bits w 25 7]
  | i => [bits w 0 7, bits w 7 5, bits w 12 3, bits w 15 5, immI w]
  | s => [bits w 0 7, bits w 12 3, bits w 15 5, bits w 20 5, immS w]
  | b => [bits w 0 7, bits w 12 3, bits w 15 5, bits w 20 5, immB w]
  | u => [bits w 0 7, bits w 7 5, immU w]
  | j => [bits w 0 7, bits w 7 5, immJ w]

def given (a : Operands) : Encoder → List Int
  | r => [a.opcode, a.rd, a.funct3, a.rs1, a.rs2, a.funct7]
  | i => [a.opcode, a.rd, a.funct3, a.rs1, a.imm]
  | s => [0x23, a.funct3, a.rs1, a.rs2, a.imm]
  | b => [0x63, a.funct3, a.rs1, a.rs2, a.imm]
  | u => [a.opcode, a.rd, a.imm]
  | j => [0x6f, a.rd, a.imm]

/-- The immediate fits the format; those of U words are numbers with twelve zero bits. -/
def InRange (d : Int) : Encoder → Prop
  | r => True
  | i | s => -2 ^ 11 ≤ d ∧ d < 2 ^ 11
  | b => -2 ^ 12 ≤ d ∧ d < 2 ^ 12 ∧ d % 2 = 0
  | u => -2 ^ 31 ≤ d ∧ d < 2 ^ 31 ∧ d % 2 ^ 12 = 0
  | j => -2 ^ 20 ≤ d ∧ d < 2 ^ 20 ∧ d % 2 = 0

theorem fields_encode (e : Encoder) (a : Operands) (h : e.InRange a.imm) : e.fields (e.encode a) = e.given a := by
  obtain ⟨⟨funct7, h7⟩, ⟨rs2, h2⟩, ⟨rs1, h1⟩, ⟨funct3, h3⟩, ⟨rd, hd⟩, ⟨opcode, ho⟩, imm⟩ := a
  cases e with
  | r =>
    obtain ⟨e1, e2, e3, e4, e5, e6⟩ := fieldsS h7 h2 h1 h3 hd ho (rvR_eq h7 h2 h1 h3 hd ho)
    simp only [fields, encode, given, e1, e2, e3, e4, e5, e6]
  | i =>
    obtain ⟨e1, e2, e3, e4⟩ := @rvI_fields rs1 funct3 rd opcode imm h1 h3 hd ho
    simp only [fields, encode, given, e1, e2, e3, e4, immI_rvI h1 h3 hd ho h.1 h.2]
  | s =>
    obtain ⟨e1, e2, e3, e4, e5⟩ := rvS_fields h2 h1 h3 h.1 h.2
    simp only [fields, encode, given, e1, e2, e3, e4, e5]
    rfl
  | b =>
    obtain ⟨e1, e2, e3, e4, e5⟩ := @rvB_fields rs2 rs1 funct3 imm h2 h1 h3
    simp only [fields, encode, given, e1, e2, e3, e4, e5, (cutOff_eq_iff (.inl rfl) imm).2 h]
    rfl
  | u =>
    obtain ⟨hl, hu, hz⟩ := h
    have hw := @rvU_eq rd opcode imm hd ho
    have hop : bits (rvU imm rd opcode) 0 7 = opcode ∧ bits (rvU imm rd opcode) 7 5 = rd := by
      rw [hw]
      unfold bits
      omega
    have himm : immU (rvU imm rd opcode) = imm := by
      dsimp only at hl hu hz
      rw [hw]
      unfold immU sext bits unsigned
      omega
    simp only [fields, encode, given, hop.1, hop.2, himm]
  | j =>
    obtain ⟨e1, e2, e3⟩ := @rvJ_fields rd imm hd
    simp only [fields, encode, given, e1, e2, e3, (cutOff_eq_iff (.inr rfl) imm).2 h]
    rfl

end Encoder

/-- The immediate fits the word that is patched. -/
def Format.InRange (d : Int) : Format → Prop
  | i => Encoder.i.InRange d
  | s => Encoder.s.InRange d
  | u => Encoder.u.InRange d
  | b => Encoder.b.InRange d
  | j => Encoder.j.InRange d
  | cb => -2 ^ 8 ≤ d ∧ d < 2 ^ 8 ∧ d % 2 = 0
  | cj => -2 ^ 11 ≤ d ∧ d < 2 ^ 11 ∧ d % 2 = 0

theorem Format.cut_of_inRange {k : Format} {d : Int} (h : k.InRange d) : k.cut d = d := by
  cases k with
  | b => exact (cutOff_eq_iff (.inl rfl) d).2 h
  | j => exact (cutOff_eq_iff (.inr rfl) d).2 h
  | _ =>
    simp only [InRange, Encoder.InRange] at h
    unfold cut
    dsimp only [cutOff, sext, unsigned]
    omega

/-- Every field that is encoded or patched is read back, patching keeps the other bits of
the word, and of two patches the second counts. -/
theorem formats_exact (e : Encoder) (a : Operands) (ha : e.InRange a.imm) (k : Format) (x : Nat) (d d' : Int)
    (hd : k.InRange d) : e.fields (e.encode a) = e.given a ∧ k.imm (k.patch x d) = d ∧
      k.patch x d &&& k.keep = x &&& k.keep ∧ k.patch x d < 256 ^ k.bytes ∧ k.patch (k.patch x d') d = k.patch x d := by
  refine ⟨e.fields_encode a ha, ?_, k.patch_rest x d, k.patch_lt x d, ?_⟩
  · rw [k.imm_patch, Format.cut_of_inRange hd]
  · rw [k.patch_eq (k.patch x d'), k.patch_eq x d', k.patch_eq x d, Chunk.put_put k.chunks_apart]

theorem branch_words_exact : Encoder.b.fields (Encoder.b.encode ⟨0, 6, 5, 1, 0, 0, -4⟩) = [0x63, 1, 5, 6, -4] ∧
    immCB (patchRvcBranch 0xc101 (-256)) = -256 ∧ patchRvcBranch (patchRvcBranch 0xc101 100) (-256) = 0xd101 := by
  obtain ⟨h1, h2, -, -, h3⟩ := formats_exact .b ⟨0, 6, 5, 1, 0, 0, -4⟩
    (show -2 ^ 12 ≤ (-4 : Int) ∧ (-4 : Int) < 2 ^ 12 ∧ (-4 : Int) % 2 = 0 by decide) .cb 0xc101 (-256) 100
    (show -2 ^ 8 ≤ (-256 : Int) ∧ (-256 : Int) < 2 ^ 8 ∧ (-256 : Int) % 2 = 0 by decide)
  exact ⟨h1, h2, h3⟩

end Lcc
