import Loeux.Lib.Bytes
/-!
# A RISC-V machine

The 64-bit instructions that a simple compiler emits, as words and as steps of a hart:
32-bit words are decoded to instructions, registers hold 64 bits and register 0 reads
as 0, and memory is a buffer of bytes. Code is fetched from a map of its own.
-/

open List

namespace Lib

namespace Rv64

/-! ## Instructions -/

inductive Alu
  | add | sub | sll | slt | sltu | xor | srl | sra | or | and | mul | div | rem
  deriving DecidableEq

inductive Width
  | byte | word | double
  deriving DecidableEq

def Width.bytes : Width → Nat
  | .byte => 1
  | .word => 4
  | .double => 8

/-- Registers by number, immediates as the numbers they stand for. -/
inductive Instr
  | lui (rd : Nat) (imm : Int)
  | auipc (rd : Nat) (imm : Int)
  | jal (rd : Nat) (off : Int)
  | jalr (rd rs1 : Nat) (off : Int)
  | beq (rs1 rs2 : Nat) (off : Int)
  | bne (rs1 rs2 : Nat) (off : Int)
  | load (w : Width) (rd rs1 : Nat) (off : Int)
  | store (w : Width) (rs2 rs1 : Nat) (off : Int)
  | opImm (o : Alu) (rd rs1 : Nat) (imm : Int)
  | op (o : Alu) (rd rs1 rs2 : Nat)
  deriving DecidableEq

/-- The `n` bits of `w` from bit `lo` on. -/
def bits (w lo n : Nat) : Nat := w / 2 ^ lo % 2 ^ n

/-- The `n`-bit number `x` as a signed one. -/
def sext (n x : Nat) : Int := if x < 2 ^ (n - 1) then x else x - (2 ^ n : Nat)

def immI (w : Nat) : Int := sext 12 (bits w 20 12)

def immS (w : Nat) : Int := sext 12 (bits w 25 7 * 2 ^ 5 + bits w 7 5)

def immB (w : Nat) : Int :=
  sext 13 (bits w 31 1 * 2 ^ 12 + bits w 7 1 * 2 ^ 11 + bits w 25 6 * 2 ^ 5 + bits w 8 4 * 2)

def immU (w : Nat) : Int := sext 32 (bits w 12 20 * 2 ^ 12)

def immJ (w : Nat) : Int :=
  sext 21 (bits w 31 1 * 2 ^ 20 + bits w 12 8 * 2 ^ 12 + bits w 20 1 * 2 ^ 11 + bits w 21 10 * 2)

def immCB (h : Nat) : Int :=
  sext 9 (bits h 12 1 * 2 ^ 8 + bits h 5 2 * 2 ^ 6 + bits h 2 1 * 2 ^ 5 + bits h 10 2 * 2 ^ 3 + bits h 3 2 * 2)

def immCJ (h : Nat) : Int :=
  sext 12 (bits h 12 1 * 2 ^ 11 + bits h 8 1 * 2 ^ 10 + bits h 9 2 * 2 ^ 8 + bits h 6 1 * 2 ^ 7 + bits h 7 1 * 2 ^ 6 +
    bits h 2 1 * 2 ^ 5 + bits h 11 1 * 2 ^ 4 + bits h 3 3 * 2)

/-- The operation of a register instruction, by its function codes. -/
def decodeOp (funct7 funct3 : Nat) : Option Alu :=
  match funct7, funct3 with
  | 0x00, 0 => some .add
  | 0x20, 0 => some .sub
  | 0x00, 1 => some .sll
  | 0x00, 2 => some .slt
  | 0x00, 3 => some .sltu
  | 0x00, 4 => some .xor
  | 0x00, 5 => some .srl
  | 0x20, 5 => some .sra
  | 0x00, 6 => some .or
  | 0x00, 7 => some .and
  | 0x01, 0 => some .mul
  | 0x01, 4 => some .div
  | 0x01, 6 => some .rem
  | _, _ => none

def decode (w : Nat) : Option Instr :=
  let rd := bits w 7 5
  let funct3 := bits w 12 3
  let rs1 := bits w 15 5
  let rs2 := bits w 20 5
  match bits w 0 7, funct3 with
  | 0x37, _ => some (.lui rd (immU w))
  | 0x17, _ => some (.auipc rd (immU w))
  | 0x6f, _ => some (.jal rd (immJ w))
  | 0x67, 0 => some (.jalr rd rs1 (immI w))
  | 0x63, 0 => some (.beq rs1 rs2 (immB w))
  | 0x63, 1 => some (.bne rs1 rs2 (immB w))
  | 0x03, 0 => some (.load .byte rd rs1 (immI w))
  | 0x03, 2 => some (.load .word rd rs1 (immI w))
  | 0x03, 3 => some (.load .double rd rs1 (immI w))
  | 0x23, 0 => some (.store .byte rs2 rs1 (immS w))
  | 0x23, 2 => some (.store .word rs2 rs1 (immS w))
  | 0x23, 3 => some (.store .double rs2 rs1 (immS w))
  | 0x13, 0 => some (.opImm .add rd rs1 (immI w))
  | 0x13, 1 => if bits w 26 6 = 0 then some (.opImm .sll rd rs1 (bits w 20 6)) else none
  | 0x13, 3 => some (.opImm .sltu rd rs1 (immI w))
  | 0x13, 4 => some (.opImm .xor rd rs1 (immI w))
  | 0x33, _ => (decodeOp (bits w 25 7) funct3).map fun o => .op o rd rs1 rs2
  | _, _ => none

/-! ## Execution -/

abbrev Word := BitVec 64

def Alu.eval (o : Alu) (x y : Word) : Word :=
  match o with
  | .add => x + y
  | .sub => x - y
  | .sll => x <<< (y.toNat % 64)
  | .slt => if x.slt y then 1 else 0
  | .sltu => if x.ult y then 1 else 0
  | .xor => x ^^^ y
  | .srl => x >>> (y.toNat % 64)
  | .sra => x.sshiftRight (y.toNat % 64)
  | .or => x ||| y
  | .and => x &&& y
  | .mul => x * y
  | .div => if y = 0 then -1 else x.sdiv y
  | .rem => if y = 0 then x else x.srem y

/-- A hart with its memory. -/
structure Hart where
  pc : Word
  x : Nat → Word
  mem : Bytes

namespace Hart

def reg (m : Hart) (r : Nat) : Word := if r = 0 then 0 else m.x r

def setReg (m : Hart) (r : Nat) (v : Word) : Hart := { m with x := Function.update m.x r v }

/-- On to the next instruction. -/
def next (m : Hart) : Hart := { m with pc := m.pc + 4 }

def jump (m : Hart) (pc : Word) : Hart := { m with pc := pc }

/-- The address that a load or a store goes to. -/
def addr (m : Hart) (rs1 : Nat) (off : Int) : Word := m.reg rs1 + BitVec.ofInt 64 off

end Hart

def Width.read (w : Width) (a : Nat) (mem : Bytes) : Word := BitVec.ofInt 64 (sext (8 * w.bytes) (Bytes.get w.bytes a mem))

def Width.write (w : Width) (a : Nat) (v : Word) (mem : Bytes) : Bytes := Bytes.put w.bytes a v.toNat mem

def exec (i : Instr) (m : Hart) : Option Hart :=
  match i with
  | .lui rd imm => some (m.setReg rd (BitVec.ofInt 64 imm)).next
  | .auipc rd imm => some (m.setReg rd (m.pc + BitVec.ofInt 64 imm)).next
  | .jal rd off => some ((m.setReg rd (m.pc + 4)).jump (m.pc + BitVec.ofInt 64 off))
  | .jalr rd rs1 off => some ((m.setReg rd (m.pc + 4)).jump (m.addr rs1 off &&& ~~~1))
  | .beq rs1 rs2 off => some (if m.reg rs1 = m.reg rs2 then m.jump (m.pc + BitVec.ofInt 64 off) else m.next)
  | .bne rs1 rs2 off => some (if m.reg rs1 ≠ m.reg rs2 then m.jump (m.pc + BitVec.ofInt 64 off) else m.next)
  | .load w rd rs1 off =>
    let a := (m.addr rs1 off).toNat
    if a + w.bytes ≤ 2 ^ 64 then some (m.setReg rd (w.read a m.mem)).next else none
  | .store w rs2 rs1 off =>
    let a := (m.addr rs1 off).toNat
    if a + w.bytes ≤ 2 ^ 64 then some { m with mem := w.write a (m.reg rs2) m.mem }.next else none
  | .opImm o rd rs1 imm => some (m.setReg rd (o.eval (m.reg rs1) (BitVec.ofInt 64 imm))).next
  | .op o rd rs1 rs2 => some (m.setReg rd (o.eval (m.reg rs1) (m.reg rs2))).next

/-- The words of the program, by address. -/
abbrev Code := Word → Option Nat

def step (code : Code) (m : Hart) : Option Hart := ((code m.pc).bind decode).bind fun i => exec i m

/-- From `m` the hart reaches `m'` by way of the addresses `ps`. -/
inductive Exec (code : Code) : Hart → List Word → Hart → Prop
  | nil (m : Hart) : Exec code m [] m
  | cons {m m' m'' : Hart} {ps : List Word} : step code m = some m' → Exec code m' ps m'' →
    Exec code m (m.pc :: ps) m''

namespace Exec

variable {code : Code} {m m' m'' : Hart} {a : Word} {ps : List Word}

theorem trans {qs : List Word} (h : Exec code m ps m') (h' : Exec code m' qs m'') : Exec code m (ps ++ qs) m'' := by
  induction h with
  | nil => exact h'
  | cons hs _ ih => exact .cons hs (ih h')

theorem one (h : step code m = some m') : Exec code m [m.pc] m' := .cons h (.nil m')

theorem unique {qs : List Word} {n n' : Hart} (h : Exec code m ps n) (h' : Exec code m qs n') (hn : n.pc = a) (hn' : n'.pc = a)
    (hps : a ∉ ps) (hqs : a ∉ qs) : ps = qs ∧ n = n' := by
  induction h generalizing qs with
  | nil m =>
    cases h' with
    | nil => exact ⟨rfl, rfl⟩
    | cons => exact absurd (hn ▸ mem_cons_self) hqs
  | cons hs _ ih =>
    cases h' with
    | nil => exact absurd (hn' ▸ mem_cons_self) hps
    | cons hs' h' =>
      rw [hs] at hs'
      cases hs'
      obtain ⟨rfl, rfl⟩ := ih h' hn (fun h => hps (mem_cons_of_mem _ h)) fun h => hqs (mem_cons_of_mem _ h)
      exact ⟨rfl, rfl⟩

end Exec

/-! ## Straight lines -/

namespace Hart

variable (m : Hart) (r r' : Nat) (v : Word)

@[simp] theorem reg_zero : m.reg 0 = 0 := rfl

@[simp] theorem reg_next : m.next.reg r = m.reg r := rfl

@[simp] theorem reg_jump : (m.jump v).reg r = m.reg r := rfl

theorem reg_setReg : (m.setReg r v).reg r' = if r' = 0 then 0 else if r' = r then v else m.reg r' := by
  unfold reg setReg
  by_cases h : r' = 0
  · rw [if_pos h, if_pos h]
  · rw [if_neg h, if_neg h, if_neg h]
    exact Function.update_apply ..

theorem reg_setReg_self (h : r ≠ 0) : (m.setReg r v).reg r = v := by rw [reg_setReg, if_neg h, if_pos rfl]

theorem reg_setReg_ne (h : r' ≠ r) : (m.setReg r v).reg r' = m.reg r' := by
  rw [reg_setReg, if_neg h]
  split
  · rename_i h0
    rw [h0, reg_zero]
  · rfl

theorem addr_zero : m.addr r 0 = m.reg r := BitVec.add_zero _

@[simp] theorem mem_setReg : (m.setReg r v).mem = m.mem := rfl

@[simp] theorem mem_next : m.next.mem = m.mem := rfl

@[simp] theorem mem_jump : (m.jump v).mem = m.mem := rfl

@[simp] theorem pc_setReg : (m.setReg r v).pc = m.pc := rfl

@[simp] theorem pc_next : m.next.pc = m.pc + 4 := rfl

@[simp] theorem pc_jump : (m.jump v).pc = v := rfl

end Hart

/-- The instructions that go on to the next one. -/
def Instr.isPlain : Instr → Bool
  | .lui .. | .auipc .. | .load .. | .store .. | .opImm .. | .op .. => true
  | _ => false

def execAll : List Instr → Hart → Option Hart
  | [], m => some m
  | i :: is, m => (exec i m).bind (execAll is)

theorem execAll_append (is is' : List Instr) (m : Hart) : execAll (is ++ is') m = (execAll is m).bind (execAll is') := by
  induction is generalizing m with
  | nil => rfl
  | cons i is ih =>
    rw [cons_append, execAll, execAll]
    cases exec i m with
    | none => rfl
    | some m' => exact ih m'

theorem exec_pc {i : Instr} (hi : i.isPlain) {m m' : Hart} (h : exec i m = some m') : m'.pc = m.pc + 4 := by
  cases i with
  | lui | auipc | opImm | op =>
    cases h
    rfl
  | load | store =>
    simp only [exec] at h
    split at h
    · cases h
      rfl
    · cases h
  | jal | jalr | beq | bne => cases hi

/-- Only register `rd` changes, to `v`. -/
structure Hart.Sets (m : Hart) (rd : Nat) (v : Word) (m' : Hart) : Prop where
  own : m'.reg rd = v
  other : ∀ k, k ≠ rd → m'.reg k = m.reg k
  mem : m'.mem = m.mem

section
variable {m m' m'' : Hart} {rd rs1 a : Nat} {off : Int} {v v' : Word} {is : List Instr}

theorem Hart.sets_next (h : rd ≠ 0) : m.Sets rd v (m.setReg rd v).next :=
  ⟨m.reg_setReg_self rd v h, fun k hk => m.reg_setReg_ne rd k v hk, rfl⟩

theorem Hart.Sets.trans (h : m.Sets rd v m') (h' : m'.Sets rd v' m'') : m.Sets rd v' m'' :=
  ⟨h'.own, fun k hk => (h'.other k hk).trans (h.other k hk), h'.mem.trans h.mem⟩

theorem exec_op (m : Hart) (o : Alu) {rd : Nat} (h : rd ≠ 0) (rs1 rs2 : Nat) : ∃ m', exec (.op o rd rs1 rs2) m = some m' ∧
    m.Sets rd (o.eval (m.reg rs1) (m.reg rs2)) m' := ⟨_, rfl, Hart.sets_next h⟩

theorem exec_opImm (m : Hart) (o : Alu) {rd : Nat} (h : rd ≠ 0) (rs1 : Nat) (imm : Int) : ∃ m', exec (.opImm o rd rs1 imm) m = some m' ∧
    m.Sets rd (o.eval (m.reg rs1) (BitVec.ofInt 64 imm)) m' := ⟨_, rfl, Hart.sets_next h⟩

theorem exec_lui (m : Hart) {rd : Nat} (h : rd ≠ 0) (imm : Int) : ∃ m', exec (.lui rd imm) m = some m' ∧ m.Sets rd (BitVec.ofInt 64 imm) m' :=
  ⟨_, rfl, Hart.sets_next h⟩

theorem exec_load (w : Width) {rd : Nat} (h : rd ≠ 0) (ha : (m.addr rs1 off).toNat = a) (hfit : a + w.bytes ≤ 2 ^ 64) :
    ∃ m', exec (.load w rd rs1 off) m = some m' ∧ m.Sets rd (w.read a m.mem) m' := by
  subst ha
  exact ⟨_, if_pos hfit, Hart.sets_next h⟩

theorem exec_store (w : Width) (rs2 : Nat) (ha : (m.addr rs1 off).toNat = a) (hfit : a + w.bytes ≤ 2 ^ 64) :
    ∃ m', exec (.store w rs2 rs1 off) m = some m' ∧ (∀ k, m'.reg k = m.reg k) ∧ m'.mem = w.write a (m.reg rs2) m.mem := by
  subst ha
  exact ⟨_, if_pos hfit, fun _ => rfl, rfl⟩

theorem execAll_cons {i : Instr} (h : exec i m = some m') : execAll (i :: is) m = execAll is m' := by
  rw [execAll, h, Option.bind_some]

end

theorem Width.read_write (a : Nat) (v : Word) (mem : Bytes) : Width.double.read a (Width.double.write a v mem) = v := by
  show BitVec.ofInt 64 (sext 64 (Bytes.get 8 a (Bytes.put 8 a v.toNat mem))) = v
  rw [Bytes.get_put]
  unfold sext
  have := v.isLt
  split
  · rename_i h
    rw [show v.toNat % 256 ^ 8 = v.toNat by omega, BitVec.ofInt_natCast, BitVec.ofNat_toNat, BitVec.setWidth_eq]
  · rename_i h
    rw [show v.toNat % 256 ^ 8 = v.toNat by omega, ← BitVec.toNat_inj, BitVec.toNat_ofInt]
    omega

theorem Width.read_congr (w : Width) {a : Nat} {mem mem' : Bytes} (h : ∀ i, a ≤ i → i < a + w.bytes → mem i = mem' i) :
    w.read a mem = w.read a mem' := by
  unfold Width.read
  rw [Bytes.get_congr h]

end Rv64

end Lib
