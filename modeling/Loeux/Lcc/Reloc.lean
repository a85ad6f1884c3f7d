import Loeux.Lcc.Link
import Loeux.Lib.Chunks
/-!
# Relocated instructions

What the machine reads from a word that the linker has patched, and when that is the
address of the symbol plus the addend.
-/

namespace Lcc

open Lib Rv64 Bytes List Stop

/-! ## Patched words -/

/-- Words with an immediate: I, S, U, B and J, and the compressed branch and jump. -/
inductive Format
  | i | s | u | b | j | cb | cj

namespace Format

open Chunk

def patch : Format → Nat → Int → Nat
  | i => patchI
  | s => patchS
  | u => patchU
  | b => patchB
  | j => patchJ
  | cb => patchRvcBranch
  | cj => patchRvcJump

def imm : Format → Nat → Int
  | i => immI
  | s => immS
  | u => immU
  | b => immB
  | j => immJ
  | cb => immCB
  | cj => immCJ

/-- The bits that are no part of the immediate. -/
def keep : Format → Nat
  | i => 0x000fffff
  | s | b => 0x01fff07f
  | u | j => 0x00000fff
  | cb => 0xe383
  | cj => 0xe003

def chunks : Format → List Chunk
  | i => [⟨0, 12, 20⟩]
  | s => [⟨5, 7, 25⟩, ⟨0, 5, 7⟩]
  | u => [⟨12, 20, 12⟩]
  | b => [⟨12, 1, 31⟩, ⟨5, 6, 25⟩, ⟨1, 4, 8⟩, ⟨11, 1, 7⟩]
  | j => [⟨20, 1, 31⟩, ⟨1, 10, 21⟩, ⟨11, 1, 20⟩, ⟨12, 8, 12⟩]
  | cb => [⟨8, 1, 12⟩, ⟨4, 1, 11⟩, ⟨3, 1, 10⟩, ⟨7, 1, 6⟩, ⟨6, 1, 5⟩, ⟨2, 1, 4⟩, ⟨1, 1, 3⟩, ⟨5, 1, 2⟩]
  | cj => [⟨11, 1, 12⟩, ⟨4, 1, 11⟩, ⟨9, 1, 10⟩, ⟨8, 1, 9⟩, ⟨10, 1, 8⟩, ⟨6, 1, 7⟩, ⟨7, 1, 6⟩, ⟨3, 1, 5⟩, ⟨2, 1, 4⟩,
    ⟨1, 1, 3⟩, ⟨5, 1, 2⟩]

def bytes : Format → Nat
  | cb | cj => 2
  | _ => 4

/-- What is read back of a number. -/
def cut : Format → Int → Int
  | i | s => fun d => sext 12 (unsigned d % 2 ^ 12)
  | u => fun d => sext 32 (unsigned d / 2 ^ 12 * 2 ^ 12)
  | b => cutOff 13
  | j => cutOff 21
  | cb => cutOff 9
  | cj => cutOff 12

variable (k : Format) (x : Nat) (d : Int)

theorem patch_eq : k.patch x d = put k.keep k.chunks x (unsigned d) := by
  cases k with
  | u =>
    show (x &&& 0x00000fff) ||| (unsigned d &&& 0xfffff000) = _ ||| (unsigned d >>> 12 &&& (2 ^ 20 - 1)) <<< 12
    rw [and_shifted _ 12 20 (m := 0xfffff000) rfl, Nat.and_two_pow_sub_one_eq_mod, Nat.shiftRight_eq_div_pow]
    rfl
  | _ => rfl

theorem chunks_apart : ∀ c ∈ k.chunks, (2 ^ c.len - 1) <<< c.pos &&& k.keep = 0 := by
  cases k <;> decide

theorem patch_rest : k.patch x d &&& k.keep = x &&& k.keep := by
  rw [patch_eq, put_rest k.chunks_apart]

theorem patch_lt : k.patch x d < 256 ^ k.bytes := by
  have h : k.keep < 2 ^ (8 * k.bytes) ∧ ∀ c ∈ k.chunks, c.pos + c.len ≤ 8 * k.bytes := by cases k <;> decide
  rw [patch_eq, show 256 = 2 ^ 8 from rfl, ← Nat.pow_mul]
  exact put_lt h.1 h.2

theorem imm_patch : k.imm (k.patch x d) = k.cut d := by
  have h := fun k : Format => @bits_put k.keep k.chunks x (unsigned d)
  rw [patch_eq]
  cases k with
  | i =>
    show sext 12 (bits _ 20 12) = _
    rw [h .i 20 12 0 (by decide), bits_zero]
    rfl
  | s =>
    show sext 12 (bits _ 25 7 * 2 ^ 5 + bits _ 7 5) = _
    rw [h .s 25 7 5 (by decide), h .s 7 5 0 (by decide), bits_zero, bits_join_zero]
    rfl
  | u =>
    have hlt := unsigned_lt d
    show sext 32 (bits _ 12 20 * 2 ^ 12) = sext 32 _
    rw [h .u 12 20 12 (by decide), bits, Nat.mod_eq_of_lt (by omega)]
  | b =>
    show sext 13 (bits _ 31 1 * 2 ^ 12 + bits _ 7 1 * 2 ^ 11 + bits _ 25 6 * 2 ^ 5 + bits _ 8 4 * 2) = _
    rw [h .b 31 1 12 (by decide), h .b 7 1 11 (by decide), h .b 25 6 5 (by decide), h .b 8 4 1 (by decide)]
    simp only [Nat.add_assoc, bits_one, bits_join, Nat.reduceAdd, Nat.reduceLT]
    rfl
  | j =>
    show sext 21 (bits _ 31 1 * 2 ^ 20 + bits _ 12 8 * 2 ^ 12 + bits _ 20 1 * 2 ^ 11 + bits _ 21 10 * 2) = _
    rw [h .j 31 1 20 (by decide), h .j 12 8 12 (by decide), h .j 20 1 11 (by decide), h .j 21 10 1 (by decide)]
    simp only [Nat.add_assoc, bits_one, bits_join, Nat.reduceAdd, Nat.reduceLT]
    rfl
  | cb =>
    show sext 9 (bits _ 12 1 * 2 ^ 8 + bits _ 5 2 * 2 ^ 6 + bits _ 2 1 * 2 ^ 5 + bits _ 10 2 * 2 ^ 3 + bits _ 3 2 * 2) = _
    rw [h .cb 12 1 8 (by decide), h .cb 5 2 6 (by decide), h .cb 2 1 5 (by decide), h .cb 10 2 3 (by decide),
      h .cb 3 2 1 (by decide)]
    simp only [Nat.add_assoc, bits_one, bits_join, Nat.reduceAdd, Nat.reduceLT]
    rfl
  | cj =>
    show sext 12 (bits _ 12 1 * 2 ^ 11 + bits _ 8 1 * 2 ^ 10 + bits _ 9 2 * 2 ^ 8 + bits _ 6 1 * 2 ^ 7 + bits _ 7 1 * 2 ^ 6 +
      bits _ 2 1 * 2 ^ 5 + bits _ 11 1 * 2 ^ 4 + bits _ 3 3 * 2) = _
    rw [h .cj 12 1 11 (by decide), h .cj 8 1 10 (by decide), h .cj 9 2 8 (by decide), h .cj 6 1 7 (by decide),
      h .cj 7 1 6 (by decide), h .cj 2 1 5 (by decide), h .cj 11 1 4 (by decide), h .cj 3 3 1 (by decide)]
    simp only [Nat.add_assoc, bits_one, bits_join, Nat.reduceAdd, Nat.reduceLT]
    rfl

end Format

section
variable (x : Nat) (d : Int)

theorem patchI_rest : patchI x d &&& 0x000fffff = x &&& 0x000fffff := Format.i.patch_rest x d

theorem patchU_rest : patchU x d &&& 0x00000fff = x &&& 0x00000fff := Format.u.patch_rest x d

theorem immI_patchI : immI (patchI x d) = sext 12 (unsigned d % 2 ^ 12) := Format.i.imm_patch x d

theorem immU_patchU : immU (patchU x d) = sext 32 (unsigned d / 2 ^ 12 * 2 ^ 12) := Format.u.imm_patch x d

end

theorem patchI_eq (x : Nat) (imm : Int) : patchI x imm = unsigned imm % 2 ^ 12 * 2 ^ 20 + x % 2 ^ 20 := by
  unfold patchI
  rw [and_mask _ 12 (m := 0xfff) rfl, and_mask _ 20 (m := 0x000fffff) rfl, Nat.lor_comm, shl_or (by omega)]

theorem patchU_eq (x : Nat) (imm : Int) : patchU x imm = unsigned imm / 2 ^ 12 * 2 ^ 12 + x % 2 ^ 12 := by
  have h := unsigned_lt imm
  unfold patchU
  rw [and_mask _ 12 (m := 0x00000fff) rfl, and_shifted _ 12 20 (m := 0xfffff000) rfl, Nat.lor_comm, shl_or (by omega)]
  omega

/-! ## Numbers that fit -/

/-- The number as 64 bits hold it. -/
def wrap64 (d : Int) : Int := (d + 2 ^ 63) % 2 ^ 64 - 2 ^ 63

theorem ofInt_eq_iff (a b : Int) : BitVec.ofInt 64 a = BitVec.ofInt 64 b ↔ (a - b) % 2 ^ 64 = 0 := by
  rw [← BitVec.toNat_inj, BitVec.toNat_ofInt, BitVec.toNat_ofInt]
  omega

theorem exact_even {n : Nat} (hn : n = 9 ∨ n = 12 ∨ n = 13 ∨ n = 21) (d : Int) :
    (sext n (unsigned d % 2 ^ n / 2 * 2) - d) % 2 ^ 64 = 0 ↔
      -2 ^ (n - 1) ≤ wrap64 d ∧ wrap64 d < 2 ^ (n - 1) ∧ d % 2 = 0 := by
  unfold sext unsigned wrap64
  rcases hn with rfl | rfl | rfl | rfl <;> omega

/-- The upper part of `d` and the low twelve bits of `e` make `d` if `d` fits and the low
bits are its own. -/
theorem exact_pair (d e : Int) :
    (sext 32 (unsigned (hi20 d) / 2 ^ 12 * 2 ^ 12) + sext 12 (unsigned e % 2 ^ 12) - d) % 2 ^ 64 = 0 ↔
      -2 ^ 31 - 2 ^ 11 ≤ wrap64 d ∧ wrap64 d < 2 ^ 31 - 2 ^ 11 ∧ (e - d) % 4096 = 0 := by
  unfold sext unsigned wrap64 hi20
  omega

/-! ## One relocation -/

def Link.buf (l : Link) : Buffer → File
  | .text => l.final_text
  | .data => l.final_data

def Link.store (l : Link) (buf : Buffer) (n off v : Nat) : Link :=
  match buf with
  | .text => { l with final_text.bytes := Bytes.put n off v l.final_text.bytes }
  | .data => { l with final_data.bytes := Bytes.put n off v l.final_data.bytes }

section
variable {l : Link} {buf : Buffer} {n off v : Nat}

theorem patchAt_ok {f : Nat → Nat} (h : off + n ≤ (l.buf buf).size) :
    patchAt buf n off f l = .ok (⟨⟩, l.store buf n off (f (get n off (l.buf buf).bytes))) := by
  unfold patchAt
  rw [bind_ok (a := l) (t := l) rfl]
  cases buf <;>
  · dsimp only [Link.buf] at h ⊢
    rw [if_neg (by omega)]
    rfl

@[simp] theorem store_buf : (l.store buf n off v).buf buf = ⟨put n off v (l.buf buf).bytes, (l.buf buf).size⟩ := by
  cases buf <;> rfl

@[simp] theorem store_diags : (l.store buf n off v).diags = l.diags := by cases buf <;> rfl

@[simp] theorem store_gdefs : (l.store buf n off v).gdefs = l.gdefs := by cases buf <;> rfl

@[simp] theorem store_data_base : (l.store buf n off v).data_base = l.data_base := by cases buf <;> rfl

end

/-- A section whose relocations are applied, with the symbols of its object. -/
structure Target where
  o : LinkObj
  sec : Nat
  syms : Nat
  strtab : Nat

namespace Target

def sym (t : Target) (r : Rela) : Sym := readSym t.o.file.bytes (t.syms + 24 * rSym r.r_info)

def name (t : Target) (r : Rela) : Text := stringAt t.o.file.bytes (t.strtab + (t.sym r).st_name) STRING_ROUNDS

def place (t : Target) (r : Rela) : Nat := (t.o.sec_addr t.sec + r.r_offset) % 2 ^ 64

def buffer (t : Target) : Buffer := if t.o.sec_kind t.sec = 1 then .text else .data

/-- Where the place lies in its buffer. -/
def off (t : Target) (l : Link) (r : Rela) : Nat :=
  (t.place r + (2 ^ 64 - if t.o.sec_kind t.sec = 1 then TEXT_BASE else l.data_base)) % 2 ^ 64

def address (t : Target) (l : Link) (r : Rela) : Option Nat :=
  if (t.sym r).st_shndx ≠ SHN_UNDEF then some (symbolAddress t.o (t.sym r)) else gdefFind l (t.name r)

def apply (t : Target) (r : Rela) : L Unit := applyRelocation t.o t.sec r t.syms t.strtab

/-- A loadable section of the object. -/
structure Ok (t : Target) : Prop where
  shnum : t.sec < t.o.e_shnum
  int : t.sec < 2 ^ 31
  kind : t.o.sec_kind t.sec = 1 ∨ t.o.sec_kind t.sec = 2

/-- A relocation of `n` bytes inside the section. -/
structure Holds (t : Target) (l : Link) (r : Rela) (n : Nat) : Prop where
  sym : rSym r.r_info < 0x7fffffff
  size : t.off l r + n ≤ (l.buf t.buffer).size

variable {t : Target} {l : Link} {r : Rela}

/-- What a missing symbol makes the linker print. -/
def unresolved (t : Target) (r : Rela) : List Text :=
  [ascii "lcc: undefined symbol: " ++ t.name r, ascii "lcc: link aborted"]

theorem resolve_some {S : Nat} (h : t.address l r = some S) :
    resolveSymbol t.o (t.sym r) (t.name r) l = .ok (S, l) := by
  unfold address at h
  unfold resolveSymbol
  split at h
  · rename_i hdef
    rw [if_pos hdef]
    cases h
    rfl
  · rename_i hdef
    rw [if_neg hdef, bind_ok (a := l) (t := l) rfl, h]
    rfl

theorem resolve_none (h : t.address l r = none) :
    resolveSymbol t.o (t.sym r) (t.name r) l = .ok (l.junk, { l with diags := l.diags ++ t.unresolved r }) := by
  unfold address at h
  unfold resolveSymbol
  split at h
  · cases h
  · rename_i hdef
    rw [if_neg hdef, bind_ok (a := l) (t := l) rfl, h]
    dsimp only
    rw [bind_ok (a := ⟨⟩) rfl, bind_ok (a := ⟨⟩) rfl]
    simp only [unresolved, append_assoc, cons_append]
    rfl

theorem apply_eq (ht : t.Ok) (hs : rSym r.r_info < 0x7fffffff)
    (hty : ¬(rType r.r_info = R_RISCV_NONE ∨ rType r.r_info = R_RISCV_RELAX ∨ rType r.r_info = R_RISCV_ALIGN)) {S : Nat}
    {l' : Link} (hr : resolveSymbol t.o (t.sym r) (t.name r) l = .ok (S, l')) (hb : l'.data_base = l.data_base) :
    t.apply r l = applyKind t.o t.sec (rType r.r_info) (t.sym r) r.r_addend S (t.place r) t.buffer (t.off l r) l' := by
  have h1 : ¬(2 ^ 31 ≤ t.sec ∨ t.o.e_shnum ≤ t.sec) := by
    have := ht.shnum
    have := ht.int
    omega
  have h2 : ¬t.o.sec_kind t.sec = 0 := by
    have := ht.kind
    omega
  have h3 : ¬0x7fffffff ≤ rSym r.r_info := by omega
  unfold apply applyRelocation
  dsimp only
  rw [if_neg hty, if_neg h1, if_neg h2, if_neg h3]
  erw [bind_ok hr]
  unfold off buffer
  split
  · rfl
  · rw [bind_ok (a := l') (t := l') rfl, hb]
    rfl

end Target

/-! ## Addresses that the code computes -/

/-- The address `a` plus an offset. -/
def plus (a : Nat) (off : Int) : Word := BitVec.ofNat 64 a + BitVec.ofInt 64 off

theorem plus_eq (a : Nat) (off : Int) : plus a off = BitVec.ofInt 64 (a + off) := by
  rw [plus, BitVec.ofInt_add, BitVec.ofInt_natCast]

theorem plus_eq_iff (a : Nat) (off v : Int) : plus a off = BitVec.ofInt 64 v ↔ (off - (v - a)) % 2 ^ 64 = 0 := by
  rw [plus_eq, ofInt_eq_iff, show (a : Int) + off - v = off - (v - a) by ring]

/-- Relocations that stand alone. -/
inductive Kind
  | abs32 | abs64 | jal | branch | rvcBranch | rvcJump | call
  deriving DecidableEq

namespace Kind

def types : Kind → List Nat
  | abs32 => [R_RISCV_32]
  | abs64 => [R_RISCV_64]
  | jal => [R_RISCV_JAL]
  | branch => [R_RISCV_BRANCH]
  | rvcBranch => [R_RISCV_RVC_BRANCH]
  | rvcJump => [R_RISCV_RVC_JUMP]
  | call => [R_RISCV_CALL, R_RISCV_CALL_PLT]

def bytes : Kind → Nat
  | abs32 | jal | branch => 4
  | abs64 | call => 8
  | rvcBranch | rvcJump => 2

/-- The address in the bytes at `off`: the number itself, or where the instructions go when
they are executed at `P`. A call clears the last bit of its target. -/
def result (k : Kind) (P off : Nat) (b : Bytes) : Word :=
  match k with
  | abs32 => BitVec.ofNat 64 (Bytes.get 4 off b)
  | abs64 => BitVec.ofNat 64 (Bytes.get 8 off b)
  | jal => plus P (immJ (Bytes.get 4 off b))
  | branch => plus P (immB (Bytes.get 4 off b))
  | rvcBranch => plus P (immCB (Bytes.get 2 off b))
  | rvcJump => plus P (immCJ (Bytes.get 2 off b))
  | call => plus P (immU (Bytes.get 4 off b) + immI (Bytes.get 4 (off + 4) b)) &&& ~~~1

def rest (k : Kind) (off : Nat) (b : Bytes) : List Nat :=
  match k with
  | abs32 | abs64 => []
  | jal => [Bytes.get 4 off b &&& 0x00000fff]
  | branch => [Bytes.get 4 off b &&& 0x01fff07f]
  | rvcBranch => [Bytes.get 2 off b &&& 0xe383]
  | rvcJump => [Bytes.get 2 off b &&& 0xe003]
  | call => [Bytes.get 4 off b &&& 0x00000fff, Bytes.get 4 (off + 4) b &&& 0x000fffff]

/-- The number `v = S + A` fits the field at `P`. -/
def Fits (k : Kind) (v : Int) (P : Nat) : Prop :=
  match k with
  | abs32 => v % 2 ^ 64 < 2 ^ 32
  | abs64 => True
  | jal => -2 ^ 20 ≤ wrap64 (v - P) ∧ wrap64 (v - P) < 2 ^ 20 ∧ (v - P) % 2 = 0
  | branch => -2 ^ 12 ≤ wrap64 (v - P) ∧ wrap64 (v - P) < 2 ^ 12 ∧ (v - P) % 2 = 0
  | rvcBranch => -2 ^ 8 ≤ wrap64 (v - P) ∧ wrap64 (v - P) < 2 ^ 8 ∧ (v - P) % 2 = 0
  | rvcJump => -2 ^ 11 ≤ wrap64 (v - P) ∧ wrap64 (v - P) < 2 ^ 11 ∧ (v - P) % 2 = 0
  | call => -2 ^ 31 - 2 ^ 11 ≤ wrap64 (v - P) ∧ wrap64 (v - P) < 2 ^ 31 - 2 ^ 11 ∧ v % 2 = 0

end Kind

theorem clear_eq_iff (a v : Int) : BitVec.ofInt 64 a &&& ~~~1 = BitVec.ofInt 64 v ↔ (a - a % 2 - v) % 2 ^ 64 = 0 := by
  have h : BitVec.ofInt 64 a &&& ~~~1 = BitVec.ofInt 64 (a - a % 2) := by
    rw [← BitVec.toNat_inj, BitVec.toNat_and, BitVec.toNat_not, BitVec.toNat_ofInt, BitVec.toNat_ofInt,
      show 2 ^ 64 - 1 - BitVec.toNat (1 : BitVec 64) = (2 ^ 63 - 1) <<< 1 from rfl, and_shifted _ 1 63 rfl,
      Nat.shiftLeft_eq]
    omega
  rw [h, ofInt_eq_iff]

/-- A call computes its target from both parts and clears the last bit. -/
theorem exact_call (v : Int) (P : Nat) : let d := v - P
    let a := P + (sext 32 (unsigned (hi20 d) / 2 ^ 12 * 2 ^ 12) + sext 12 (unsigned (d - hi20 d) % 2 ^ 12))
    (a - a % 2 - v) % 2 ^ 64 = 0 ↔ -2 ^ 31 - 2 ^ 11 ≤ wrap64 d ∧ wrap64 d < 2 ^ 31 - 2 ^ 11 ∧ v % 2 = 0 := by
  unfold sext unsigned wrap64 hi20
  omega

section
variable {o : LinkObj} {sec P off S : Nat} {s : Sym} {A : Int} {l : Link} {buf : Buffer}

theorem get_store {n v : Nat} (hv : v < 256 ^ n) : get n off ((l.store buf n off v).buf buf).bytes = v := by
  rw [store_buf, get_put, Nat.mod_eq_of_lt hv]

theorem patchAt_offset {f : Format} {m : Nat} {v : Int} (hm : m = 9 ∨ m = 12 ∨ m = 13 ∨ m = 21) (hcut : f.cut = cutOff m)
    (hsize : off + f.bytes ≤ (l.buf buf).size) :
    ∃ l', patchAt buf f.bytes off (f.patch · (v - P)) l = .ok (⟨⟩, l') ∧ l'.diags = l.diags ∧
      [get f.bytes off (l'.buf buf).bytes &&& f.keep] = [get f.bytes off (l.buf buf).bytes &&& f.keep] ∧
      (plus P (f.imm (get f.bytes off (l'.buf buf).bytes)) = BitVec.ofInt 64 v ↔
        -2 ^ (m - 1) ≤ wrap64 (v - P) ∧ wrap64 (v - P) < 2 ^ (m - 1) ∧ (v - P) % 2 = 0) := by
  refine ⟨_, patchAt_ok hsize, store_diags, ?_, ?_⟩
  · rw [get_store (f.patch_lt _ _), f.patch_rest]
  · rw [get_store (f.patch_lt _ _), f.imm_patch, plus_eq_iff, hcut, cutOff, exact_even hm]

theorem applyKind_single {type : Nat} {k : Kind} (hk : type ∈ k.types) (hsize : off + k.bytes ≤ (l.buf buf).size) :
    ∃ l', applyKind o sec type s A S P buf off l = .ok (⟨⟩, l') ∧ l'.diags = l.diags ∧
      k.rest off (l'.buf buf).bytes = k.rest off (l.buf buf).bytes ∧
      (k.result P off (l'.buf buf).bytes = BitVec.ofInt 64 (S + A) ↔ k.Fits (S + A) P) := by
  cases k with
  | abs32 =>
    obtain rfl : type = R_RISCV_32 := mem_singleton.1 hk
    have happly : applyKind o sec R_RISCV_32 s A S P buf off = patchAt buf 4 off fun _ => unsigned (S + A) := rfl
    refine ⟨_, happly ▸ patchAt_ok (n := 4) hsize, store_diags, rfl, ?_⟩
    rw [Kind.result, get_store (n := 4) (unsigned_lt _), ← BitVec.ofInt_natCast, ofInt_eq_iff, Kind.Fits]
    unfold unsigned
    omega
  | abs64 =>
    obtain rfl : type = R_RISCV_64 := mem_singleton.1 hk
    have happly : applyKind o sec R_RISCV_64 s A S P buf off = patchAt buf 8 off fun _ => ((S + A) % 2 ^ 64).toNat := rfl
    refine ⟨_, happly ▸ patchAt_ok (n := 8) hsize, store_diags, rfl, ?_⟩
    rw [Kind.result, get_store (n := 8) (by omega), ← BitVec.ofInt_natCast, ofInt_eq_iff, Kind.Fits, iff_true]
    omega
  | jal =>
    obtain rfl : type = R_RISCV_JAL := mem_singleton.1 hk
    exact patchAt_offset (f := .j) (v := S + A) (P := P) (.inr (.inr (.inr rfl))) rfl hsize
  | branch =>
    obtain rfl : type = R_RISCV_BRANCH := mem_singleton.1 hk
    exact patchAt_offset (f := .b) (v := S + A) (P := P) (.inr (.inr (.inl rfl))) rfl hsize
  | rvcBranch =>
    obtain rfl : type = R_RISCV_RVC_BRANCH := mem_singleton.1 hk
    exact patchAt_offset (f := .cb) (v := S + A) (P := P) (.inl rfl) rfl hsize
  | rvcJump =>
    obtain rfl : type = R_RISCV_RVC_JUMP := mem_singleton.1 hk
    exact patchAt_offset (f := .cj) (v := S + A) (P := P) (.inr (.inl rfl)) rfl hsize
  | call =>
    have happly : applyKind o sec type s A S P buf off = (do
        patchAt buf 4 off (patchU · (hi20 (S + A - P)))
        patchAt buf 4 (off + 4) (patchI · (S + A - P - hi20 (S + A - P)))) := by
      rcases mem_cons.1 hk with rfl | hk
      · rfl
      · obtain rfl := mem_singleton.1 hk
        rfl
    have hsize' : off + 8 ≤ (l.buf buf).size := hsize
    rw [happly, bind_ok (patchAt_ok (by omega))]
    have hhi : patchU (get 4 off (l.buf buf).bytes) (hi20 (S + A - P)) < 256 ^ 4 := Format.u.patch_lt _ _
    have hlo : ∀ x d, patchI x d < 256 ^ 4 := Format.i.patch_lt
    refine ⟨_, patchAt_ok (by rw [store_buf]; dsimp only; omega), by rw [store_diags, store_diags], ?_, ?_⟩
    · rw [Kind.rest, get_store (hlo _ _), store_buf, get_put_of_disjoint _ _ (.inl (le_refl _)),
        get_store hhi, patchU_rest, patchI_rest, store_buf, get_put_of_disjoint _ _ (.inr (le_refl _)), Kind.rest]
    · rw [Kind.result, get_store (hlo _ _), store_buf, get_put_of_disjoint _ _ (.inl (le_refl _)),
        get_store hhi, immU_patchU, immI_patchI, plus_eq, clear_eq_iff]
      exact exact_call _ _

end

/-- An object file with eight bytes of text at 384, relocations of the text from 392, symbols from 440 and names
from 512 on. -/
def Sample.object (relas syms : UInt8) (entries : List (Nat × List UInt8)) : File :=
  let fields : List (Nat × List UInt8) :=
    [(0, [0x7f, 69, 76, 70, 2, 1]), (16, [1, 0, 243]), (40, [64]), (60, [5, 0, 4]),
      (128, [3, 0, 0, 0, 1, 0, 0, 0, 6]), (152, [128, 1]), (160, [8]), (176, [4]),
      (192, [9, 0, 0, 0, 4]), (216, [136, 1]), (224, [24 * relas]), (236, [1]),
      (256, [20, 0, 0, 0, 2]), (280, [184, 1]), (288, [24 * syms]), (320, [28, 0, 0, 0, 3]), (344, [0, 2]), (352, [43]),
      (513, [102, 0] ++ ascii ".text" ++ [0] ++ ascii ".rela.text" ++ [0] ++ ascii ".symtab" ++ [0] ++
        ascii ".strtab" ++ [0] ++ ascii "_start")] ++ entries
  ⟨fun i => ((fields.find? fun f => f.1 ≤ i ∧ i < f.1 + f.2.length).map fun f => f.2.getD (i - f.1) 0).getD 0, 555⟩

end Lcc
