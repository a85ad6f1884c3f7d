import Loeux.Lcc.Evals
import Loeux.Lcc.Li
/-!
# Expressions of numbers and variables

The code of an expression of literals and variables leaves in a0 the value of the
expression with `>>` as the shift that brings in zeros, and evaluates the operands that
this value depends on.
-/

namespace Lcc

open Lib Rv64 List Option

/-! ## The words of the operators -/

section
variable {x y v : Word}

variable {P : Hart → Prop}

theorem straight_op {o : Alu} {w a b : Nat} (hdec : decode w = some (.op o 10 a b)) (hP : ∀ m, P m → o.eval (m.reg a) (m.reg b) = v) : Straight [w] P fun _ => v := by
  refine ⟨[.op o 10 a b], by rw [map_singleton, hdec]; rfl, by simp [Instr.isPlain], fun m hm => ?_⟩
  obtain ⟨m', he, hs⟩ := exec_op m o (show 10 ≠ 0 by decide) a b
  exact ⟨m', by rw [execAll_cons he, execAll], hP m hm ▸ hs⟩

theorem straight_imm {o : Alu} {w a : Nat} {imm : Int} (hdec : decode w = some (.opImm o 10 a imm)) (hP : ∀ m, P m → o.eval (m.reg a) (BitVec.ofInt 64 imm) = v) : Straight [w] P fun _ => v := by
  refine ⟨[.opImm o 10 a imm], by rw [map_singleton, hdec]; rfl, by simp [Instr.isPlain], fun m hm => ?_⟩
  obtain ⟨m', he, hs⟩ := exec_opImm m o (show 10 ≠ 0 by decide) a imm
  exact ⟨m', by rw [execAll_cons he, execAll], hP m hm ▸ hs⟩

theorem Straight.append {ws ws' : List Nat} (h : Straight ws P fun _ => x)
    (h' : Straight ws' (fun m => m.reg 10 = x) fun _ => v) : Straight (ws ++ ws') P fun _ => v := by
  obtain ⟨is, hdec, hplain, hexec⟩ := h
  obtain ⟨is', hdec', hplain', hexec'⟩ := h'
  refine ⟨is ++ is', by rw [map_append, map_append, hdec, hdec'], fun i hi => ?_, fun m hm => ?_⟩
  · exact (mem_append.1 hi).elim (hplain i) (hplain' i)
  · obtain ⟨m1, he1, hs1⟩ := hexec m hm
    obtain ⟨m2, he2, hs2⟩ := hexec' m1 hs1.own
    exact ⟨m2, by rw [execAll_append, he1, bind_some, he2], hs1.trans hs2⟩

theorem straight_rvR {o : Alu} {f7 f3 a b : Nat} (h7 : f7 < 128) (h3 : f3 < 8) (ha : a < 32) (hb : b < 32)
    (hop : decodeOp f7 f3 = some o) (hP : ∀ m, P m → o.eval (m.reg a) (m.reg b) = v) :
    Straight [rvR f7 b a f3 10 0x33] P fun _ => v := by
  refine straight_op (o := o) ?_ hP
  rw [decode_rvR h7 hb ha h3 (by decide), hop]
  rfl

theorem straight_not : Straight [rvI 1 10 4 10 0x13] (fun m => m.reg 10 = x) fun _ => x ^^^ 1 :=
  straight_imm (decode_rvI (by decide) (by decide) (by decide) (by decide)).2.2.2.2.2.1 fun m hm => by
    rw [hm]
    rfl

theorem straight_sltiu : Straight [rvI 1 10 3 10 0x13] (fun m => m.reg 10 = x) fun _ => truth (x.toInt = 0) :=
  straight_imm (decode_rvI (by decide) (by decide) (by decide) (by decide)).2.2.2.2.1 fun m hm => by
    rw [hm]
    exact zero_truth x

theorem straight_xori : Straight [rvI (-1) 10 4 10 0x13] (fun m => m.reg 10 = x) fun _ => BitVec.ofInt 64 (-x.toInt - 1) :=
  straight_imm (decode_rvI (by decide) (by decide) (by decide) (by decide)).2.2.2.2.2.1 fun m hm => by
    rw [hm, show BitVec.ofInt 64 (-1) = BitVec.allOnes 64 by decide, Alu.eval, BitVec.xor_allOnes, BitVec.not_eq_neg_add,
      Int.sub_eq_add_neg, BitVec.ofInt_add, BitVec.ofInt_neg, BitVec.ofInt_toInt, BitVec.sub_eq_add_neg]
    rfl

theorem straight_neg : Straight [rvR 0x20 10 0 0 10 0x33] (fun m => m.reg 10 = x) fun _ => BitVec.ofInt 64 (-x.toInt) := by
  refine straight_rvR (by decide) (by decide) (by decide) (by decide) rfl fun m hm => ?_
  rw [hm, Hart.reg_zero, BitVec.ofInt_neg, BitVec.ofInt_toInt]
  exact BitVec.zero_sub x

theorem straight_small {n : Int} (h : -2048 ≤ n ∧ n < 2048) : Straight [rvAddi 10 0 n] (fun _ => True) fun _ => BitVec.ofInt 64 n :=
  straight_imm (decode_rvI (by decide) (by decide) h.1 h.2).1 fun m _ => BitVec.zero_add _

theorem straight_binary {op : BinOp} (hop : op ≠ .land ∧ op ≠ .lor) {ta tb : Ty} (ha : ta.ptr = 0) (hb : tb.ptr = 0) :
    Straight (binaryWords op ta tb) (fun m => m.reg 5 = x ∧ m.reg 10 = y) fun _ => logicalBinary op x y := by
  have single : ∀ (o : Alu) (f7 f3 : Nat), f7 < 128 → f3 < 8 → decodeOp f7 f3 = some o →
      Straight [rvR f7 10 5 f3 10 0x33] (fun m => m.reg 5 = x ∧ m.reg 10 = y) fun _ => o.eval x y := by
    intro o f7 f3 h7 h3 hdec
    exact straight_rvR h7 h3 (by decide) (by decide) hdec fun m hm => by rw [hm.1, hm.2]
  have swapped : Straight [rvR 0 5 10 2 10 0x33] (fun m => m.reg 5 = x ∧ m.reg 10 = y) fun _ => truth (y.toInt < x.toInt) :=
    straight_rvR (by decide) (by decide) (by decide) (by decide) rfl fun m hm => by rw [hm.1, hm.2, slt_truth]
  have hless := single .slt 0 2 (by decide) (by decide) rfl
  have hxor := single .xor 0 4 (by decide) (by decide) rfl
  rw [slt_truth] at hless
  cases op with
  | land => exact absurd rfl hop.1
  | lor => exact absurd rfl hop.2
  | add =>
    simp only [binaryWords, ha, hb, ne_eq, not_true_eq_false, false_and, if_false, nil_append]
    have hval : logicalBinary .add x y = x + y := (add_ofInt x y).symm
    rw [hval]
    exact single .add 0 0 (by decide) (by decide) rfl
  | sub =>
    simp only [binaryWords, ha, hb, ne_eq, not_true_eq_false, false_and, if_false, nil_append]
    have hval : logicalBinary .sub x y = x - y := (sub_ofInt x y).symm
    rw [hval]
    exact single .sub 0x20 0 (by decide) (by decide) rfl
  | mul =>
    have hval : logicalBinary .mul x y = x * y := (mul_ofInt x y).symm
    rw [hval]
    exact single .mul 1 0 (by decide) (by decide) rfl
  | div =>
    have hval : logicalBinary .div x y = Alu.div.eval x y := (div_getD x y).symm
    rw [hval]
    exact single .div 1 4 (by decide) (by decide) rfl
  | rem =>
    have hval : logicalBinary .rem x y = Alu.rem.eval x y := (rem_getD x y).symm
    rw [hval]
    exact single .rem 1 6 (by decide) (by decide) rfl
  | and => exact single .and 0 7 (by decide) (by decide) rfl
  | or => exact single .or 0 6 (by decide) (by decide) rfl
  | xor => exact hxor
  | shl => exact single .sll 0 1 (by decide) (by decide) rfl
  | shr => exact single .srl 0 5 (by decide) (by decide) rfl
  | lt => exact hless
  | gt => exact swapped
  | le =>
    have h := swapped.append straight_not
    rw [truth_xor, truth_iff not_lt] at h
    exact h
  | ge =>
    have h := hless.append straight_not
    rw [truth_xor, truth_iff not_lt] at h
    exact h
  | eq =>
    have h := hxor.append straight_sltiu
    have hiff : (Alu.xor.eval x y).toInt = 0 ↔ x.toInt = y.toInt := xor_toInt x y
    rw [truth_iff hiff] at h
    exact h
  | ne =>
    have hlast : Straight [rvR 0 10 0 3 10 0x33] (fun m => m.reg 10 = x ^^^ y) fun _ => truth ((x ^^^ y).toInt ≠ 0) :=
      straight_rvR (by decide) (by decide) (by decide) (by decide) rfl fun m hm => by rw [hm, Hart.reg_zero, nonzero_truth]
    have h := hxor.append hlast
    rw [truth_iff (not_congr (xor_toInt x y))] at h
    exact h

end

/-! ## The expressions -/

/-- Numbers, variables of type char, int and long, and the operators on them. -/
def Arith (T : Nat → Symbol) : Expr → Prop
  | .int _ | .char _ => True
  | .var s ty => (T s).is_function = false ∧ (T s).type.ptr = 0 ∧ (T s).type.base ≠ .void ∧ ty = (T s).type
  | .unary op a => (op = .plus ∨ op = .minus ∨ op = .not ∨ op = .compl) ∧ Arith T a
  | .binary _ a b => Arith T a ∧ Arith T b
  | .cond a b c => Arith T a ∧ Arith T b ∧ Arith T c
  | _ => False

def vars : Expr → List Nat
  | .var s _ => [s]
  | .unary _ a => vars a
  | .binary _ a b => vars a ++ vars b
  | .cond a b c => vars a ++ vars b ++ vars c
  | _ => []

def literals : Expr → List Nat
  | .int v | .char v => [v]
  | .unary _ a => literals a
  | .binary _ a b => literals a ++ literals b
  | .cond a b c => literals a ++ literals b ++ literals c
  | _ => []

/-- How many values are on the stack at a time. -/
def depth : Expr → Nat
  | .unary _ a => depth a
  | .binary .land a b | .binary .lor a b => max (depth a) (depth b)
  | .binary _ a b => max (depth a) (1 + depth b)
  | .cond a b c => max (depth a) (max (depth b) (depth c))
  | _ => 0

/-- Where the code of the right operands of `&&` and `||` and of the branches of `?:` lies, from its
first byte to the one behind it, in the order of the text. -/
def operandsAt : Nat → Expr → Ctx → List (Nat × Nat)
  | p, .unary _ a, c => operandsAt p a c
  | p, .binary .land a b, c | p, .binary .lor a b, c =>
    let q := p + sizeOfLines (exprLines a (c.skip 2)) + 4
    let r := q + sizeOfLines (exprLines b (c.skip (2 + exprLabels a)))
    operandsAt p a (c.skip 2) ++ (q, r) :: operandsAt q b (c.skip (2 + exprLabels a))
  | p, .binary _ a b, c =>
    operandsAt p a c ++ operandsAt (p + sizeOfLines (exprLines a c) + 8) b (c.skip (exprLabels a))
  | p, .cond a b d, c =>
    let q := p + sizeOfLines (exprLines a (c.skip 2)) + 4
    let r := q + sizeOfLines (exprLines b (c.skip (2 + exprLabels a)))
    let t := r + 4 + sizeOfLines (exprLines d (c.skip (2 + (exprLabels a + exprLabels b))))
    operandsAt p a (c.skip 2) ++ (q, r) :: (operandsAt q b (c.skip (2 + exprLabels a)) ++
      (r + 4, t) :: operandsAt (r + 4) d (c.skip (2 + (exprLabels a + exprLabels b))))
  | _, _, _ => []

/-! ## Variables in memory -/

def widthOf (t : Ty) : Width :=
  match t.base with
  | .char => .byte
  | .int => .word
  | _ => .double

/-- The address of a variable: in the frame, or where its symbol is. -/
def varAddr (I : Image) (T : Nat → Symbol) (fp : Word) (s : Nat) : Nat :=
  (if (T s).stack_off ≠ 0 then fp + BitVec.ofInt 64 (T s).stack_off else BitVec.ofInt 64 (I.address (T s).name)).toNat

/-- The variable's value is in memory, apart from the bytes `lo` to `hi` that are left to the
stack, and its place in the frame is in reach. -/
structure VarAt (I : Image) (T : Nat → Symbol) (ρ : Nat → Word) (lo hi : Nat) (fp : Word) (mem : Bytes) (s : Nat) : Prop where
  off : (T s).stack_off ≠ 0 → -2048 ≤ (T s).stack_off ∧ (T s).stack_off < 2048
  fits : varAddr I T fp s + (widthOf (T s).type).bytes ≤ 2 ^ 64
  apart : varAddr I T fp s + (widthOf (T s).type).bytes ≤ lo ∨ hi ≤ varAddr I T fp s
  reads : (widthOf (T s).type).read (varAddr I T fp s) mem = ρ s

def VarsAt (I : Image) (T : Nat → Symbol) (ρ : Nat → Word) (lo hi : Nat) (vs : List Nat) (fp : Word) (mem : Bytes) : Prop :=
  ∀ s ∈ vs, VarAt I T ρ lo hi fp mem s

section
variable {I : Image} {T : Nat → Symbol} {ρ : Nat → Word} {lo hi : Nat} {vs : List Nat}

theorem varsAt_apart : Apart lo hi (VarsAt I T ρ lo hi vs) := by
  intro fp mem mem' hmem h s hs
  obtain ⟨hoff, hfits, hapart, hreads⟩ := h s hs
  refine ⟨hoff, hfits, hapart, ?_⟩
  rw [← hreads]
  exact Width.read_congr _ fun i h1 h2 => hmem i (by omega)

theorem decode_rvLoad {t : Ty} (hp : t.ptr = 0) (hb : t.base ≠ .void) {rs1 : Nat} (h1 : rs1 < 32) {off : Int}
    (hoff : -2048 ≤ off ∧ off < 2048) : decode (rvLoad (typeSize t) 10 rs1 off) = some (.load (widthOf t) 10 rs1 off) := by
  obtain ⟨-, hld, hlw, hlb, -⟩ := decode_rvI h1 (show 10 < 32 by decide) hoff.1 hoff.2
  unfold typeSize widthOf
  rw [if_neg (not_not_intro hp)]
  cases hbase : t.base with
  | void => exact absurd hbase hb
  | char => exact hlb
  | int => exact hlw
  | long => exact hld

theorem var_evals {s p : Nat} (hs : s ∈ vs) (hp : (T s).type.ptr = 0) (hb : (T s).type.base ≠ .void)
    (hinst : I.Installed p (if (T s).stack_off ≠ 0 then [.words [rvLoad (typeSize (T s).type) 10 8 (T s).stack_off]]
      else [.addr (T s) 5, .words [rvLoad (typeSize (T s).type) 10 5 0]])) :
    Evals I lo hi (VarsAt I T ρ lo hi vs) 0 p (p + sizeOfLines (if (T s).stack_off ≠ 0
      then [.words [rvLoad (typeSize (T s).type) 10 8 (T s).stack_off]]
      else [.addr (T s) 5, .words [rvLoad (typeSize (T s).type) 10 5 0]])) (ρ s) [] [] := by
  refine ⟨fun _ h => absurd h not_mem_nil, fun m hpc hS hlo hhi => ?_⟩
  obtain ⟨hoff, hfits, -, hreads⟩ := hS s hs
  by_cases hz : (T s).stack_off ≠ 0
  · rw [if_pos hz] at hinst ⊢
    have haddr : (m.addr 8 (T s).stack_off).toNat = varAddr I T (m.reg 8) s := by
      unfold varAddr
      rw [if_pos hz]
      rfl
    have hload : Straight [rvLoad (typeSize (T s).type) 10 8 (T s).stack_off] (fun m' => m' = m) fun _ => ρ s := by
      refine ⟨[_], by rw [map_singleton, decode_rvLoad hp hb (by decide) (hoff hz)]; rfl, by simp [Instr.isPlain], ?_⟩
      rintro _ rfl
      obtain ⟨m', he, hset⟩ := exec_load (widthOf (T s).type) (show 10 ≠ 0 by decide) haddr hfits
      exact ⟨m', by rw [execAll_cons he, execAll], hreads ▸ hset⟩
    obtain ⟨qs, m', hl⟩ := Leaves.words lo hload hinst.1 hpc rfl
    exact ⟨qs, m', hl, .nil⟩
  · rw [if_neg hz] at hinst ⊢
    obtain ⟨hat, hat', -⟩ := hinst
    obtain ⟨qs, m1, hruns, hset⟩ := runs_addr (by decide) hat hpc
    have haddr : (m1.addr 5 0).toNat = varAddr I T (m.reg 8) s := by
      unfold varAddr
      rw [if_neg hz, Hart.addr_zero, hset.own]
    have hload : Straight [rvLoad (typeSize (T s).type) 10 5 0] (fun m' => m' = m1) fun _ => ρ s := by
      refine ⟨[_], by rw [map_singleton, decode_rvLoad hp hb (by decide) (by decide)]; rfl, by simp [Instr.isPlain], ?_⟩
      rintro _ rfl
      obtain ⟨m', he, hset'⟩ := exec_load (widthOf (T s).type) (show 10 ≠ 0 by decide) haddr hfits
      rw [hset.mem, hreads] at hset'
      exact ⟨m', by rw [execAll_cons he, execAll], hset'⟩
    obtain ⟨qs', m', hl⟩ := Leaves.words lo hload hat' hruns.stop rfl
    refine ⟨qs ++ qs', m', ⟨hruns.trans hl.runs, hl.a0, hl.sp.trans (hset.other 2 (by decide)),
      hl.fp.trans (hset.other 8 (by decide)), fun a ha => ?_⟩, .nil⟩
    rw [hl.mem a (by rwa [hset.other 2 (by decide)]), hset.mem]

theorem li_evals {S : Word → Bytes → Prop} {bits p : Nat} (hl : Loads (liWords 10 6 (long64 bits)) 10 (BitVec.ofNat 64 bits))
    (hinst : I.Installed p [.li bits]) :
    Evals I lo hi S 0 p (p + sizeOfLines [.li bits]) (BitVec.ofInt 64 (long64 bits)) [] [] := by
  refine ⟨fun _ h => absurd h not_mem_nil, fun m hpc _ _ _ => ?_⟩
  obtain ⟨qs, m', hruns, hset⟩ := hl I p hinst.1 m hpc
  have hsize : sizeOfLines [Line.li bits] = 4 * (liWords 10 6 (long64 bits)).length := by
    rw [sizeOfLines_cons, sizeOfLines_nil]
    rfl
  rw [← ofInt_long64] at hset
  rw [hsize]
  exact ⟨qs, m', .sets hruns hset, .nil⟩

end

/-! ## The code of an expression -/

theorem evaluated_false (bin : Binary) (ρ : Nat → Word) : (e : Expr) → (p : Nat) → (c : Ctx) →
    Skips (operandsAt p e c) (evaluated bin ρ e false)
  | .null, _, _ | .int _, _, _ | .char _, _, _ | .string _, _, _ | .var _ _, _, _ | .assign _ _ _, _, _ | .call _ _ _, _, _
  | .index _ _, _, _ | .sizeof _, _, _ => .nil
  | .unary _ a, p, c => evaluated_false bin ρ a p c
  | .binary op a b, p, c => by
    cases op with
    | land | lor => exact (evaluated_false bin ρ a p _).append (.cons rfl (evaluated_false bin ρ b _ _))
    | _ => exact (evaluated_false bin ρ a p _).append (evaluated_false bin ρ b _ _)
  | .cond a b d, p, c =>
    (evaluated_false bin ρ a p _).append (.cons rfl ((evaluated_false bin ρ b _ _).append (.cons rfl (evaluated_false bin ρ d _ _))))

theorem arith_ptr {T : Nat → Symbol} : (e : Expr) → Arith T e → e.type.ptr = 0
  | .int _, _ | .char _, _ => rfl
  | .var _ _, h => by
    obtain ⟨-, hp, -, rfl⟩ := h
    exact hp
  | .unary op a, h => by
    obtain ⟨rfl | rfl | rfl | rfl, ha⟩ := h <;> exact arith_ptr a ha
  | .binary _ _ _, _ => rfl
  | .cond _ b _, h => arith_ptr b h.2.1

section
variable {op : BinOp} {a b : Expr} {c : Ctx} {p : Nat}

section

variable (hop : op ≠ .land ∧ op ≠ .lor)

include hop

theorem exprLines_binary : exprLines (.binary op a b) c =
    exprLines a c ++ [.push 10] ++ exprLines b (c.skip (exprLabels a)) ++ [.pop 5, .words (binaryWords op a.type b.type)] := by
  cases op with
  | land => exact absurd rfl hop.1
  | lor => exact absurd rfl hop.2
  | _ => rfl

theorem value_binary (bin : Binary) (ρ : Nat → Word) : value bin ρ (.binary op a b) =
    (value bin ρ a).bind fun x => (value bin ρ b).bind fun y => bin op x y := by
  cases op with
  | land => exact absurd rfl hop.1
  | lor => exact absurd rfl hop.2
  | _ => rfl

theorem evaluated_binary (bin : Binary) (ρ : Nat → Word) (on : Bool) :
    evaluated bin ρ (.binary op a b) on = evaluated bin ρ a on ++ evaluated bin ρ b on := by
  cases op with
  | land => exact absurd rfl hop.1
  | lor => exact absurd rfl hop.2
  | _ => rfl

theorem operandsAt_binary : operandsAt p (.binary op a b) c =
    operandsAt p a c ++ operandsAt (p + sizeOfLines (exprLines a c) + 8) b (c.skip (exprLabels a)) := by
  cases op with
  | land => exact absurd rfl hop.1
  | lor => exact absurd rfl hop.2
  | _ => rfl

end

theorem holds_some (x : Word) : holds (some x) = decide (x ≠ 0) := by
  show decide (x.toInt ≠ 0) = _
  exact decide_eq_decide.2 (toInt_eq_zero x).not

theorem not_holds_some (x : Word) : (!holds (some x)) = decide (x = 0) := by
  rw [holds_some, ← decide_not]
  exact decide_eq_decide.2 not_not

theorem land_value (x y : Word) : (if x.toInt = 0 then some 0 else some (truth (y.toInt ≠ 0))) =
    some (if (2 = 2 ↔ x = 0) then BitVec.ofInt 64 0 else if (2 = 2 ↔ y = 0) then BitVec.ofInt 64 0 else BitVec.ofInt 64 1) := by
  simp only [toInt_eq_zero, true_iff, truth, ne_eq]
  by_cases hx : x = 0
  · rw [if_pos hx, if_pos hx]
    rfl
  · by_cases hy : y = 0
    · rw [if_neg hx, if_neg hx, if_neg (not_not_intro hy), if_pos hy]
      rfl
    · rw [if_neg hx, if_neg hx, if_pos hy, if_neg hy]
      rfl

theorem lor_value (x y : Word) : (if x.toInt ≠ 0 then some 1 else some (truth (y.toInt ≠ 0))) =
    some (if (3 = 2 ↔ x = 0) then BitVec.ofInt 64 1 else if (3 = 2 ↔ y = 0) then BitVec.ofInt 64 1 else BitVec.ofInt 64 0) := by
  have h32 : ∀ z : Word, (3 = 2 ↔ z = 0) ↔ z ≠ 0 := fun z => by simp
  simp only [toInt_eq_zero, h32, truth, ne_eq]
  by_cases hx : x = 0
  · rw [if_neg (not_not_intro hx), if_neg (not_not_intro hx)]
    split <;> rfl
  · rw [if_pos hx, if_pos hx]
    rfl

theorem li_zero : Line.li 0 = .words [rvAddi 10 0 0] := congrArg Line.words (liWords_small 10 5 (by decide))

theorem li_one : Line.li 1 = .words [rvAddi 10 0 1] := congrArg Line.words (liWords_small 10 5 (by decide))

theorem depth_binary (hop : op ≠ .land ∧ op ≠ .lor) : depth (.binary op a b) = max (depth a) (1 + depth b) := by
  cases op with
  | land => exact absurd rfl hop.1
  | lor => exact absurd rfl hop.2
  | _ => rfl

end

section
variable {I : Image} {ρ : Nat → Word} {lo hi : Nat} {vs : List Nat}

theorem operand_evals {S : Word → Bytes → Prop} {b : Expr} {c : Ctx} {d p q : Nat} {y : Word}
    (h : Evals I lo hi S d p q y (operandsAt p b c) (evaluated logical ρ b true)) (on : Prop) [Decidable on] :
    (on → Evals I lo hi S d p q y (operandsAt p b c) (evaluated logical ρ b (decide on))) ∧
      (¬on → Skips (operandsAt p b c) (evaluated logical ρ b (decide on))) := by
  refine ⟨fun hon => ?_, fun hoff => ?_⟩
  · rw [decide_eq_true hon]
    exact h
  · rw [decide_eq_false hoff]
    exact evaluated_false logical ρ b p c

/-- The code of `a && b` and `a || b`. -/
def shortLines (a b : Expr) (c : Ctx) (kind wu ww : Nat) : List Line :=
  exprLines a (c.skip 2) ++ [.branch c.next kind] ++ exprLines b (c.skip (2 + exprLabels a)) ++
    [.branch c.next kind, .words [wu], .jump (c.next + 1), .label c.next, .words [ww], .label (c.next + 1)]

theorem arith_evals : (e : Expr) → (c : Ctx) → (p : Nat) → Arith c.table e →
    (∀ v ∈ literals e, Loads (liWords 10 6 (long64 v)) 10 (BitVec.ofNat 64 v)) → (∀ s ∈ vars e, s ∈ vs) →
    I.Installed p (exprLines e c) → 0 < sizeOfLines (exprLines e c) ∧ ∃ v, value logical ρ e = some v ∧
      Evals I lo hi (VarsAt I c.table ρ lo hi vs) (depth e) p (p + sizeOfLines (exprLines e c)) v (operandsAt p e c)
        (evaluated logical ρ e true)
  | .int bits, c, p, _, hl, _, hinst | .char bits, c, p, _, hl, _, hinst => by
    refine ⟨?_, _, rfl, li_evals (hl bits (mem_singleton.2 rfl)) hinst⟩
    rw [exprLines, sizeOfLines_cons, Line.li, words_size]
    exact Nat.add_pos_left (Nat.mul_pos (by decide) (liWords_pos 10 5 (long64 bits))) _
  | .var s ty, c, p, ha, _, hv, hinst => by
    obtain ⟨hf, hp, hb, -⟩ := ha
    rw [exprLines, if_neg (by rw [hf]; decide), nil_append] at hinst ⊢
    refine ⟨?_, _, rfl, var_evals (hv s (mem_singleton.2 rfl)) hp hb hinst⟩
    split
    · rw [sizeOfLines_cons, words_size]
      exact Nat.add_pos_left (show 0 < 4 by decide) _
    · rw [sizeOfLines_cons]
      exact Nat.add_pos_left (show 0 < 8 by decide) _
  | .unary op a, c, p, ha, hl, hv, hinst => by
    obtain ⟨hop, ha⟩ := ha
    have key : ∀ (ws : List Nat) (f : Word → Word), (∀ x, Straight ws (fun m => m.reg 10 = x) fun _ => f x) →
        I.Installed p (exprLines a c ++ [.words ws]) → 0 < sizeOfLines (exprLines a c ++ [.words ws]) ∧
        ∃ v, (value logical ρ a).map f = some v ∧ Evals I lo hi (VarsAt I c.table ρ lo hi vs) (depth a) p
          (p + sizeOfLines (exprLines a c ++ [.words ws])) v (operandsAt p a c) (evaluated logical ρ a true) := by
      intro ws f hws hinst
      obtain ⟨hia, hat, -⟩ := (I.installed_append ..).1 hinst
      obtain ⟨hpos, x, hx, hev⟩ := arith_evals a c p ha hl hv hia
      rw [sizeOfLines_append, sizeOfLines_cons, sizeOfLines_nil, Nat.add_zero, ← Nat.add_assoc]
      exact ⟨by omega, f x, by rw [hx, map_some], hev.words hat (hws x)⟩
    obtain rfl | rfl | rfl | rfl := hop
    · exact arith_evals a c p ha hl hv hinst
    · exact key _ _ (fun x => straight_neg) hinst
    · exact key _ _ (fun x => straight_sltiu) hinst
    · exact key _ _ (fun x => straight_xori) hinst
  | .binary op a b, c, p, ha, hl, hv, hinst => by
    have hla : ∀ v ∈ literals a, Loads (liWords 10 6 (long64 v)) 10 (BitVec.ofNat 64 v) := fun v h => hl v (mem_append_left _ h)
    have hlb : ∀ v ∈ literals b, Loads (liWords 10 6 (long64 v)) 10 (BitVec.ofNat 64 v) := fun v h => hl v (mem_append_right _ h)
    have hva : ∀ s ∈ vars a, s ∈ vs := fun s h => hv s (mem_append_left _ h)
    have hvb : ∀ s ∈ vars b, s ∈ vs := fun s h => hv s (mem_append_right _ h)
    by_cases hop : op ≠ .land ∧ op ≠ .lor
    · rw [exprLines_binary hop] at hinst ⊢
      simp only [I.installed_append, I.installed_cons, sizeOfLines_append, sizeOfLines_cons, sizeOfLines_nil, push_size, pop_size,
        words_size, Nat.add_zero, ← Nat.add_assoc] at hinst ⊢
      obtain ⟨⟨⟨hia, hpush, -⟩, hib⟩, hpop, hws, -⟩ := hinst
      obtain ⟨hpa, x, hx, hea⟩ := arith_evals a c p ha.1 hla hva hia
      obtain ⟨hpb, y, hy, heb⟩ := arith_evals b (c.skip (exprLabels a)) _ ha.2 hlb hvb hib
      refine ⟨by omega, logicalBinary op x y, by rw [value_binary hop, hx, hy]; rfl, ?_⟩
      rw [depth_binary hop, operandsAt_binary hop, evaluated_binary hop]
      exact hea.binary varsAt_apart hpush heb hpop hws (straight_binary hop (arith_ptr a ha.1) (arith_ptr b ha.2)) (by omega) (by omega)
    · -- the two differ in the branch and in the order of 0 and 1
      have key : ∀ (kind wu ww : Nat) {u w : Word}, Straight [wu] (fun _ => True) (fun _ => u) →
          Straight [ww] (fun _ => True) (fun _ => w) → I.Installed p (shortLines a b c kind wu ww) →
          0 < sizeOfLines (shortLines a b c kind wu ww) ∧ ∃ x y, value logical ρ a = some x ∧ value logical ρ b = some y ∧
            Evals I lo hi (VarsAt I c.table ρ lo hi vs) (max (depth a) (depth b)) p (p + sizeOfLines (shortLines a b c kind wu ww))
              (if kind = 2 ↔ x = 0 then w else if kind = 2 ↔ y = 0 then w else u) (operandsAt p (.binary .land a b) c)
              (evaluated logical ρ a true ++ decide (¬(kind = 2 ↔ x = 0)) :: evaluated logical ρ b (decide (¬(kind = 2 ↔ x = 0)))) := by
        intro kind wu ww u w hu hw hinst
        unfold shortLines at hinst ⊢
        simp only [I.installed_append, I.installed_cons, sizeOfLines_append, sizeOfLines_cons, sizeOfLines_nil, branch_size, jump_size,
          label_size, words_size, length_singleton, Nat.add_zero, ← Nat.add_assoc] at hinst ⊢
        obtain ⟨⟨⟨hia, hbr, -⟩, hib⟩, hbr', hone, hj, hlf, hzero, hle, -⟩ := hinst
        obtain ⟨hpa, x, hx, hea⟩ := arith_evals a (c.skip 2) p ha.1 hla hva hia
        obtain ⟨hpb, y, hy, heb⟩ := arith_evals b (c.skip (2 + exprLabels a)) _ ha.2 hlb hvb hib
        obtain ⟨hon, hoff⟩ := operand_evals (heb.weaken (le_max_right (depth a) _)) (¬(kind = 2 ↔ x = 0))
        exact ⟨by omega, x, y, hx, hy, (hea.weaken (le_max_left _ (depth b))).short varsAt_apart (by omega) hbr heb.inside (by omega)
          hon (fun h => hoff (not_not_intro h)) hbr' hone hu hj hlf hzero hw hle⟩
      obtain rfl | rfl : op = .land ∨ op = .lor := by
        by_cases h : op = .land
        · exact .inl h
        · exact .inr (not_not.1 fun h' => hop ⟨h, h'⟩)
      · rw [exprLines, li_zero, li_one] at hinst ⊢
        obtain ⟨hpos, x, y, hx, hy, hev⟩ := key 2 _ _ (straight_small ⟨by decide, by decide⟩) (straight_small ⟨by decide, by decide⟩) hinst
        refine ⟨hpos, _, by rw [value, hx, hy, bind_some, map_some]; exact land_value x y, ?_⟩
        rw [evaluated, hx, holds_some, Bool.true_and, ← decide_eq_decide.2 (show ¬(2 = 2 ↔ x = 0) ↔ x ≠ 0 by simp)]
        exact hev
      · rw [exprLines, li_zero, li_one] at hinst ⊢
        obtain ⟨hpos, x, y, hx, hy, hev⟩ := key 3 _ _ (straight_small ⟨by decide, by decide⟩) (straight_small ⟨by decide, by decide⟩) hinst
        refine ⟨hpos, _, by rw [value, hx, hy, bind_some, map_some]; exact lor_value x y, ?_⟩
        rw [evaluated, hx, not_holds_some, Bool.true_and, ← decide_eq_decide.2 (show ¬(3 = 2 ↔ x = 0) ↔ x = 0 by simp)]
        exact hev
  | .cond a b d, c, p, ha, hl, hv, hinst => by
    rw [exprLines] at hinst ⊢
    simp only [I.installed_append, I.installed_cons, sizeOfLines_append, sizeOfLines_cons, sizeOfLines_nil, branch_size, jump_size,
      label_size, Nat.add_zero, ← Nat.add_assoc] at hinst ⊢
    obtain ⟨⟨⟨⟨⟨hia, hbr, -⟩, hib⟩, hj, hlf, -⟩, hid⟩, hle, -⟩ := hinst
    obtain ⟨hpa, x, hx, hea⟩ := arith_evals a (c.skip 2) p ha.1
      (fun v h => hl v (mem_append_left _ (mem_append_left _ h))) (fun s h => hv s (mem_append_left _ (mem_append_left _ h))) hia
    obtain ⟨hpb, y, hy, heb⟩ := arith_evals b (c.skip (2 + exprLabels a)) _ ha.2.1
      (fun v h => hl v (mem_append_left _ (mem_append_right _ h))) (fun s h => hv s (mem_append_left _ (mem_append_right _ h))) hib
    obtain ⟨hpd, z, hz, hed⟩ := arith_evals d (c.skip (2 + (exprLabels a + exprLabels b))) _ ha.2.2
      (fun v h => hl v (mem_append_right _ h)) (fun s h => hv s (mem_append_right _ h)) hid
    have hdepth : depth (.cond a b d) = max (depth a) (max (depth b) (depth d)) := rfl
    obtain ⟨hon, hoff⟩ := operand_evals (heb.weaken (show depth b ≤ depth (.cond a b d) by omega)) (x ≠ 0)
    obtain ⟨hon', hoff'⟩ := operand_evals (hed.weaken (show depth d ≤ depth (.cond a b d) by omega)) (x = 0)
    have hres := (hea.weaken (show depth a ≤ depth (.cond a b d) by omega)).cond varsAt_apart (by omega) hbr heb.inside (by omega)
      hon (fun h => hoff (not_not_intro h)) hj hlf hed.inside (by omega) hon' (fun h => hoff' h) hle
    have hval : value logical ρ (.cond a b d) = some (if x ≠ 0 then y else z) := by
      rw [value, hx, hy, hz, bind_some]
      simp only [ne_eq, toInt_eq_zero]
      split <;> rfl
    refine ⟨by omega, _, hval, ?_⟩
    rw [operandsAt, evaluated, hx, not_holds_some, holds_some, Bool.true_and, Bool.true_and]
    exact hres

end

end Lcc
