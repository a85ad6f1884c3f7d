import Loeux.Lcc.Encode
import Loeux.Lcc.Syntax
import Loeux.Lib.Stop
/-!
# Code generation

From syntax trees to an object: `gen_expr`, `gen_stmt`, `generate_object` and what they
call. The text section is kept as its 32-bit words, four bytes each. A diagnostic is
printed and generation goes on; following a null pointer kills the process, and leaving
an array is undefined. Memory for vectors is always granted.
-/

namespace Lcc

open Lib

def STB_LOCAL : Nat := 0
def STB_GLOBAL : Nat := 1
def STT_OBJECT : Nat := 1
def STT_FUNC : Nat := 2

def R_RISCV_64 : Nat := 2
def R_RISCV_CALL : Nat := 18
def R_RISCV_HI20 : Nat := 26
def R_RISCV_LO12_I : Nat := 27

def MAX_ARGS : Nat := 8

structure ObjSym where
  name : Text
  bind : Nat
  type : Nat
  /-- 0 undefined, 1 text, 2 data, 3 bss. -/
  sec : Nat
  value : Nat
  size : Nat
  deriving DecidableEq

structure Reloc where
  offset : Nat
  type : Nat
  sym : Nat
  addend : Int
  deriving DecidableEq

structure Object where
  text : List Nat := []
  data : List UInt8 := []
  bss_size : Nat := 0
  data_align : Nat := 1
  syms : List ObjSym := []
  text_relocs : List Reloc := []
  data_relocs : List Reloc := []

structure LabelDef where
  id : Int
  off : Nat

/-- An instruction to be patched: kind 1 is a jump, the others are branches. -/
structure JumpFix where
  off : Nat
  label : Int
  kind : Nat

/-- Why the process stops. -/
inductive Halt
  /-- A null pointer was followed. -/
  | crash
  /-- An array was left. -/
  | undefined
  deriving DecidableEq

structure Gen where
  obj : Object := {}
  next_string : Nat := 0
  next_label : Int := 0
  return_label : Int := 0
  frame_size : Nat := 0
  /-- The labels of the open loops for `break` and `continue`, the innermost first. -/
  loops : List (Int × Int) := []
  labels : List LabelDef := []
  fixes : List JumpFix := []
  /-- The symbols of the parser. -/
  table : Nat → Symbol
  /-- What was printed. -/
  diags : List Text := []

abbrev G := Stop Halt Gen

def crash {α : Type} : G α := throw .crash

def diePlain (msg : String) : G Unit := modify fun g => { g with diags := g.diags ++ [ascii msg] }

/-! ## Objects -/

def alignUp (x a : Nat) : Nat := (x + a - 1) % 2 ^ 64 &&& (2 ^ 64 - 1 - (a - 1))

def Object.symFind (o : Object) (name : Text) : Option Nat := o.syms.findIdx? fun s => s.name = name

/-- The symbol `p` with the data of a second `obj_sym_add` for its name. -/
def ObjSym.again (p : ObjSym) (bind type sec value size : Nat) : ObjSym :=
  if sec ≠ 0 ∧ p.sec = 0 then { p with bind := bind, type := type, sec := sec, value := value, size := size }
  else if size ≠ 0 ∧ p.size = 0 then { p with size := size }
  else p

def objSymAdd (name : Text) (bind type sec value size : Nat) : G Nat := do
  let o := (← get).obj
  match o.symFind name with
  | some old =>
    modify fun g => { g with obj.syms := g.obj.syms.modify old fun p => p.again bind type sec value size }
    pure old
  | none =>
    modify fun g => { g with obj.syms := g.obj.syms ++ [⟨name, bind, type, sec, value, size⟩] }
    pure o.syms.length

def textReloc (off type sym : Nat) (addend : Int) : G Unit :=
  modify fun g => { g with obj.text_relocs := g.obj.text_relocs ++ [⟨off, type, sym, addend⟩] }

def dataAppend (b : List UInt8) : G Unit := modify fun g => { g with obj.data := g.obj.data ++ b }

def putU64Dec (v : Nat) : Text := (Nat.toDigits 10 v).map fun c => UInt8.ofNat c.toNat

/-! ## Emission -/

def newLabel : G Int := do
  let g ← get
  set { g with next_label := g.next_label + 1 }
  pure g.next_label

def emit32cg (x : Nat) : G Unit := modify fun g => { g with obj.text := g.obj.text ++ [x] }

def emitAll (xs : List Nat) : G Unit := modify fun g => { g with obj.text := g.obj.text ++ xs }

def Gen.pc (g : Gen) : Nat := 4 * g.obj.text.length

def cgPc : G Nat := do pure (← get).pc

def ldvAdd (id : Int) (off : Nat) : G Unit := modify fun g => { g with labels := g.labels ++ [⟨id, off⟩] }

def jfvAdd (off : Nat) (label : Int) (kind : Nat) : G Unit :=
  modify fun g => { g with fixes := g.fixes ++ [⟨off, label, kind⟩] }

/-- A jump to be patched. -/
def emitJump (label : Int) : G Unit := do
  jfvAdd (← cgPc) label 1
  emit32cg (rvJ 0 0)

/-- A branch on a0 to be patched: kind 2 is taken on zero, kind 3 otherwise. -/
def emitBranch (label : Int) (kind : Nat) : G Unit := do
  jfvAdd (← cgPc) label kind
  emit32cg (rvB 0 0 10 (if kind = 2 then 0 else 1))

def placeLabel (label : Int) : G Unit := do ldvAdd label (← cgPc)

/-- `label_off`; `none` is `~0UL`. -/
def labelOff (labels : List LabelDef) (id : Int) : Option Nat := (labels.find? fun l => l.id = id).map LabelDef.off

def fixWord (kind : Nat) (d : Int) (old : Nat) : Nat :=
  if kind = 1 then rvJ d 0 else rvB d (old >>> 20 &&& 31) (old >>> 15 &&& 31) (old >>> 12 &&& 7)

/-- A fixup whose label is missing is reported and patched as if it were at `~0UL`. -/
def patchLocalJump (f : JumpFix) : G Unit := do
  let g ← get
  match labelOff g.labels f.label with
  | some target =>
    set { g with obj.text := g.obj.text.modify (f.off / 4) (fixWord f.kind (target - f.off)) }
  | none => do
    diePlain "lcc: unresolved local label"
    modify fun g => { g with obj.text := g.obj.text.modify (f.off / 4) (fixWord f.kind (-1 - f.off)) }

def patchLocalJumps : G Unit := do (← get).fixes.forM patchLocalJump

def pushReg (r : Nat) : G Unit := emitAll [rvAddi 2 2 (-8), rvSd r 2 0]

def popReg (r : Nat) : G Unit := emitAll [rvLd r 2 0, rvAddi 2 2 8]

/-- A load of `size` bytes; other sizes are bytes. -/
def rvLoad (size rd rs1 : Nat) (imm : Int) : Nat :=
  if size = 8 then rvLd rd rs1 imm else if size = 4 then rvLw rd rs1 imm else rvLb rd rs1 imm

def rvStore (size rs2 rs1 : Nat) (imm : Int) : Nat :=
  if size = 8 then rvSd rs2 rs1 imm else if size = 4 then rvSw rs2 rs1 imm else rvSb rs2 rs1 imm

def emitAddr (si rd : Nat) : G Unit := do
  let at' ← cgPc
  emitAll [rvU 0 rd 0x37, rvAddi rd rd 0]
  textReloc at' R_RISCV_HI20 si 0
  textReloc (at' + 4) R_RISCV_LO12_I si 0

def emitLoadSymAddr (sym : Symbol) (rd : Nat) : G Unit := do
  let si ← match (← get).obj.symFind sym.name with
    | some si => pure si
    | none =>
      let sec := if sym.defined then (if sym.is_function then 1 else sym.sec) else 0
      objSymAdd sym.name STB_GLOBAL (if sym.is_function then STT_FUNC else STT_OBJECT) sec sym.value sym.size
  emitAddr si rd

/-- A string in the data section, with its symbol. -/
def stringSym (label : String) (s : Text) (off : Nat) : G Nat := do
  let g ← get
  dataAppend (s ++ [0])
  modify fun g => { g with next_string := g.next_string + 1 }
  objSymAdd (ascii label ++ putU64Dec g.next_string) STB_LOCAL STT_OBJECT 2 off (s.length + 1)

def emitLoadStrAddr (s : Text) (rd : Nat) : G Unit := do
  let si ← stringSym ".LC" s (← get).obj.data.length
  emitAddr si rd

def liWords (rd : Nat) : Nat → Int → List Nat
  | 0, _ => []
  | k + 1, x =>
    if -2048 ≤ x ∧ x ≤ 2047 then [rvAddi rd 0 x]
    else
      let hi := x / 4096
      let lo := x - hi * 4096
      liWords rd k hi ++ rvI 12 rd 1 rd 0x13 :: if lo ≠ 0 then [rvAddi rd rd lo] else []

/-- The value of a 64-bit number as a `long`. -/
def long64 (bits : Nat) : Int := if bits % 2 ^ 64 < 2 ^ 63 then (bits % 2 ^ 64 : Nat) else (bits % 2 ^ 64 : Nat) - 2 ^ 64

def emitLi64 (rd bits : Nat) : G Unit := emitAll (liWords rd 6 (long64 bits))

/-! ## Expressions -/

def scaleShift (size : Nat) : Nat := if size = 8 then 3 else if size = 4 then 2 else if size = 2 then 1 else 0

def indexAddr (ga gb : G Unit) (size : Nat) : G Unit := do
  ga
  pushReg 10
  gb
  popReg 5
  if scaleShift size ≠ 0 then emit32cg (rvI (scaleShift size) 10 1 10 0x13) else pure ⟨⟩
  emit32cg (rvR 0 10 5 0 10 0x33)

/-- The words after the operands are in x5 and a0. -/
def binaryWords (op : BinOp) (ta tb : Ty) : List Nat :=
  let scale := if ta.ptr ≠ 0 then typeSize { ta with ptr := ta.ptr - 1 }
    else if tb.ptr ≠ 0 then typeSize { tb with ptr := tb.ptr - 1 } else 0
  let scaled (r : Nat) : List Nat :=
    if 1 < scale ∧ scaleShift scale ≠ 0 then [rvI (scaleShift scale) r 1 r 0x13] else []
  let scaling := (if ta.ptr ≠ 0 ∧ tb.ptr = 0 then scaled 10 else []) ++ if tb.ptr ≠ 0 ∧ ta.ptr = 0 then scaled 5 else []
  match op with
  | .add => scaling ++ [rvR 0 10 5 0 10 0x33]
  | .sub => scaling ++ [rvR 0x20 10 5 0 10 0x33]
  | .mul => [rvR 1 10 5 0 10 0x33]
  | .div => [rvR 1 10 5 4 10 0x33]
  | .rem => [rvR 1 10 5 6 10 0x33]
  | .and => [rvR 0 10 5 7 10 0x33]
  | .or => [rvR 0 10 5 6 10 0x33]
  | .xor => [rvR 0 10 5 4 10 0x33]
  | .shl => [rvR 0 10 5 1 10 0x33]
  | .shr => [rvR 0 10 5 5 10 0x33]
  | .lt => [rvR 0 10 5 2 10 0x33]
  | .gt => [rvR 0 5 10 2 10 0x33]
  | .le => [rvR 0 5 10 2 10 0x33, rvI 1 10 4 10 0x13]
  | .ge => [rvR 0 10 5 2 10 0x33, rvI 1 10 4 10 0x13]
  | .eq => [rvR 0 10 5 4 10 0x33, rvI 1 10 3 10 0x13]
  | .ne => [rvR 0 10 5 4 10 0x33, rvR 0 10 0 3 10 0x33]
  | .land | .lor => []

/-- `&&` (kind 2) and `||` (kind 3): the second operand is skipped when the first decides. -/
def shortCircuit (ga gb : G Unit) (kind decided : Nat) : G Unit := do
  let lf ← newLabel
  let le ← newLabel
  ga
  emitBranch lf kind
  gb
  emitBranch lf kind
  emitLi64 10 (1 - decided)
  emitJump le
  placeLabel lf
  emitLi64 10 decided
  placeLabel le

def assignWord : AssignOp → Option Nat
  | .add => some (rvR 0 10 6 0 10 0x33)
  | .sub => some (rvR 0x20 10 6 0 10 0x33)
  | .mul => some (rvR 1 10 6 0 10 0x33)
  | .div => some (rvR 1 10 6 4 10 0x33)
  | .rem => some (rvR 1 10 6 6 10 0x33)
  | .and => some (rvR 0 10 6 7 10 0x33)
  | .or => some (rvR 0 10 6 6 10 0x33)
  | .xor => some (rvR 0 10 6 4 10 0x33)
  | .set | .shl | .shr => none

/-- `++` and `--`: the step, scaled for pointers. -/
def stepDelta (op : UnOp) (t : Ty) : Int :=
  let delta : Int := if op = .dec ∨ op = .postDec then -1 else 1
  if t.ptr ≠ 0 then delta * typeSize { t with ptr := t.ptr - 1 } else delta

def stepWords (op : UnOp) (t : Ty) : List Nat :=
  let post := op = .postInc ∨ op = .postDec
  let size := typeSize t
  [rvLoad size 6 5 0] ++ (if post then [rvAddi 2 2 (-8), rvSd 6 2 0] else []) ++
    [rvAddi 6 6 (stepDelta op t), rvStore size 6 5 0] ++
    if post then [rvLd 10 2 0, rvAddi 2 2 8] else [rvAddi 10 6 0]

def emitCall (sym : Symbol) : G Unit := do
  let at' ← cgPc
  emitAll [rvU 0 1 0x17, rvI 0 1 0 1 0x67]
  let si ← match (← get).obj.symFind sym.name with
    | some si => pure si
    | none => objSymAdd sym.name STB_GLOBAL STT_FUNC (if sym.defined then 1 else 0) 0 0
  textReloc at' R_RISCV_CALL si 0

mutual

def genLaddr : Expr → G Unit
  | .null => crash
  | .var sym _ => do
    let s := (← get).table sym
    if s.is_function then diePlain "lcc: function is not an lvalue" else pure ⟨⟩
    if s.stack_off ≠ 0 then emit32cg (rvAddi 10 8 s.stack_off) else emitLoadSymAddr s 10
  | .index a b => indexAddr (genExpr a) (genExpr b) (typeSize { a.type with ptr := a.type.ptr - 1 })
  | _ => diePlain "lcc: expression is not an lvalue"

def genExpr : Expr → G Unit
  | .null => crash
  | .int value | .char value | .sizeof value => emitLi64 10 value
  | .string text => emitLoadStrAddr text 10
  | .var sym _ => do
    let s := (← get).table sym
    if s.is_function then diePlain "lcc: bare function value is not supported" else pure ⟨⟩
    if s.stack_off ≠ 0 then emit32cg (rvLoad (typeSize s.type) 10 8 s.stack_off)
    else do
      emitLoadSymAddr s 5
      emit32cg (rvLoad (typeSize s.type) 10 5 0)
  | .unary .addr a => genLaddr a
  | .unary .deref a => do
    genExpr a
    emit32cg (rvLoad (typeSize { a.type with ptr := a.type.ptr - 1 }) 10 10 0)
  | .unary .plus a => genExpr a
  | .unary .minus a => do
    genExpr a
    emit32cg (rvR 0x20 10 0 0 10 0x33)
  | .unary .not a => do
    genExpr a
    emit32cg (rvI 1 10 3 10 0x13)
  | .unary .compl a => do
    genExpr a
    emit32cg (rvI (-1) 10 4 10 0x13)
  | .unary op a => do
    genLaddr a
    emitAll (stepWords op a.type)
  | .binary .land a b => shortCircuit (genExpr a) (genExpr b) 2 0
  | .binary .lor a b => shortCircuit (genExpr a) (genExpr b) 3 1
  | .binary op a b => do
    genExpr a
    pushReg 10
    genExpr b
    popReg 5
    emitAll (binaryWords op a.type b.type)
  | .index a b => do
    indexAddr (genExpr a) (genExpr b) (typeSize { a.type with ptr := a.type.ptr - 1 })
    emit32cg (rvLoad (typeSize { a.type with ptr := a.type.ptr - 1 }) 10 10 0)
  | .assign op a b => do
    genLaddr a
    pushReg 10
    if op ≠ .set then do
      emit32cg (rvLd 6 2 0)
      pushReg 6
    else pure ⟨⟩
    genExpr b
    if op ≠ .set then do
      popReg 6
      popReg 5
      match assignWord op with
      | some w => emit32cg w
      | none => diePlain "lcc: unsupported compound assignment"
    else popReg 5
    emit32cg (rvStore (typeSize a.type) 10 5 0)
  | .call sym _ args => do
    if MAX_ARGS < args.length then diePlain "lcc: more than 8 arguments are not supported" else pure ⟨⟩
    genArgs args
    (List.range args.length).forM fun i => popReg (10 + i)
    emitCall ((← get).table sym)
  | .cond a b c => do
    let ln ← newLabel
    let le ← newLabel
    genExpr a
    emitBranch ln 2
    genExpr b
    emitJump le
    placeLabel ln
    genExpr c
    placeLabel le

/-- The arguments are computed from the last to the first and pushed. -/
def genArgs : List Expr → G Unit
  | [] => pure ⟨⟩
  | a :: as => do
    genArgs as
    genExpr a
    pushReg 10

end

/-! ## Statements -/

def slotOff (slot : Nat) : Int := -24 - slot * 8

mutual

def localsOf : Stmt → List Nat
  | .decl sym _ => [sym]
  | .block body => localsOfAll body
  | .ifS _ s1 s2 => localsOf s1 ++ localsOf s2
  | .whileS _ s1 => localsOf s1
  | .forS s1 _ _ s2 => localsOf s1 ++ localsOf s2
  | _ => []

def localsOfAll : List Stmt → List Nat
  | [] => []
  | s :: ss => localsOf s ++ localsOfAll ss

end

/-- `assign_local_offsets_stmt` and `assign_param_offsets`: slots in the given order from `slot` on. -/
def assignOffsets : List Nat → Nat → (Nat → Symbol) → Nat → Symbol
  | [], _, table => table
  | s :: ss, slot, table =>
    assignOffsets ss (slot + 1) (Function.update table s { table s with stack_off := slotOff slot })

/-- The arrays of open loops have this many places. -/
def LOOPS : Nat := 128

def inLoop (break_ continue_ : Int) (body : G Unit) : G Unit := do
  let g ← get
  if LOOPS ≤ g.loops.length then throw .undefined else pure ⟨⟩
  set { g with loops := (break_, continue_) :: g.loops }
  body
  modify fun g => { g with loops := g.loops.tail }

def breakLabel (g : Gen) : Int := (g.loops.head?.map Prod.fst).getD (-1)

def continueLabel (g : Gen) : Int := (g.loops.head?.map Prod.snd).getD (-1)

def isNull : Expr → Bool
  | .null => true
  | _ => false

def genOpt (e : Expr) (code : G Unit) : G Unit := if isNull e then pure ⟨⟩ else code

mutual

def genStmt : Stmt → G Unit
  | .null => crash
  | .block body => genBody body
  | .decl sym e => genOpt e do
    genExpr e
    let s := (← get).table sym
    emit32cg (rvStore (typeSize s.type) 10 8 s.stack_off)
  | .expr e => genExpr e
  | .ifS e s1 s2 => do
    let ln ← newLabel
    let le ← newLabel
    genExpr e
    emitBranch ln 2
    genStmt s1
    match s2 with
    | .null => placeLabel ln
    | s2 => do
      emitJump le
      placeLabel ln
      genStmt s2
      placeLabel le
  | .whileS e s1 => do
    let lc ← newLabel
    let le ← newLabel
    placeLabel lc
    genExpr e
    emitBranch le 2
    inLoop le lc (genStmt s1)
    emitJump lc
    placeLabel le
  | .forS s1 e e2 s2 => do
    let lc ← newLabel
    let ls ← newLabel
    let le ← newLabel
    match s1 with
    | .null => pure ⟨⟩
    | s1 => genStmt s1
    placeLabel lc
    genOpt e do
      genExpr e
      emitBranch le 2
    inLoop le ls (genStmt s2)
    placeLabel ls
    genOpt e2 (genExpr e2)
    emitJump lc
    placeLabel le
  | .returnS e => do
    if isNull e then emitLi64 10 0 else genExpr e
    emitJump (← get).return_label
  | .breakS => do emitJump (breakLabel (← get))
  | .continueS => do emitJump (continueLabel (← get))

def genBody : List Stmt → G Unit
  | [] => pure ⟨⟩
  | s :: ss => do
    genStmt s
    genBody ss

end

/-! ## Objects from translation units -/

def setSym (sym : Nat) (f : Symbol → Symbol) : G Unit :=
  modify fun g => { g with table := Function.update g.table sym (f (g.table sym)) }

def genFunction (f : FunctionDef) : G Unit := do
  let locals := localsOf f.body
  let frame := alignUp (16 + (f.params.length + locals.length) * 8) 16
  modify fun g => { g with
    table := assignOffsets locals f.params.length (assignOffsets f.params 0 g.table)
    frame_size := frame
    labels := []
    fixes := [] }
  let value ← cgPc
  setSym f.sym fun s => { s with sec := 1, value := value }
  let name := ((← get).table f.sym).name
  let _ ← objSymAdd name STB_GLOBAL STT_FUNC 1 value 0
  emitAll [rvAddi 2 2 (-frame), rvSd 1 2 (frame - 8), rvSd 8 2 (frame - 16), rvAddi 8 2 frame]
  let table := (← get).table
  emitAll (f.params.zipIdx.map fun (p, a) => rvSd (10 + a) 8 (table p).stack_off)
  let ret ← newLabel
  modify fun g => { g with return_label := ret, loops := [] }
  genStmt f.body
  emitLi64 10 0
  placeLabel ret
  emitAll [rvAddi 2 8 (-frame), rvLd 8 2 (frame - 16), rvLd 1 2 (frame - 8), rvAddi 2 2 frame, rvI 0 1 0 0 0x67]
  let pc ← cgPc
  modify fun g => { g with
    obj.syms := match g.obj.symFind name with
      | some osi => g.obj.syms.modify osi fun p => { p with size := pc - value }
      | none => g.obj.syms }
  patchLocalJumps

end Lcc
