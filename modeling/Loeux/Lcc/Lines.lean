import Loeux.Lcc.Gen
/-!
# Generated code as lines

What the generator emits for an expression is a list of lines with labels,
which follows from the tree, the symbols, the number of the next label and the labels of
the open loops. Lines and the generator are then connected: generating is emitting the
lines.
-/

namespace Lcc

open Lib List Stop

/-! ## Lines -/

inductive Line
  | words (ws : List Nat)
  | jump (label : Int)
  | branch (label : Int) (kind : Nat)
  | label (id : Int)
  /-- The pair that loads the address of a symbol. -/
  | addr (s : Symbol) (rd : Nat)
  | str (text : Text) (rd : Nat)
  | call (s : Symbol)
  | diag (msg : String)
  /-- The process ends here. -/
  | halt (h : Halt)

def Line.emit : Line → G Unit
  | .words ws => emitAll ws
  | .jump l => emitJump l
  | .branch l kind => emitBranch l kind
  | .label id => placeLabel id
  | .addr s rd => emitLoadSymAddr s rd
  | .str text rd => emitLoadStrAddr text rd
  | .call s => emitCall s
  | .diag msg => diePlain msg
  | .halt h => throw h

def emitLines : List Line → G Unit
  | [] => pure ⟨⟩
  | l :: ls => do
    l.emit
    emitLines ls

theorem emitLines_singleton (l : Line) : emitLines [l] = l.emit := by
  simp only [emitLines]
  exact bind_pure _

/-- What the lines of a tree depend on. -/
structure Ctx where
  table : Nat → Symbol
  next : Int
  ret : Int
  loops : List (Int × Int)

def Ctx.skip (c : Ctx) (k : Int) : Ctx := { c with next := c.next + k }

@[simp] theorem Ctx.skip_zero (c : Ctx) : c.skip 0 = c := by
  unfold Ctx.skip
  rw [add_zero]

theorem Ctx.skip_skip (c : Ctx) (k k' : Int) : (c.skip k).skip k' = c.skip (k + k') := by
  unfold Ctx.skip
  rw [add_assoc]

def Gen.ctx (g : Gen) : Ctx := ⟨g.table, g.next_label, g.return_label, g.loops⟩

def Gen.skip (g : Gen) (k : Int) : Gen := { g with next_label := g.next_label + k }

def Line.push (r : Nat) : Line := .words [rvAddi 2 2 (-8), rvSd r 2 0]

def Line.pop (r : Nat) : Line := .words [rvLd r 2 0, rvAddi 2 2 8]

def Line.li (bits : Nat) : Line := .words (liWords 10 6 (long64 bits))

/-! ## Expressions -/

mutual

def laddrLabels : Expr → Int
  | .index a b => exprLabels a + exprLabels b
  | _ => 0

def exprLabels : Expr → Int
  | .unary .addr a | .unary .inc a | .unary .dec a | .unary .postInc a | .unary .postDec a => laddrLabels a
  | .unary _ a => exprLabels a
  | .binary .land a b | .binary .lor a b => 2 + (exprLabels a + exprLabels b)
  | .binary _ a b => exprLabels a + exprLabels b
  | .index a b => exprLabels a + exprLabels b
  | .assign _ a b => laddrLabels a + exprLabels b
  | .call _ _ args => argsLabels args
  | .cond a b c => 2 + (exprLabels a + (exprLabels b + exprLabels c))
  | _ => 0

def argsLabels : List Expr → Int
  | [] => 0
  | a :: as => argsLabels as + exprLabels a

end

def indexLines (la lb : List Line) (size : Nat) : List Line :=
  la ++ [.push 10] ++ lb ++ [.pop 5] ++
    (if scaleShift size ≠ 0 then [.words [rvI (scaleShift size) 10 1 10 0x13]] else []) ++ [.words [rvR 0 10 5 0 10 0x33]]

def pointee (t : Ty) : Nat := typeSize { t with ptr := t.ptr - 1 }

mutual

def laddrLines : Expr → Ctx → List Line
  | .null, _ => [.halt .crash]
  | .var sym _, c =>
    (if (c.table sym).is_function then [.diag "lcc: function is not an lvalue"] else []) ++
      if (c.table sym).stack_off ≠ 0 then [.words [rvAddi 10 8 (c.table sym).stack_off]] else [.addr (c.table sym) 10]
  | .index a b, c => indexLines (exprLines a c) (exprLines b (c.skip (exprLabels a))) (pointee a.type)
  | _, _ => [.diag "lcc: expression is not an lvalue"]

def exprLines : Expr → Ctx → List Line
  | .null, _ => [.halt .crash]
  | .int value, _ | .char value, _ | .sizeof value, _ => [.li value]
  | .string text, _ => [.str text 10]
  | .var sym _, c =>
    (if (c.table sym).is_function then [.diag "lcc: bare function value is not supported"] else []) ++
      if (c.table sym).stack_off ≠ 0 then [.words [rvLoad (typeSize (c.table sym).type) 10 8 (c.table sym).stack_off]]
      else [.addr (c.table sym) 5, .words [rvLoad (typeSize (c.table sym).type) 10 5 0]]
  | .unary .addr a, c => laddrLines a c
  | .unary .deref a, c => exprLines a c ++ [.words [rvLoad (pointee a.type) 10 10 0]]
  | .unary .plus a, c => exprLines a c
  | .unary .minus a, c => exprLines a c ++ [.words [rvR 0x20 10 0 0 10 0x33]]
  | .unary .not a, c => exprLines a c ++ [.words [rvI 1 10 3 10 0x13]]
  | .unary .compl a, c => exprLines a c ++ [.words [rvI (-1) 10 4 10 0x13]]
  | .unary op a, c => laddrLines a c ++ [.words (stepWords op a.type)]
  | .binary .land a b, c =>
    exprLines a (c.skip 2) ++ [.branch c.next 2] ++ exprLines b (c.skip (2 + exprLabels a)) ++
      [.branch c.next 2, .li 1, .jump (c.next + 1), .label c.next, .li 0, .label (c.next + 1)]
  | .binary .lor a b, c =>
    exprLines a (c.skip 2) ++ [.branch c.next 3] ++ exprLines b (c.skip (2 + exprLabels a)) ++
      [.branch c.next 3, .li 0, .jump (c.next + 1), .label c.next, .li 1, .label (c.next + 1)]
  | .binary op a b, c =>
    exprLines a c ++ [.push 10] ++ exprLines b (c.skip (exprLabels a)) ++ [.pop 5, .words (binaryWords op a.type b.type)]
  | .index a b, c =>
    indexLines (exprLines a c) (exprLines b (c.skip (exprLabels a))) (pointee a.type) ++
      [.words [rvLoad (pointee a.type) 10 10 0]]
  | .assign op a b, c =>
    laddrLines a c ++ [.push 10] ++ (if op ≠ .set then [.words [rvLd 6 2 0], .push 6] else []) ++
      exprLines b (c.skip (laddrLabels a)) ++
      (if op ≠ .set then [.pop 6, .pop 5, match assignWord op with
        | some w => .words [w]
        | none => .diag "lcc: unsupported compound assignment"] else [.pop 5]) ++
      [.words [rvStore (typeSize a.type) 10 5 0]]
  | .call sym _ args, c =>
    (if MAX_ARGS < args.length then [.diag "lcc: more than 8 arguments are not supported"] else []) ++ argsLines args c ++
      (List.range args.length).map (fun i => Line.pop (10 + i)) ++ [.call (c.table sym)]
  | .cond a b d, c =>
    exprLines a (c.skip 2) ++ [.branch c.next 2] ++ exprLines b (c.skip (2 + exprLabels a)) ++
      [.jump (c.next + 1), .label c.next] ++ exprLines d (c.skip (2 + (exprLabels a + exprLabels b))) ++ [.label (c.next + 1)]

def argsLines : List Expr → Ctx → List Line
  | [], _ => []
  | a :: as, c => argsLines as c ++ exprLines a (c.skip (argsLabels as)) ++ [.push 10]

end

/-! ## What a line adds -/

def Object.ensureSym (o : Object) (s : ObjSym) : Nat × Object :=
  match o.symFind s.name with
  | some si => (si, o)
  | none => (o.syms.length, { o with syms := o.syms ++ [s] })

def Object.addSym (o : Object) (s : ObjSym) : Nat × Object :=
  match o.symFind s.name with
  | some si => (si, { o with syms := o.syms.modify si fun p => p.again s.bind s.type s.sec s.value s.size })
  | none => (o.syms.length, { o with syms := o.syms ++ [s] })

theorem objSymAdd_eq (name : Text) (bind type sec value size : Nat) (g : Gen) :
    objSymAdd name bind type sec value size g = .ok ((g.obj.addSym ⟨name, bind, type, sec, value, size⟩).1,
      { g with obj := (g.obj.addSym ⟨name, bind, type, sec, value, size⟩).2 }) := by
  unfold objSymAdd Object.addSym
  rw [bind_ok (a := g) (t := g) rfl]
  dsimp only
  cases g.obj.symFind name <;> rfl

def addrSym (s : Symbol) : ObjSym :=
  ⟨s.name, STB_GLOBAL, if s.is_function then STT_FUNC else STT_OBJECT,
    if s.defined then (if s.is_function then 1 else s.sec) else 0, s.value, s.size⟩

def callSym (s : Symbol) : ObjSym := ⟨s.name, STB_GLOBAL, STT_FUNC, if s.defined then 1 else 0, 0, 0⟩

def strSym (g : Gen) (text : Text) : ObjSym :=
  ⟨ascii ".LC" ++ putU64Dec g.next_string, STB_LOCAL, STT_OBJECT, 2, g.obj.data.length, text.length + 1⟩

def Object.loadAddr (o : Object) (si rd : Nat) : Object :=
  { o with
    text := o.text ++ [rvU 0 rd 0x37, rvAddi rd rd 0]
    text_relocs := o.text_relocs ++ [⟨4 * o.text.length, R_RISCV_HI20, si, 0⟩, ⟨4 * o.text.length + 4, R_RISCV_LO12_I, si, 0⟩] }

def Object.callPair (o : Object) (si : Nat) : Object :=
  { o with
    text := o.text ++ [rvU 0 1 0x17, rvI 0 1 0 1 0x67]
    text_relocs := o.text_relocs ++ [⟨4 * o.text.length, R_RISCV_CALL, si, 0⟩] }

def Line.run : Line → Gen → Gen
  | .words ws, g => { g with obj.text := g.obj.text ++ ws }
  | .jump l, g => { g with fixes := g.fixes ++ [⟨g.pc, l, 1⟩], obj.text := g.obj.text ++ [rvJ 0 0] }
  | .branch l kind, g => { g with
      fixes := g.fixes ++ [⟨g.pc, l, kind⟩]
      obj.text := g.obj.text ++ [rvB 0 0 10 (if kind = 2 then 0 else 1)] }
  | .label id, g => { g with labels := g.labels ++ [⟨id, g.pc⟩] }
  | .addr s rd, g =>
    let r := g.obj.ensureSym (addrSym s)
    { g with obj := r.2.loadAddr r.1 rd }
  | .str text rd, g =>
    let r := Object.addSym { g.obj with data := g.obj.data ++ (text ++ [0]) } (strSym g text)
    { g with next_string := g.next_string + 1, obj := r.2.loadAddr r.1 rd }
  | .call s, g =>
    let r := g.obj.ensureSym (callSym s)
    { g with obj := r.2.callPair r.1 }
  | .diag msg, g => { g with diags := g.diags ++ [ascii msg] }
  | .halt _, g => g

/-- The line does not end the process. -/
def Line.goes : Line → Bool
  | .halt _ => false
  | _ => true

theorem emitAddr_eq (si rd : Nat) (g : Gen) : emitAddr si rd g = .ok (⟨⟩, { g with obj := g.obj.loadAddr si rd }) := by
  unfold Object.loadAddr
  rw [append_cons g.obj.text_relocs]
  rfl

theorem addSym_new {o : Object} {s : ObjSym} (h : o.symFind s.name = none) : o.addSym s = o.ensureSym s := by
  unfold Object.addSym Object.ensureSym
  rw [h]

theorem emit_eq {l : Line} (hl : l.goes) (g : Gen) : l.emit g = .ok (⟨⟩, l.run g) := by
  cases l with
  | halt => cases hl
  | words | jump | branch | label | diag => rfl
  | addr s rd =>
    show emitLoadSymAddr s rd g = _
    unfold emitLoadSymAddr
    rw [bind_ok (a := g) (t := g) rfl]
    cases h : g.obj.symFind s.name with
    | some si =>
      have he : g.obj.ensureSym (addrSym s) = (si, g.obj) := by
        unfold Object.ensureSym
        rw [show (addrSym s).name = s.name from rfl, h]
      simp only [Line.run, he]
      exact emitAddr_eq si rd g
    | none =>
      dsimp only
      rw [bind_ok (objSymAdd_eq ..), emitAddr_eq, addSym_new h]
      rfl
  | str text rd =>
    show emitLoadStrAddr text rd g = _
    unfold emitLoadStrAddr stringSym
    rw [bind_ok (a := g) (t := g) rfl]
    simp only [bind_assoc]
    rw [bind_ok (a := g) (t := g) rfl, bind_ok (a := ⟨⟩) rfl, bind_ok (a := ⟨⟩) rfl,
      bind_ok (objSymAdd_eq ..), emitAddr_eq]
    rfl
  | call s =>
    show emitCall s g = _
    unfold emitCall
    rw [bind_ok (a := g.pc) (t := g) rfl, bind_ok (a := ⟨⟩) rfl, bind_ok rfl]
    have hf : ∀ ws, Object.symFind { g.obj with text := g.obj.text ++ ws } = g.obj.symFind := fun _ => rfl
    cases h : g.obj.symFind s.name with
    | some si =>
      have he : g.obj.ensureSym (callSym s) = (si, g.obj) := by
        unfold Object.ensureSym
        rw [show (callSym s).name = s.name from rfl, h]
      simp only [Line.run, he, hf, h]
      rfl
    | none =>
      have he : g.obj.ensureSym (callSym s) = (g.obj.syms.length, { g.obj with syms := g.obj.syms ++ [callSym s] }) := by
        unfold Object.ensureSym
        rw [show (callSym s).name = s.name from rfl, h]
      simp only [Line.run, he, hf, h]
      rw [bind_ok (objSymAdd_eq ..), addSym_new h]
      unfold Object.ensureSym
      simp only [hf, h]
      rfl

/-! ## Runs of lines -/

@[simp] theorem run_ctx (l : Line) (g : Gen) : (l.run g).ctx = g.ctx := by cases l <;> rfl

theorem run_skip (l : Line) (g : Gen) (k : Int) : l.run (g.skip k) = (l.run g).skip k := by cases l <;> rfl

def runLines (ls : List Line) (g : Gen) : Gen := ls.foldl (fun g l => l.run g) g

@[simp] theorem runLines_nil (g : Gen) : runLines [] g = g := rfl

@[simp] theorem runLines_cons (l : Line) (ls : List Line) (g : Gen) : runLines (l :: ls) g = runLines ls (l.run g) := rfl

theorem runLines_append (ls ls' : List Line) (g : Gen) : runLines (ls ++ ls') g = runLines ls' (runLines ls g) :=
  foldl_append

@[simp] theorem runLines_ctx (ls : List Line) (g : Gen) : (runLines ls g).ctx = g.ctx := by
  induction ls generalizing g with
  | nil => rfl
  | cons l ls ih => rw [runLines_cons, ih, run_ctx]

theorem runLines_skip (ls : List Line) (g : Gen) (k : Int) : runLines ls (g.skip k) = (runLines ls g).skip k := by
  induction ls generalizing g with
  | nil => rfl
  | cons l ls ih => rw [runLines_cons, run_skip, ih, runLines_cons]

/-- Where the lines end the process, if they do. -/
def firstHalt (ls : List Line) : Option Halt := ls.findSome? fun
  | .halt h => some h
  | _ => none

theorem emitLines_eq (ls : List Line) (g : Gen) : emitLines ls g = match firstHalt ls with
    | some h => .error h
    | none => .ok (⟨⟩, runLines ls g) := by
  induction ls generalizing g with
  | nil => rfl
  | cons l ls ih =>
    unfold emitLines
    by_cases hl : l.goes
    · rw [bind_ok (emit_eq hl g), ih]
      cases l <;> first | rfl | cases hl
    · cases l <;> first | rfl | exact absurd rfl hl

theorem firstHalt_append (ls ls' : List Line) : firstHalt (ls ++ ls') = (firstHalt ls).or (firstHalt ls') :=
  findSome?_append

theorem skip_skip (g : Gen) (k k' : Int) : (g.skip k).skip k' = g.skip (k + k') := by
  unfold Gen.skip
  rw [add_assoc]

theorem skip_ctx (g : Gen) (k : Int) : (g.skip k).ctx = g.ctx.skip k := rfl

/-! ## Generating is emitting -/

def Compiles (A : G Unit) (k : Int) (L : Ctx → List Line) : Prop := ∀ g, A g = emitLines (L g.ctx) (g.skip k)

namespace Compiles

variable {A B : G Unit} {k k' : Int} {L L' : Ctx → List Line}

theorem congr (h : Compiles A k L) (hk : k = k') (hL : ∀ c, L c = L' c) : Compiles A k' L' := by
  intro g
  rw [h g, hL, hk]

theorem nothing : Compiles (pure ⟨⟩) 0 fun _ => [] := by
  intro g
  unfold Gen.skip
  rw [add_zero]
  rfl

theorem line (l : Line) : Compiles l.emit 0 fun _ => [l] := by
  intro g
  unfold Gen.skip
  rw [add_zero, emitLines_singleton]

theorem seq (hA : Compiles A k L) (hB : Compiles B k' L') :
    Compiles (A >>= fun _ => B) (k + k') fun c => L c ++ L' (c.skip k) := by
  intro g
  rw [emitLines_eq, firstHalt_append, runLines_append]
  have hAg := hA g
  rw [emitLines_eq] at hAg
  cases hh : firstHalt (L g.ctx) with
  | some h =>
    rw [hh] at hAg
    rw [bind_error hAg]
    rfl
  | none =>
    rw [hh] at hAg
    rw [bind_ok hAg, hB, emitLines_eq, runLines_ctx, skip_ctx, Option.none_or, ← runLines_skip, skip_skip]

theorem newLabel {A : Int → G Unit} {L : Int → Ctx → List Line} (h : ∀ l, Compiles (A l) k (L l)) :
    Compiles (Lcc.newLabel >>= A) (1 + k) fun c => L c.next (c.skip 1) := by
  intro g
  rw [bind_ok (a := g.next_label) (t := g.skip 1) rfl, h, skip_skip]
  rfl

theorem look {A : Gen → G Unit} {L : Ctx → Ctx → List Line} (h : ∀ g, Compiles (A g) k (L g.ctx)) :
    Compiles (get >>= A) k fun c => L c c := by
  intro g
  rw [bind_ok (a := g) (t := g) rfl, h]

theorem cases (p : Prop) [Decidable p] (hA : p → Compiles A k L) (hB : ¬p → Compiles B k L') :
    Compiles (if p then A else B) k fun c => if p then L c else L' c := by
  by_cases h : p
  · simp only [if_pos h]
    exact hA h
  · simp only [if_neg h]
    exact hB h

theorem after (l : Line) (h : Compiles A k L) : Compiles (l.emit >>= fun _ => A) k fun c => l :: L c :=
  ((line l).seq h).congr (zero_add k) fun c => by rw [Ctx.skip_zero]; rfl

theorem before (l : Line) (h : Compiles A k L) : Compiles (A >>= fun _ => l.emit) k fun c => L c ++ [l] :=
  (h.seq (line l)).congr (add_zero k) fun _ => rfl

theorem line_if (p : Prop) [Decidable p] (l : Line) {J : Unit → G Unit} (h : Compiles (J ⟨⟩) k L) :
    Compiles (if p then l.emit >>= J else J ⟨⟩) k fun c => (if p then [l] else []) ++ L c :=
  (cases p (fun _ => h.after l) fun _ => h).congr rfl fun c => by
    split <;> rfl

theorem lines {α : Type} (f : α → Line) (xs : List α) : Compiles (xs.forM fun x => (f x).emit) 0 fun _ => xs.map f := by
  induction xs with
  | nil => exact nothing
  | cons x xs ih => exact ih.after (f x)

end Compiles

theorem indexAddr_compiles {ga gb : G Unit} {k k' : Int} {L L' : Ctx → List Line} (size : Nat) (ha : Compiles ga k L)
    (hb : Compiles gb k' L') : Compiles (indexAddr ga gb size) (k + k') fun c => indexLines (L c) (L' (c.skip k)) size := by
  have hshift : Compiles (if scaleShift size ≠ 0 then
        (Line.words [rvI (scaleShift size) 10 1 10 0x13]).emit >>= fun _ => emit32cg (rvR 0 10 5 0 10 0x33)
      else emit32cg (rvR 0 10 5 0 10 0x33)) 0 fun _ => _ := .line_if _ _ (J := fun _ => emit32cg _) (.line (.words _))
  refine (ha.seq (.after (.push 10) (hb.seq (.after (.pop 5) hshift)))).congr ?_ ?_
  · rw [add_zero]
  · intro c
    simp only [indexLines, append_assoc, cons_append, nil_append]

theorem shortCircuit_compiles {ga gb : G Unit} {k k' : Int} {L L' : Ctx → List Line} (kind decided : Nat)
    (ha : Compiles ga k L) (hb : Compiles gb k' L') :
    Compiles (shortCircuit ga gb kind decided) (2 + (k + k')) fun c =>
      L (c.skip 2) ++ [.branch c.next kind] ++ L' (c.skip (2 + k)) ++
        [.branch c.next kind, .li (1 - decided), .jump (c.next + 1), .label c.next, .li decided, .label (c.next + 1)] := by
  have htail : ∀ lf le : Int, Compiles ((Line.branch lf kind).emit >>= fun _ => (Line.li (1 - decided)).emit >>= fun _ =>
      (Line.jump le).emit >>= fun _ => (Line.label lf).emit >>= fun _ => (Line.li decided).emit >>= fun _ =>
      (Line.label le).emit) 0 _ := fun lf le =>
    .after _ (.after _ (.after _ (.after _ (.after _ (.line (.label le))))))
  refine (Compiles.newLabel fun lf => .newLabel fun le => ha.seq (.after (.branch lf kind) (hb.seq (htail lf le)))).congr ?_ ?_
  · ring
  · intro c
    simp only [Ctx.skip_skip, append_assoc, cons_append, nil_append]
    rfl

mutual

theorem genLaddr_compiles (e : Expr) : Compiles (genLaddr e) (laddrLabels e) (laddrLines e) := by
  match e with
  | .null => exact .line (.halt .crash)
  | .var sym _ =>
    have h : ∀ s : Symbol, Compiles (if s.is_function then (Line.diag "lcc: function is not an lvalue").emit >>= fun _ =>
          if s.stack_off ≠ 0 then emit32cg (rvAddi 10 8 s.stack_off) else emitLoadSymAddr s 10
        else if s.stack_off ≠ 0 then emit32cg (rvAddi 10 8 s.stack_off) else emitLoadSymAddr s 10) 0 _ := fun s =>
      .line_if _ _ (J := fun _ => if s.stack_off ≠ 0 then _ else _)
        (.cases _ (fun _ => .line (.words [_])) fun _ => .line (.addr s 10))
    exact fun g => h (g.table sym) g
  | .index a b => exact indexAddr_compiles _ (genExpr_compiles a) (genExpr_compiles b)
  | .int _ | .char _ | .string _ | .unary _ _ | .binary _ _ _ | .assign _ _ _ | .call _ _ _ | .cond _ _ _ | .sizeof _ =>
    exact .line (.diag _)

theorem genExpr_compiles (e : Expr) : Compiles (genExpr e) (exprLabels e) (exprLines e) := by
  match e with
  | .null => exact .line (.halt .crash)
  | .int v | .char v | .sizeof v => exact .line (.li v)
  | .string text => exact .line (.str text 10)
  | .var sym _ =>
    have h : ∀ s : Symbol, Compiles (if s.is_function then
          (Line.diag "lcc: bare function value is not supported").emit >>= fun _ =>
          if s.stack_off ≠ 0 then emit32cg (rvLoad (typeSize s.type) 10 8 s.stack_off)
          else (Line.addr s 5).emit >>= fun _ => emit32cg (rvLoad (typeSize s.type) 10 5 0)
        else if s.stack_off ≠ 0 then emit32cg (rvLoad (typeSize s.type) 10 8 s.stack_off)
          else (Line.addr s 5).emit >>= fun _ => emit32cg (rvLoad (typeSize s.type) 10 5 0)) 0 _ := fun s =>
      .line_if _ _ (J := fun _ => if s.stack_off ≠ 0 then _ else _)
        (.cases _ (fun _ => .line (.words [_])) fun _ => .after _ (.line (.words [_])))
    exact fun g => h (g.table sym) g
  | .unary op a =>
    cases op with
    | addr => exact genLaddr_compiles a
    | plus => exact genExpr_compiles a
    | deref | minus | not | compl => exact (genExpr_compiles a).before (.words [_])
    | inc | dec | postInc | postDec => exact (genLaddr_compiles a).before (.words (stepWords _ a.type))
  | .binary op a b =>
    have ha := genExpr_compiles a
    have hb := genExpr_compiles b
    have hop : Compiles (genExpr a >>= fun _ => (Line.push 10).emit >>= fun _ => genExpr b >>= fun _ =>
        (Line.pop 5).emit >>= fun _ => (Line.words (binaryWords op a.type b.type)).emit) (exprLabels a + exprLabels b) fun c =>
        exprLines a c ++ [.push 10] ++ exprLines b (c.skip (exprLabels a)) ++ [.pop 5, .words (binaryWords op a.type b.type)] :=
      (ha.seq (.after _ (hb.seq (.after _ (.line _))))).congr (by ring) fun c => by
        simp only [append_assoc, cons_append, nil_append]
    cases op with
    | land => exact shortCircuit_compiles 2 0 ha hb
    | lor => exact shortCircuit_compiles 3 1 ha hb
    | _ => exact hop
  | .index a b => exact (indexAddr_compiles _ (genExpr_compiles a) (genExpr_compiles b)).before (.words [_])
  | .assign op a b =>
    have ha := genLaddr_compiles a
    have hb := genExpr_compiles b
    have hset : Compiles (genLaddr a >>= fun _ => (Line.push 10).emit >>= fun _ => genExpr b >>= fun _ =>
        (Line.pop 5).emit >>= fun _ => (Line.words [rvStore (typeSize a.type) 10 5 0]).emit) (laddrLabels a + exprLabels b)
        fun c => laddrLines a c ++ [.push 10] ++ [] ++ exprLines b (c.skip (laddrLabels a)) ++ [.pop 5] ++
          [.words [rvStore (typeSize a.type) 10 5 0]] :=
      (ha.seq (.after _ (hb.seq (.after _ (.line _))))).congr (by ring) fun c => by
        simp only [append_assoc, cons_append, nil_append]
    have hop : ∀ l : Line, Compiles (genLaddr a >>= fun _ => (Line.push 10).emit >>= fun _ =>
        (Line.words [rvLd 6 2 0]).emit >>= fun _ => (Line.push 6).emit >>= fun _ => genExpr b >>= fun _ =>
        (Line.pop 6).emit >>= fun _ => (Line.pop 5).emit >>= fun _ => l.emit >>= fun _ =>
        (Line.words [rvStore (typeSize a.type) 10 5 0]).emit) (laddrLabels a + exprLabels b)
        fun c => laddrLines a c ++ [.push 10] ++ [.words [rvLd 6 2 0], .push 6] ++ exprLines b (c.skip (laddrLabels a)) ++
          [.pop 6, .pop 5, l] ++ [.words [rvStore (typeSize a.type) 10 5 0]] := fun l =>
      (ha.seq (.after _ (.after _ (.after _ (hb.seq (.after _ (.after _ (.after _ (.line _))))))))).congr (by ring) fun c => by
        simp only [append_assoc, cons_append, nil_append]
    cases op with
    | set => exact hset
    | shl | shr => exact hop (.diag _)
    | _ => exact hop (.words [_])
  | .call sym _ args =>
    have hcall : Compiles (get >>= fun g => emitCall (g.table sym)) 0 fun c => [.call (c.table sym)] :=
      .look (L := fun c _ => [.call (c.table sym)]) fun g => .line (.call (g.table sym))
    have hpops := Compiles.lines (fun i => Line.pop (10 + i)) (range args.length)
    refine (Compiles.line_if (MAX_ARGS < args.length) (.diag "lcc: more than 8 arguments are not supported")
      (J := fun _ => genArgs args >>= fun _ => (range args.length).forM (fun i => popReg (10 + i)) >>= fun _ => get >>= fun g => emitCall (g.table sym))
      ((genArgs_compiles args).seq (hpops.seq hcall))).congr ?_ ?_
    · simp only [exprLabels, add_zero]
    · intro c
      simp only [exprLines, append_assoc]
      rfl
  | .cond a b d =>
    have h : ∀ ln le : Int, Compiles (genExpr a >>= fun _ => (Line.branch ln 2).emit >>= fun _ => genExpr b >>= fun _ =>
        (Line.jump le).emit >>= fun _ => (Line.label ln).emit >>= fun _ => genExpr d >>= fun _ => (Line.label le).emit) _ _ :=
      fun ln le => (genExpr_compiles a).seq (.after _ ((genExpr_compiles b).seq
        (.after _ (.after _ ((genExpr_compiles d).before (.label le))))))
    refine (Compiles.newLabel fun ln => .newLabel fun le => h ln le).congr ?_ ?_
    · simp only [exprLabels]
      ring
    · intro c
      simp only [exprLines, Ctx.skip_skip, append_assoc, cons_append, nil_append, add_assoc, one_add_one_eq_two]
      rfl

theorem genArgs_compiles (es : List Expr) : Compiles (genArgs es) (argsLabels es) (argsLines es) := by
  match es with
  | [] => exact .nothing
  | a :: as =>
    refine ((genArgs_compiles as).seq ((genExpr_compiles a).before (.push 10))).congr rfl fun c => ?_
    simp only [argsLines, append_assoc]

end

/-! ## What lines are made of -/

def Line.From (table : Nat → Symbol) : Line → Prop
  | .branch _ kind => kind = 2 ∨ kind = 3
  | .addr s rd => rd < 32 ∧ ∃ i, s = table i
  | .str _ rd => rd < 32
  | .call s => ∃ i, s = table i
  | _ => True

def AllFrom (table : Nat → Symbol) (ls : List Line) : Prop := ∀ l ∈ ls, l.From table

section
variable {T : Nat → Symbol} {l : Line} {ls ls' : List Line}

@[simp] theorem allFrom_nil : AllFrom T [] := fun _ h => by cases h

@[simp] theorem allFrom_cons : AllFrom T (l :: ls) ↔ l.From T ∧ AllFrom T ls := forall_mem_cons

@[simp] theorem allFrom_append : AllFrom T (ls ++ ls') ↔ AllFrom T ls ∧ AllFrom T ls' := forall_mem_append

theorem allFrom_ite {p : Prop} [Decidable p] (h : p → AllFrom T ls) (h' : ¬p → AllFrom T ls') :
    AllFrom T (if p then ls else ls') := by
  split <;> rename_i hp
  · exact h hp
  · exact h' hp

@[simp] theorem words_from (ws : List Nat) : (Line.words ws).From T := trivial

@[simp] theorem push_from (r : Nat) : (Line.push r).From T := trivial

@[simp] theorem pop_from (r : Nat) : (Line.pop r).From T := trivial

@[simp] theorem li_from (v : Nat) : (Line.li v).From T := trivial

@[simp] theorem jump_from (lab : Int) : (Line.jump lab).From T := trivial

@[simp] theorem label_from (lab : Int) : (Line.label lab).From T := trivial

@[simp] theorem diag_from (msg : String) : (Line.diag msg).From T := trivial

@[simp] theorem halt_from (h : Halt) : (Line.halt h).From T := trivial

@[simp] theorem branch_from (lab : Int) : (Line.branch lab 2).From T ∧ (Line.branch lab 3).From T := ⟨.inl rfl, .inr rfl⟩

theorem indexLines_from {size : Nat} (ha : AllFrom T ls) (hb : AllFrom T ls') : AllFrom T (indexLines ls ls' size) := by
  have hshift : AllFrom T (if scaleShift size ≠ 0 then [.words [rvI (scaleShift size) 10 1 10 0x13]] else []) :=
    allFrom_ite (fun _ => by simp) fun _ => by simp
  simp only [indexLines, allFrom_append, ha, hb, hshift, allFrom_cons, allFrom_nil, words_from, push_from, pop_from, and_self]

end

@[simp] theorem Ctx.skip_table (c : Ctx) (k : Int) : (c.skip k).table = c.table := rfl

mutual

theorem laddrLines_from (e : Expr) (c : Ctx) : AllFrom c.table (laddrLines e c) := by
  match e with
  | .null | .int _ | .char _ | .string _ | .unary _ _ | .binary _ _ _ | .assign _ _ _ | .call _ _ _ | .cond _ _ _ | .sizeof _ =>
    simp [laddrLines]
  | .var sym _ =>
    refine allFrom_append.2 ⟨allFrom_ite (fun _ => by simp) fun _ => by simp,
      allFrom_ite (fun _ => by simp) fun _ => allFrom_cons.2 ⟨⟨by decide, sym, rfl⟩, allFrom_nil⟩⟩
  | .index a b => exact indexLines_from (exprLines_from a c) (exprLines_from b _)

theorem exprLines_from (e : Expr) (c : Ctx) : AllFrom c.table (exprLines e c) := by
  match e with
  | .null | .int _ | .char _ | .sizeof _ => simp [exprLines]
  | .string _ => exact allFrom_cons.2 ⟨show 10 < 32 by decide, allFrom_nil⟩
  | .var sym _ =>
    refine allFrom_append.2 ⟨allFrom_ite (fun _ => by simp) fun _ => by simp,
      allFrom_ite (fun _ => by simp) fun _ => allFrom_cons.2 ⟨⟨by decide, sym, rfl⟩, by simp⟩⟩
  | .unary op a =>
    have ha := exprLines_from a c
    have hl := laddrLines_from a c
    cases op <;> simp [exprLines, ha, hl]
  | .binary op a b =>
    have ha := fun k => exprLines_from a (c.skip k)
    have ha0 := exprLines_from a c
    have hb := fun k => exprLines_from b (c.skip k)
    simp only [Ctx.skip_table] at ha hb
    cases op <;> simp [exprLines, ha, ha0, hb]
  | .index a b => exact allFrom_append.2 ⟨indexLines_from (exprLines_from a c) (exprLines_from b _), by simp⟩
  | .assign op a b =>
    have ha := laddrLines_from a c
    have hb := exprLines_from b (c.skip (laddrLabels a))
    rw [Ctx.skip_table] at hb
    cases op <;> simp [exprLines, ha, hb, assignWord]
  | .call sym _ args =>
    have hargs := argsLines_from args c
    have hpops : AllFrom c.table ((range args.length).map fun i => Line.pop (10 + i)) := by
      intro l hl
      obtain ⟨i, -, rfl⟩ := mem_map.1 hl
      exact pop_from _
    have hdiag : AllFrom c.table (if MAX_ARGS < args.length then [.diag "lcc: more than 8 arguments are not supported"] else []) :=
      allFrom_ite (fun _ => by simp) fun _ => by simp
    have hcall : (Line.call (c.table sym)).From c.table := ⟨sym, rfl⟩
    simp only [exprLines, allFrom_append, allFrom_cons, allFrom_nil, and_true]
    exact ⟨⟨⟨hdiag, hargs⟩, hpops⟩, hcall⟩
  | .cond a b d =>
    have ha := fun k => exprLines_from a (c.skip k)
    have hb := fun k => exprLines_from b (c.skip k)
    have hd := fun k => exprLines_from d (c.skip k)
    simp only [Ctx.skip_table] at ha hb hd
    simp [exprLines, ha, hb, hd]

theorem argsLines_from (es : List Expr) (c : Ctx) : AllFrom c.table (argsLines es c) := by
  match es with
  | [] => exact allFrom_nil
  | a :: as =>
    have ha := exprLines_from a (c.skip (argsLabels as))
    rw [Ctx.skip_table] at ha
    simp [argsLines, argsLines_from as c, ha]

end

end Lcc
