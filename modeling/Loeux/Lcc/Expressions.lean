import Loeux.Lcc.Arith
/-!
# Expressions against C

The code that the generator emits for an expression of numbers and variables, set against
what C gives for it. They differ in `>>`, which the generated code does without the sign.
-/

namespace Lcc

open Lib Rv64 List Stop

/-- Run from `p` to `q`, the code leaves `v` in a0, evaluates of the operands `ivs` only those that
are marked, and leaves sp, s0 and all memory from the entry sp on as they were. -/
def ExprCorrect (I : Image) (p q : Nat) (m : Hart) (v : Word) (ivs : List (Nat × Nat)) (bs : List Bool) : Prop :=
  ∃ qs m', I.Runs p m qs q m' ∧ m'.reg 10 = v ∧
    List.Forall₂ (fun iv b => b = false → ∀ x ∈ qs, ¬(iv.1 ≤ x ∧ x < iv.2)) ivs bs ∧
    m'.reg 2 = m.reg 2 ∧ m'.reg 8 = m.reg 8 ∧ ∀ a, (m.reg 2).toNat ≤ a → m'.mem a = m.mem a

/-- With `>>` as the logical shift the expression has the value that C gives, and no operand is
evaluated that C leaves out. -/
def ShiftAgrees (ρ : Nat → Word) (e : Expr) : Prop :=
  value logical ρ e = value cBinary ρ e ∧
    List.Forall₂ (fun b b' => b = true → b' = true) (evaluated logical ρ e true) (evaluated cBinary ρ e true)

/-- The generator has emitted `pre`, the code of `e` and `post`; the result stands in memory with
its jumps patched, and `p` and `q` are where the code of `e` begins and ends. -/
structure ExprCode (I : Image) (g₀ g : Gen) (pre post : List Line) (e : Expr) (c : Ctx) (p q : Nat) : Prop where
  run : (do emitLines pre; genExpr e; emitLines post) g₀ = .ok (⟨⟩, g)
  fixes : g₀.fixes = []
  relocs : ∀ r ∈ g₀.obj.text_relocs, r.stop ≤ g₀.pc
  ctx : c = g₀.ctx
  start : p = (runLines pre g₀).pc
  stop : q = p + sizeOfLines (exprLines e c)
  loaded : Loaded I (patched g) g.obj
  off : I.off = labelOff g.labels
  distinct : g.labels.Pairwise fun a b => a.id ≠ b.id
  reach : InReach I g.labels p (exprLines e c)
  small : q < 2 ^ 64

section
variable {I : Image} {g₀ g : Gen} {pre post : List Line} {e : Expr} {c : Ctx} {p q : Nat}

theorem ExprCode.lines (h : ExprCode I g₀ g pre post e c p q) :
    g = (runLines (pre ++ exprLines e c ++ post) g₀).skip (exprLabels e) := by
  obtain ⟨⟨⟩, g1, hpre, hrest⟩ := bind_eq_ok.1 h.run
  obtain ⟨⟨⟩, g2, he, hpost⟩ := bind_eq_ok.1 hrest
  have hlast : ∀ {ls : List Line} {a b : Gen}, emitLines ls a = .ok (⟨⟩, b) → b = runLines ls a := by
    intro ls a b hrun
    rw [emitLines_eq] at hrun
    split at hrun
    · cases hrun
    · cases hrun
      rfl
  obtain rfl := hlast hpre
  rw [genExpr_compiles, runLines_ctx, ← h.ctx] at he
  obtain rfl := hlast he
  obtain rfl := hlast hpost
  rw [runLines_skip, runLines_skip, ← runLines_append, ← runLines_append, append_assoc]

theorem ExprCode.installed (h : ExprCode I g₀ g pre post e c p q) : I.Installed p (exprLines e c) := by
  have hg := h.lines
  have hload := h.loaded
  have hoff := h.off
  have hd := h.distinct
  have hreach := h.reach
  rw [hg] at hload hoff hd hreach
  have hcomp : Complete I g₀ (pre ++ exprLines e c ++ post) := ⟨h.fixes, h.relocs, hload, hoff, hd⟩
  have hp : g₀.pc + sizeOfLines pre = p := by rw [h.start, runLines_pc]
  rw [← hp] at hreach ⊢
  refine hcomp.installed hreach fun l hl => ?_
  have := exprLines_from e c l hl
  cases l with
  | branch => exact this
  | addr => exact this.1
  | _ => trivial

end

section
variable {I : Image} {ρ : Nat → Word} {e : Expr} {c : Ctx} {p lo : Nat} {m : Hart} {v : Word}

theorem correct_iff (ha : Arith c.table e) (hl : ∀ v ∈ literals e, Loads (liWords 10 6 (long64 v)) 10 (BitVec.ofNat 64 v))
    (hinst : I.Installed p (exprLines e c)) (hsmall : p + sizeOfLines (exprLines e c) < 2 ^ 64) (hm : m.pc = I.loc p)
    (hvars : VarsAt I c.table ρ lo (m.reg 2).toNat (vars e) (m.reg 8) m.mem) (hroom : lo + 8 * depth e ≤ (m.reg 2).toNat)
    (hv : value cBinary ρ e = some v) :
    ExprCorrect I p (p + sizeOfLines (exprLines e c)) m v (operandsAt p e c) (evaluated cBinary ρ e true) ↔ ShiftAgrees ρ e := by
  obtain ⟨-, w, hw, hev⟩ := arith_evals e c p ha hl (fun s h => h) hinst
  obtain ⟨qs, m', hleaves, hvis⟩ := hev.leaves m hm hvars hroom (le_refl _)
  constructor
  · rintro ⟨qs', m'', hruns, hval, hout, -⟩
    obtain ⟨rfl, rfl⟩ := hruns.unique hleaves.runs hsmall
    refine ⟨?_, hvis.flags hout fun iv hiv b b' hb hb' htrue => ?_⟩
    · rw [hw, hv, ← hleaves.a0, hval]
    · by_contra hfalse
      have := (hev.inside iv hiv).2.1
      exact hb' (Bool.not_eq_true _ ▸ hfalse) iv.1 (hb.1 htrue) ⟨le_refl _, this⟩
  · rintro ⟨hval, himp⟩
    rw [hw, hv] at hval
    cases hval
    refine ⟨qs, m', hleaves.runs, hleaves.a0, hvis.parts himp fun iv b b' hb himp hfalse => ?_, hleaves.sp, hleaves.fp,
      fun a ha => hleaves.mem a (.inr ha)⟩
    refine hb.2 ?_
    cases b with
    | false => rfl
    | true => rw [himp rfl] at hfalse; cases hfalse

end

section
variable {I : Image} {g₀ g : Gen} {pre post : List Line} {e : Expr} {c : Ctx} {p q lo : Nat} {ρ : Nat → Word} {m : Hart} {v : Word}

/-- The generated code computes an expression as C does if and only if it makes no difference to
take `>>` for the logical shift. -/
theorem expr_correct_iff (hcode : ExprCode I g₀ g pre post e c p q) (ha : Arith c.table e)
    (hl : ∀ v ∈ literals e, Loads (liWords 10 6 (long64 v)) 10 (BitVec.ofNat 64 v)) (hm : m.pc = I.loc p)
    (hvars : VarsAt I c.table ρ lo (m.reg 2).toNat (vars e) (m.reg 8) m.mem) (hroom : lo + 8 * depth e ≤ (m.reg 2).toNat)
    (hv : value cBinary ρ e = some v) :
    ExprCorrect I p q m v (operandsAt p e c) (evaluated cBinary ρ e true) ↔ ShiftAgrees ρ e := by
  obtain rfl := hcode.stop
  exact correct_iff ha hl hcode.installed hcode.small hm hvars hroom hv

end

/-! ## Samples -/

instance (labels : List LabelDef) (f : JumpFix) : Decidable (f.Fits labels) :=
  match h : labelOff labels f.label with
  | none => isFalse fun ⟨q, hq, _⟩ => by
    rw [h] at hq
    cases hq
  | some q =>
    decidable_of_iff (q % 4 = f.off % 4 ∧ if f.kind = 1 then -2 ^ 20 ≤ (q : Int) - f.off ∧ (q : Int) - f.off < 2 ^ 20
        else -4096 ≤ (q : Int) - f.off ∧ (q : Int) - f.off < 4096)
      ⟨fun hq => ⟨q, h, hq⟩, fun ⟨q', h', hq⟩ => by
        rw [h] at h'
        cases h'
        exact hq⟩

/-- Generated code at address 0. -/
def Image.ofGen (g : Gen) : Image := { Image.ofWords (patched g) with off := labelOff g.labels }

theorem patched_length (g : Gen) : (patched g).length = g.obj.text.length := by
  unfold patched
  generalize g.obj.text = text
  induction g.fixes generalizing text with
  | nil => rfl
  | cons f fs ih => rw [foldl_cons, ih, applyFix, length_modify]

def fresh (T : Nat → Symbol) : Gen := { table := T }

theorem exprCode_alone {T : Nat → Symbol} {e : Expr} {g : Gen} (hg : g = (runLines (exprLines e (fresh T).ctx) (fresh T)).skip (exprLabels e))
    (hhalt : firstHalt (exprLines e (fresh T).ctx) = none) (hrel : g.obj.text_relocs = []) (hlen : 4 * g.obj.text.length < 2 ^ 64)
    (hd : g.labels.Pairwise fun a b => a.id ≠ b.id) (hj : ∀ f ∈ fixesAt 0 (exprLines e (fresh T).ctx), f.Fits g.labels)
    (hn : ∀ l ∈ exprLines e (fresh T).ctx, l.ref = none) :
    ExprCode (.ofGen g) (fresh T) g [] [] e (fresh T).ctx 0 (0 + sizeOfLines (exprLines e (fresh T).ctx)) := by
  have hno : ∀ r, r ∉ g.obj.text_relocs := fun r h => by
    rw [hrel] at h
    cases h
  refine ⟨?_, rfl, fun _ h => absurd h not_mem_nil, rfl, rfl, rfl, ⟨?_, fun r hr => absurd hr (hno r), fun r hr => absurd hr (hno r)⟩,
    rfl, hd, ⟨hj, fun l hl name hname => ?_⟩, ?_⟩
  · have he : genExpr e (fresh T) = .ok (⟨⟩, g) := by
      rw [genExpr_compiles, emitLines_eq, hhalt, hg, runLines_skip]
    exact (bind_ok he).trans rfl
  · intro i w hw _
    have hat := Image.ofWords_at (by rw [patched_length]; omega) i w hw
    rw [Nat.zero_add] at hat
    exact hat
  · rw [hn l hl] at hname
    cases hname
  · have htext : g.obj.text = codeOf (exprLines e (fresh T).ctx) := by
      rw [hg]
      exact runLines_text _ _
    rw [htext] at hlen
    rw [Nat.zero_add]
    exact hlen

namespace ExprSample

def table : Nat → Symbol := fun _ => { name := ascii "x", type := ⟨.long, 0⟩, stack_off := -24 }

def shifted : Expr := .binary .shr (.unary .minus (.int 2)) (.int 1)

def guarded : Expr := .binary .land (.binary .lt (.var 0 ⟨.long, 0⟩) (.int 7)) (.binary .shr (.var 0 ⟨.long, 0⟩) (.int 1))

def code (e : Expr) : Gen := (runLines (exprLines e (fresh table).ctx) (fresh table)).skip (exprLabels e)

/-- A hart at the beginning of the code, with the stack from 4000 down and `x = 5` at 4072. -/
def hart : Hart :=
  ⟨0, fun r => if r = 2 then 4000 else if r = 8 then 4096 else 0, Width.double.write 4072 5 Bytes.zero⟩

theorem loads_literals {e : Expr} (h : ∀ v ∈ literals e, liLoss 6 (long64 v) = 0) :
    ∀ v ∈ literals e, Loads (liWords 10 6 (long64 v)) 10 (BitVec.ofNat 64 v) :=
  fun v hv => loads_of_loss (by decide) (by decide) (h v hv)

theorem shifted_code : ExprCode (.ofGen (code shifted)) (fresh table) (code shifted) [] [] shifted (fresh table).ctx 0
    (0 + sizeOfLines (exprLines shifted (fresh table).ctx)) :=
  exprCode_alone rfl (by decide +kernel) (by decide +kernel) (by decide +kernel) (by decide +kernel) (by decide +kernel) (by decide +kernel)

theorem guarded_code : ExprCode (.ofGen (code guarded)) (fresh table) (code guarded) [] [] guarded (fresh table).ctx 0
    (0 + sizeOfLines (exprLines guarded (fresh table).ctx)) :=
  exprCode_alone rfl (by decide +kernel) (by decide +kernel) (by decide +kernel) (by decide +kernel) (by decide +kernel) (by decide +kernel)

/-- C gives -1 for `-2 >> 1`, and the code leaves another number. -/
theorem shifted_wrong : value cBinary (fun _ => 5) shifted = some (-1) ∧
    ExprCode (.ofGen (code shifted)) (fresh table) (code shifted) [] [] shifted (fresh table).ctx 0
      (0 + sizeOfLines (exprLines shifted (fresh table).ctx)) ∧
    ¬ExprCorrect (.ofGen (code shifted)) 0 (0 + sizeOfLines (exprLines shifted (fresh table).ctx)) hart (-1)
      (operandsAt 0 shifted (fresh table).ctx) (evaluated cBinary (fun _ => 5) shifted true) := by
  have hval : value cBinary (fun _ => 5) shifted = some (-1) := by decide +kernel
  have harith : Arith (fresh table).ctx.table shifted := ⟨⟨.inr (.inl rfl), trivial⟩, trivial⟩
  refine ⟨hval, shifted_code, fun h => ?_⟩
  have hagree := (@correct_iff _ (fun _ => 5) _ _ _ 0 hart _ harith (loads_literals (by decide +kernel)) shifted_code.installed
    shifted_code.small rfl (fun _ h => absurd h not_mem_nil) (by decide +kernel) hval).1 h
  exact absurd hagree.1 (by decide +kernel)

theorem hart_vars : VarsAt (.ofGen (code guarded)) table (fun _ => 5) 0 (hart.reg 2).toNat (vars guarded) (hart.reg 8) hart.mem := by
  intro s hs
  obtain rfl : s = 0 := by simpa [guarded, vars] using hs
  have haddr : varAddr (.ofGen (code guarded)) table (hart.reg 8) 0 = 4072 := by decide +kernel
  refine ⟨fun _ => ⟨by decide, by decide⟩, ?_, ?_, ?_⟩
  · rw [haddr]
    decide
  · rw [haddr]
    exact .inr (by decide)
  · rw [haddr]
    exact Width.read_write 4072 5 Bytes.zero

theorem guarded_right : value cBinary (fun _ => 5) guarded = some 1 ∧
    ExprCorrect (.ofGen (code guarded)) 0 (0 + sizeOfLines (exprLines guarded (fresh table).ctx)) hart 1
      (operandsAt 0 guarded (fresh table).ctx) (evaluated cBinary (fun _ => 5) guarded true) := by
  have hval : value cBinary (fun _ => 5) guarded = some 1 := by decide +kernel
  have harith : Arith (fresh table).ctx.table guarded := by
    refine ⟨⟨⟨rfl, rfl, ?_, rfl⟩, trivial⟩, ⟨rfl, rfl, ?_, rfl⟩, trivial⟩ <;> decide
  have hagree : ShiftAgrees (fun _ => 5) guarded := by
    refine ⟨by decide +kernel, ?_⟩
    have h1 : evaluated logical (fun _ => 5) guarded true = [true] := by decide +kernel
    have h2 : evaluated cBinary (fun _ => 5) guarded true = [true] := by decide +kernel
    rw [h1, h2]
    exact .cons id .nil
  exact ⟨hval, (@expr_correct_iff _ _ _ _ _ _ _ _ _ 0 _ _ _ guarded_code harith (loads_literals (by decide +kernel)) rfl hart_vars
    (by decide +kernel) hval).2 hagree⟩

end ExprSample

end Lcc
