import Loeux.Lcc.Install
/-!
# Local jumps

`patch_local_jumps` puts the distance to its label into every jump of a function, and
does not look whether it fits. Whatever the function is made of, its code is lines, so a
jump goes to its label exactly if the distance fits the field.
-/
open Lib Rv64 List Stop Option

namespace Lcc

def jumpTarget (off w : Nat) : Option Int :=
  match decode w with
  | some (.jal _ d) | some (.beq _ _ d) | some (.bne _ _ d) => some (off + d)
  | _ => none

def JumpFix.Reaches (g : Gen) (f : JumpFix) : Prop :=
  ∃ w q : Nat, g.obj.text[f.off / 4]? = some w ∧ labelOff g.labels f.label = some q ∧ jumpTarget f.off w = some (q : Int)

/-- The compiler says that the label is missing. -/
def JumpFix.Reported (g : Gen) (f : JumpFix) : Prop :=
  labelOff g.labels f.label = none ∧ ascii "lcc: unresolved local label" ∈ g.diags

/-! ## A function is made of lines -/

/-- From `g` to `g'`, lines were emitted. -/
def Emits (g g' : Gen) : Prop := ∃ ls : List Line, g'.obj.text = g.obj.text ++ codeOf ls ∧
  g'.labels = g.labels ++ labelsAt g.pc ls ∧ g'.fixes = g.fixes ++ fixesAt g.pc ls

theorem Emits.same {g g' : Gen} (ht : g'.obj.text = g.obj.text) (hl : g'.labels = g.labels) (hf : g'.fixes = g.fixes) :
    Emits g g' :=
  ⟨[], by rw [ht]; exact (append_nil _).symm, by rw [hl]; exact (append_nil _).symm, by rw [hf]; exact (append_nil _).symm⟩

theorem Emits.lines (g : Gen) (ls : List Line) : Emits g (runLines ls g) :=
  ⟨ls, runLines_text ls g, runLines_labels ls g, runLines_fixes ls g⟩

theorem Emits.trans {g g' g'' : Gen} (h : Emits g g') (h' : Emits g' g'') : Emits g g'' := by
  obtain ⟨ls, ht, hl, hf⟩ := h
  obtain ⟨ls', ht', hl', hf'⟩ := h'
  have hpc : g'.pc = g.pc + sizeOfLines ls := by
    rw [Gen.pc, ht, length_append, Nat.mul_add]
    rfl
  refine ⟨ls ++ ls', ?_, ?_, ?_⟩
  · rw [ht', ht, codeOf_append, append_assoc]
  · rw [hl', hl, hpc, labelsAt_append, append_assoc]
  · rw [hf', hf, hpc, fixesAt_append, append_assoc]

/-- The action emits lines, if it returns. -/
def Adds {α : Type} (m : G α) : Prop := ∀ g, wp (fun _ => True) m (fun _ g' => Emits g g') g

section
variable {α β : Type} {m : G α} {f : α → G β}

theorem wp_adds {g0 g : Gen} {Q : β → Gen → Prop} (h : Emits g0 g) (hm : Adds m)
    (hf : ∀ a g', Emits g0 g' → wp (fun _ => True) (f a) Q g') : wp (fun _ => True) (m >>= f) Q g :=
  (wp_bind m f).2 (wp_mono (hm g) fun a g' h' => hf a g' (h.trans h'))

theorem Adds.bind (hm : Adds m) (hf : ∀ a, Adds (f a)) : Adds (m >>= f) := fun g =>
  wp_adds (Emits.lines g []) hm fun a g' h => wp_mono (hf a g') fun _ _ h' => h.trans h'

theorem Adds.pure (a : α) : Adds (Pure.pure a : G α) := fun g => Emits.lines g []

theorem Adds.throw (h : Halt) : Adds (MonadExcept.throw h : G α) := fun _ => trivial

theorem Adds.get {f : Gen → G β} (hf : ∀ g, wp (fun _ => True) (f g) (fun _ g' => Emits g g') g) :
    Adds (MonadState.get >>= f) := fun g => (wp_bind _ f).2 (hf g)

theorem Adds.line (l : Line) (h : l.goes) : Adds l.emit := fun g => by
  unfold wp
  rw [emit_eq h g]
  exact Emits.lines g [l]

theorem Adds.newLabel : Adds newLabel := fun _ => Emits.same rfl rfl rfl

end

theorem genExpr_adds (e : Expr) : Adds (genExpr e) := by
  intro g
  unfold wp
  rw [genExpr_compiles e g, emitLines_eq]
  cases firstHalt (exprLines e g.ctx) with
  | none => exact (Emits.same rfl rfl rfl : Emits g (g.skip _)).trans (Emits.lines _ _)
  | some h => trivial

theorem genOpt_adds (e : Expr) {code : G Unit} (h : Adds code) : Adds (genOpt e code) := by
  unfold genOpt
  split_ifs
  · exact .pure _
  · exact h

theorem inLoop_adds (b c : Int) {body : G Unit} (h : Adds body) : Adds (inLoop b c body) := by
  intro g
  unfold inLoop
  rw [wp_bind, wp_get]
  split_ifs
  · trivial
  show wp _ (body >>= fun _ => modify fun g => { g with loops := g.loops.tail }) _ { g with loops := (b, c) :: g.loops }
  refine (wp_bind _ _).2 (wp_mono (h _) fun _ g' hg => ?_)
  exact (Emits.same rfl rfl rfl).trans (hg.trans (Emits.same rfl rfl rfl))

mutual

theorem genStmt_adds (s : Stmt) : Adds (genStmt s) := by
  have hjump : ∀ l, Adds (emitJump l) := fun l => .line (.jump l) rfl
  have hplace : ∀ l, Adds (placeLabel l) := fun l => .line (.label l) rfl
  match s with
  | .null => exact .throw _
  | .block body => exact genBody_adds body
  | .decl sym e =>
    refine genOpt_adds e ((genExpr_adds e).bind fun _ => .get fun g => ?_)
    exact Adds.line (.words [_]) rfl g
  | .expr e => exact genExpr_adds e
  | .ifS e s1 s2 =>
    have hthen : ∀ k : Int → Int → G Unit, (∀ ln le, Adds (k ln le)) → Adds (newLabel >>= fun ln => newLabel >>= fun le =>
        genExpr e >>= fun _ => emitBranch ln 2 >>= fun _ => genStmt s1 >>= fun _ => k ln le) := fun k hk =>
      .bind .newLabel fun ln => .bind .newLabel fun le => (genExpr_adds e).bind fun _ =>
        .bind (.line (.branch ln 2) rfl) fun _ => (genStmt_adds s1).bind fun _ => hk ln le
    have helse := fun ln le => (hjump le).bind fun _ => (hplace ln).bind fun _ => (genStmt_adds s2).bind fun _ => hplace le
    cases s2 with
    | null => exact hthen _ fun ln _ => hplace ln
    | _ => exact hthen _ helse
  | .whileS e s1 =>
    exact .bind .newLabel fun lc => .bind .newLabel fun le => (hplace lc).bind fun _ => (genExpr_adds e).bind fun _ =>
      .bind (.line (.branch le 2) rfl) fun _ => (inLoop_adds le lc (genStmt_adds s1)).bind fun _ => (hjump lc).bind fun _ => hplace le
  | .forS s1 e e2 s2 =>
    have hrest : ∀ lc ls le, Adds (placeLabel lc >>= fun _ => (genOpt e (genExpr e >>= fun _ => emitBranch le 2)) >>= fun _ =>
        inLoop le ls (genStmt s2) >>= fun _ => placeLabel ls >>= fun _ => genOpt e2 (genExpr e2) >>= fun _ =>
        emitJump lc >>= fun _ => placeLabel le) := fun lc ls le =>
      (hplace lc).bind fun _ => (genOpt_adds e ((genExpr_adds e).bind fun _ => .line (.branch le 2) rfl)).bind fun _ =>
        (inLoop_adds le ls (genStmt_adds s2)).bind fun _ => (hplace ls).bind fun _ =>
        (genOpt_adds e2 (genExpr_adds e2)).bind fun _ => (hjump lc).bind fun _ => hplace le
    have hinit := genStmt_adds s1
    cases s1 with
    | null => exact .bind .newLabel fun lc => .bind .newLabel fun ls => .bind .newLabel fun le => hrest lc ls le
    | _ => exact .bind .newLabel fun lc => .bind .newLabel fun ls => .bind .newLabel fun le => hinit.bind fun _ => hrest lc ls le
  | .returnS e =>
    have hend : Adds (MonadState.get >>= fun g : Gen => emitJump g.return_label) := .get fun g => hjump _ g
    show Adds (if isNull e then emitLi64 10 0 >>= fun _ => _ else genExpr e >>= fun _ => _)
    split_ifs
    · exact .bind (.line (.words _) rfl) fun _ => hend
    · exact (genExpr_adds e).bind fun _ => hend
  | .breakS => exact .get fun g => hjump _ g
  | .continueS => exact .get fun g => hjump _ g

theorem genBody_adds (ss : List Stmt) : Adds (genBody ss) := by
  match ss with
  | [] => exact .pure _
  | s :: ss => exact (genStmt_adds s).bind fun _ => genBody_adds ss

end

/-! ## Patching -/

theorem patchLocalJumps_eq (fs : List JumpFix) (g : Gen) : ∃ g', fs.forM patchLocalJump g = .ok (⟨⟩, g') ∧
    g'.obj.text = fs.foldl (applyFix g.labels) g.obj.text ∧ g'.labels = g.labels ∧ g'.fixes = g.fixes ∧ g.diags ⊆ g'.diags ∧
    ∀ f ∈ fs, labelOff g.labels f.label = none → ascii "lcc: unresolved local label" ∈ g'.diags := by
  induction fs generalizing g with
  | nil => exact ⟨g, rfl, rfl, rfl, rfl, fun _ h => h, fun _ hf => absurd hf not_mem_nil⟩
  | cons f fs ih =>
    have hone : ∃ g1, patchLocalJump f g = .ok (⟨⟩, g1) ∧ g1.obj.text = applyFix g.labels g.obj.text f ∧ g1.labels = g.labels ∧
        g1.fixes = g.fixes ∧ g.diags ⊆ g1.diags ∧
        (labelOff g.labels f.label = none → ascii "lcc: unresolved local label" ∈ g1.diags) := by
      unfold applyFix fixTarget
      cases hl : labelOff g.labels f.label with
      | some q =>
        refine ⟨{ g with obj.text := g.obj.text.modify (f.off / 4) (fixWord f.kind (q - f.off)) }, ?_, rfl, rfl, rfl,
          fun _ h => h, fun h => absurd h (some_ne_none q)⟩
        unfold patchLocalJump
        refine (bind_ok (rfl : (MonadState.get : G Gen) g = .ok (g, g))).trans ?_
        simp only [hl]
        rfl
      | none =>
        refine ⟨{ g with
            diags := g.diags ++ [ascii "lcc: unresolved local label"]
            obj.text := g.obj.text.modify (f.off / 4) (fixWord f.kind (-1 - f.off)) }, ?_, rfl, rfl, rfl,
          fun _ h => mem_append_left _ h, fun _ => mem_append_right _ mem_cons_self⟩
        unfold patchLocalJump
        refine (bind_ok (rfl : (MonadState.get : G Gen) g = .ok (g, g))).trans ?_
        simp only [hl]
        rfl
    obtain ⟨g1, h1, ht, hlab, hfix, hd, hm⟩ := hone
    obtain ⟨g', h', ht', hlab', hfix', hd', hm'⟩ := ih g1
    rw [hlab] at ht' hlab' hm'
    refine ⟨g', (bind_ok h1).trans h', by rw [ht', ht, foldl_cons], hlab', hfix'.trans hfix, fun _ h => hd' (hd h), ?_⟩
    intro f' hf' hnone
    rcases mem_cons.1 hf' with rfl | hf'
    · exact hd' (hm hnone)
    · exact hm' f' hf' hnone

theorem objSymAdd_adds (name : Text) (bind type sec value size : Nat) : Adds (objSymAdd name bind type sec value size) :=
  .get fun g => by
    dsimp only
    split
    · exact Emits.same rfl rfl rfl
    · exact Emits.same rfl rfl rfl

theorem genFunction_lines {fd : FunctionDef} {g g' : Gen} (h : genFunction fd g = .ok (⟨⟩, g')) :
    ∃ g1 g2, g1.labels = [] ∧ g1.fixes = [] ∧ Emits g1 g2 ∧ patchLocalJumps g2 = .ok (⟨⟩, g') := by
  have hpc : Adds cgPc := fun g => Emits.lines g []
  have hget : Adds (MonadState.get : G Gen) := fun g => Emits.lines g []
  have hwords : ∀ ws, Adds (emitAll ws) := fun ws => .line (.words ws) rfl
  refine of_wp (E := fun _ => True) (Q := fun _ g' => ∃ g1 g2, g1.labels = [] ∧ g1.fixes = [] ∧ Emits g1 g2 ∧
    patchLocalJumps g2 = .ok (⟨⟩, g')) ?_ h
  unfold genFunction
  rw [wp_bind, wp_modify]
  refine wp_adds (Emits.lines _ []) hpc fun value _ h => ?_
  refine wp_adds h (fun _ => Emits.same rfl rfl rfl) fun _ _ h => wp_adds h hget fun _ _ h => ?_
  refine wp_adds h (objSymAdd_adds _ _ _ _ _ _) fun _ _ h => wp_adds h (hwords _) fun _ _ h => ?_
  refine wp_adds h hget fun _ _ h => wp_adds h (hwords _) fun _ _ h => wp_adds h .newLabel fun ret _ h => ?_
  refine wp_adds h (fun _ => Emits.same rfl rfl rfl) fun _ _ h => wp_adds h (genStmt_adds fd.body) fun _ _ h => ?_
  refine wp_adds h (hwords _) fun _ _ h => wp_adds h (.line (.label ret) rfl) fun _ _ h => ?_
  refine wp_adds h (hwords _) fun _ _ h => wp_adds h hpc fun _ _ h => ?_
  refine wp_adds h (fun _ => Emits.same rfl rfl rfl) fun _ g2 h => ?_
  unfold wp
  cases hp : patchLocalJumps g2 with
  | ok r => exact ⟨_, g2, rfl, rfl, h, hp⟩
  | error e => trivial

/-! ## Where the jumps go -/

theorem fixes_split {p : Nat} {ls : List Line} {f : JumpFix} (hf : f ∈ fixesAt p ls) :
    ∃ pre l post, ls = pre ++ l :: post ∧ f ∈ l.fixes (p + sizeOfLines pre) := by
  induction ls generalizing p with
  | nil => cases hf
  | cons l ls ih =>
    rcases mem_append.1 hf with h | h
    · exact ⟨[], l, ls, rfl, h⟩
    · obtain ⟨pre, l', post, rfl, h'⟩ := ih h
      refine ⟨l :: pre, l', post, rfl, ?_⟩
      rwa [sizeOfLines_cons, ← Nat.add_assoc]

theorem labels_mod {p : Nat} {ls : List Line} {d : LabelDef} (hd : d ∈ labelsAt p ls) : d.off % 4 = p % 4 := by
  induction ls generalizing p with
  | nil => cases hd
  | cons l ls ih =>
    rcases mem_append.1 hd with h | h
    · cases l with
      | label => rw [mem_singleton.1 h]
      | _ => cases h
    · have : l.size % 4 = 0 := Nat.mul_mod_right 4 _
      rw [ih h]
      omega

theorem jumpTarget_fix {l : Line} {p : Nat} {f : JumpFix} (hf : f ∈ l.fixes p) : ∃ w, l.fixes p = [f] ∧ f.off = p ∧
    l.code[0]? = some w ∧ ∀ d, jumpTarget f.off (fixWord f.kind d w) = some (f.off + cutOff (if f.kind = 1 then 21 else 13) d) := by
  cases l with
  | jump lab =>
    obtain rfl := mem_singleton.1 hf
    refine ⟨_, rfl, rfl, rfl, fun d => ?_⟩
    simp only [jumpTarget, decode_fixJump, if_pos]
  | branch lab kind =>
    obtain rfl := mem_singleton.1 hf
    refine ⟨_, rfl, rfl, rfl, fun d => ?_⟩
    by_cases hk : kind = 1
    · subst hk
      simp only [jumpTarget, decode_fixJump, if_pos]
    · split_ifs
      · simp only [jumpTarget, (decode_fixBranch hk d).1]
      · simp only [jumpTarget, (decode_fixBranch hk d).2]
  | _ => cases hf

/-- In every function that is compiled, a local jump goes to its label or the label is
reported as missing, if and only if the distance fits the instruction or there is no label. -/
theorem local_jump_iff {fd : FunctionDef} {g g' : Gen} (h : genFunction fd g = .ok (⟨⟩, g')) {f : JumpFix} (hf : f ∈ g'.fixes) :
    f.Reaches g' ∨ f.Reported g' ↔ f.Fits g'.labels ∨ labelOff g'.labels f.label = none := by
  obtain ⟨g1, g2, hl1, hf1, ⟨ls, ht, hl, hfix⟩, hp⟩ := genFunction_lines h
  obtain ⟨g3, hp', ht', hl', hfix', -, hmiss⟩ := patchLocalJumps_eq g2.fixes g2
  obtain rfl : g' = g3 := by
    have := hp.symm.trans hp'
    cases this
    rfl
  rw [hl1, nil_append] at hl
  rw [hf1, nil_append] at hfix
  cases hq : labelOff g'.labels f.label with
  | none =>
    rw [hfix'] at hf
    exact ⟨fun _ => .inr rfl, fun _ => .inr ⟨hq, hmiss f hf (hl' ▸ hq)⟩⟩
  | some q =>
    rw [hfix', hfix] at hf
    obtain ⟨pre, l, post, rfl, hline⟩ := fixes_split hf
    obtain ⟨w, hone, hoff, hw, htarget⟩ := jumpTarget_fix hline
    have hword : g'.obj.text[f.off / 4]? = some (fixWord f.kind (q - f.off) w) := by
      have := @patched_fix g1 pre post l hf1 f w hone hoff hw
      rw [← hoff, patched, runLines_fixes, runLines_labels, runLines_text, hf1, hl1, nil_append, nil_append, ← hfix, ← hl, ← ht,
        ← ht', fixTarget, ← hl', hq] at this
      exact this
    have hmod : q % 4 = f.off % 4 := by
      obtain ⟨d, hd, rfl⟩ := map_eq_some_iff.1 hq
      have hmem := mem_of_find?_eq_some hd
      rw [hl', hl] at hmem
      have h1 := labels_mod hmem
      have h2 := pc_mod g1
      have h3 := line_mod g1 pre
      omega
    have hreach : f.Reaches g' ↔ cutOff (if f.kind = 1 then 21 else 13) (q - f.off) = q - f.off := by
      constructor
      · rintro ⟨w', q', hw', hq', ht⟩
        rw [hword] at hw'
        rw [hq] at hq'
        cases hw'
        cases hq'
        rw [htarget] at ht
        have := Option.some.inj ht
        omega
      · intro hc
        refine ⟨_, q, hword, hq, ?_⟩
        rw [htarget, hc]
        exact congrArg some (by omega)
    have hfits : f.Fits g'.labels ↔ cutOff (if f.kind = 1 then 21 else 13) (q - f.off) = q - f.off := by
      have hrange : f.Fits g'.labels ↔ _ := ⟨fun hfit => by
        obtain ⟨q', hq', h⟩ := hfit
        rw [hq] at hq'
        cases hq'
        exact h, fun h => ⟨q, hq, h⟩⟩
      rw [hrange]
      split_ifs
      · rw [cutOff_eq_iff (.inr rfl)]
        exact ⟨fun h => ⟨h.2.1, h.2.2, by omega⟩, fun h => ⟨hmod, h.1, h.2.1⟩⟩
      · rw [cutOff_eq_iff (.inl rfl)]
        exact ⟨fun h => ⟨h.2.1, h.2.2, by omega⟩, fun h => ⟨hmod, h.1, h.2.1⟩⟩
    rw [hreach, hfits]
    exact or_congr_right ⟨fun h => (some_ne_none q (hq.symm.trans h.1)).elim, fun h => (some_ne_none q h).elim⟩

namespace JumpSample

def table : Nat → Symbol := fun _ => { name := ascii "f" }

/-- `if (1) { n; ...; n; }` with `k` statements. -/
def branchOver (k n : Nat) : FunctionDef := ⟨0, [], .ifS (.int 1) (.block (replicate k (.expr (.int n)))) .null⟩

/-- Of the first fixup the offset, the label's offset and where its word goes. -/
def firstJump (fd : FunctionDef) : Option (Nat × Option Nat × Option Int) :=
  match genFunction fd { table := table } with
  | .ok (_, g) => g.fixes.head?.map fun f =>
    (f.off, labelOff g.labels f.label, g.obj.text[f.off / 4]?.bind (jumpTarget f.off))
  | .error _ => none

theorem firstJump_some {fd : FunctionDef} {off : Nat} {q : Option Nat} {d : Option Int} (h : firstJump fd = some (off, q, d)) :
    ∃ g f, genFunction fd { table := table } = .ok (⟨⟩, g) ∧ f ∈ g.fixes ∧ f.off = off ∧ labelOff g.labels f.label = q ∧
      g.obj.text[f.off / 4]?.bind (jumpTarget f.off) = d := by
  unfold firstJump at h
  split at h
  · rename_i g hg
    obtain ⟨f, hf, he⟩ := map_eq_some_iff.1 h
    cases he
    exact ⟨g, f, hg, mem_of_head? hf, rfl, rfl, rfl⟩
  · cases h

theorem short_branch_reaches : ∃ g f, genFunction (branchOver 3 5) { table := table } = .ok (⟨⟩, g) ∧ f ∈ g.fixes ∧
    (f.Reaches g ∨ f.Reported g) := by
  obtain ⟨g, f, hg, hf, hoff, hq, -⟩ := firstJump_some (show firstJump (branchOver 3 5) = some (20, some 36, some 36) by decide +kernel)
  refine ⟨g, f, hg, hf, (local_jump_iff hg hf).2 (.inl ⟨36, hq, by rw [hoff], ?_⟩)⟩
  rw [hoff]
  split_ifs <;> decide

/-- The distance 4324 of this branch is cut to -3868. -/
theorem long_branch_cut : ∃ g f, genFunction (branchOver 120 0x123456789abcdef) { table := table } = .ok (⟨⟩, g) ∧ f ∈ g.fixes ∧
    ¬(f.Reaches g ∨ f.Reported g) := by
  obtain ⟨g, f, hg, hf, -, hq, hd⟩ := firstJump_some
    (show firstJump (branchOver 120 0x123456789abcdef) = some (20, some 4344, some (-3848)) by decide +kernel)
  refine ⟨g, f, hg, hf, ?_⟩
  rintro (⟨w, q, hw, hq', ht⟩ | ⟨hn, -⟩)
  · rw [hq] at hq'
    cases hq'
    rw [hw] at hd
    exact absurd (ht.symm.trans hd) (by decide)
  · rw [hq] at hn
    cases hn

end JumpSample

end Lcc
