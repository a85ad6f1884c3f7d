import Loeux.Lcc.Run
import Loeux.Lcc.Value
/-!
# Code that leaves a value

Rules for code that leaves a value in a0 and gives the stack back as it was: one for each
way in which the generator puts such code together. They say nothing about where the
parts come from.
-/

namespace Lcc

open Lib Rv64 List

/-! ## The operations -/

section
variable (x y : Word)

theorem truth_iff {p q : Prop} [Decidable p] [Decidable q] (h : p ↔ q) : truth p = truth q := by
  unfold truth
  simp only [h]

theorem toInt_eq_zero : x.toInt = 0 ↔ x = 0 := by
  rw [← BitVec.toInt_zero (w := 64)]
  exact BitVec.toInt_inj

theorem slt_truth : Alu.slt.eval x y = truth (x.toInt < y.toInt) := by
  unfold Alu.eval truth
  simp only [BitVec.slt_iff_toInt_lt]

theorem truth_xor (p : Prop) [Decidable p] : truth p ^^^ 1 = truth ¬p := by
  unfold truth
  by_cases h : p
  · rw [if_pos h, if_neg (not_not_intro h)]
    rfl
  · rw [if_neg h, if_pos h]
    rfl

theorem zero_truth : Alu.sltu.eval x 1 = truth (x.toInt = 0) := by
  have h : x.ult 1 ↔ x.toInt = 0 := by
    rw [toInt_eq_zero, BitVec.ult_iff_toNat_lt]
    bv_omega
  unfold Alu.eval truth
  simp only [h]

theorem nonzero_truth : Alu.sltu.eval 0 x = truth (x.toInt ≠ 0) := by
  have h : (0 : Word).ult x ↔ x.toInt ≠ 0 := by
    rw [Ne, toInt_eq_zero, BitVec.ult_iff_toNat_lt]
    bv_omega
  unfold Alu.eval truth
  simp only [h]

theorem xor_toInt : (x ^^^ y).toInt = 0 ↔ x.toInt = y.toInt := by
  rw [toInt_eq_zero, BitVec.toInt_inj]
  exact BitVec.xor_eq_zero_iff

theorem add_ofInt : x + y = BitVec.ofInt 64 (x.toInt + y.toInt) := by
  rw [BitVec.ofInt_add, BitVec.ofInt_toInt, BitVec.ofInt_toInt]

theorem mul_ofInt : x * y = BitVec.ofInt 64 (x.toInt * y.toInt) := by
  rw [BitVec.ofInt_mul, BitVec.ofInt_toInt, BitVec.ofInt_toInt]

theorem sub_ofInt : x - y = BitVec.ofInt 64 (x.toInt - y.toInt) := by
  rw [Int.sub_eq_add_neg, BitVec.ofInt_add, BitVec.ofInt_neg, BitVec.ofInt_toInt, BitVec.ofInt_toInt, BitVec.sub_eq_add_neg]

theorem div_getD : Alu.div.eval x y = (cBinary .div x y).getD (-1) := by
  have h0 : y = 0 ↔ y.toInt = 0 := (toInt_eq_zero y).symm
  unfold Alu.eval cBinary
  dsimp only
  by_cases h : y = 0
  · rw [if_pos h, if_pos (h0.1 h), Option.getD_none]
  · rw [if_neg h, if_neg (h0.not.1 h), Option.getD_some, ← BitVec.toInt_inj, BitVec.toInt_sdiv, BitVec.toInt_ofInt]

theorem rem_getD : Alu.rem.eval x y = (cBinary .rem x y).getD x := by
  have h0 : y = 0 ↔ y.toInt = 0 := (toInt_eq_zero y).symm
  unfold Alu.eval cBinary
  dsimp only
  by_cases h : y = 0
  · rw [if_pos h, if_pos (h0.1 h), Option.getD_none]
  · rw [if_neg h, if_neg (h0.not.1 h), Option.getD_some, ← BitVec.toInt_srem, BitVec.ofInt_toInt]

end

/-- Straight code that changes a0 only: from states with `P`, to the value that `f` gives. -/
def Straight (ws : List Nat) (P : Hart → Prop) (f : Hart → Word) : Prop :=
  ∃ is : List Instr, ws.map decode = is.map some ∧ (∀ i ∈ is, i.isPlain) ∧
    ∀ m, P m → ∃ m', execAll is m = some m' ∧ m.Sets 10 (f m) m'

/-! ## What is visited -/

/-- The parts `ivs` of the code are entered where marked, and left out elsewhere. -/
def Visits (ivs : List (Nat × Nat)) (bs : List Bool) (qs : List Nat) : Prop :=
  List.Forall₂ (fun iv b => (b = true → iv.1 ∈ qs) ∧ (b = false → ∀ x ∈ qs, ¬(iv.1 ≤ x ∧ x < iv.2))) ivs bs

def Skips (ivs : List (Nat × Nat)) (bs : List Bool) : Prop := List.Forall₂ (fun _ b => b = false) ivs bs

def Inside (p q : Nat) (ivs : List (Nat × Nat)) : Prop := ∀ iv ∈ ivs, p ≤ iv.1 ∧ iv.1 < iv.2 ∧ iv.2 ≤ q

section
variable {ivs ivs' : List (Nat × Nat)} {bs bs' : List Bool} {qs qs' : List Nat} {p q p' q' : Nat}

theorem Inside.mono (h : Inside p q ivs) (hp : p' ≤ p) (hq : q ≤ q') : Inside p' q' ivs := fun iv hiv =>
  ⟨hp.trans (h iv hiv).1, (h iv hiv).2.1, (h iv hiv).2.2.trans hq⟩

theorem Inside.append (h : Inside p q ivs) (h' : Inside p q ivs') : Inside p q (ivs ++ ivs') := fun iv hiv =>
  (mem_append.1 hiv).elim (h iv) (h' iv)

theorem Inside.cons {iv : Nat × Nat} (h : p ≤ iv.1 ∧ iv.1 < iv.2 ∧ iv.2 ≤ q) (h' : Inside p q ivs) : Inside p q (iv :: ivs) := fun iv hiv =>
  (mem_cons.1 hiv).elim (fun heq => heq ▸ h) (h' iv)

theorem Visits.append (h : Visits ivs bs qs) (h' : Visits ivs' bs' qs) : Visits (ivs ++ ivs') (bs ++ bs') qs := by
  induction h with
  | nil => exact h'
  | cons hr _ ih => exact .cons hr ih

theorem Skips.append (h : Skips ivs bs) (h' : Skips ivs' bs') : Skips (ivs ++ ivs') (bs ++ bs') := by
  induction h with
  | nil => exact h'
  | cons hr _ ih => exact .cons hr ih

theorem Visits.mono (h : Visits ivs bs qs) (hin : Inside p q ivs) (hsub : ∀ x ∈ qs, x ∈ qs')
    (hnew : ∀ x ∈ qs', x ∈ qs ∨ x < p ∨ q ≤ x) : Visits ivs bs qs' := by
  induction h with
  | nil => exact .nil
  | @cons iv b ivs bs hr _ ih =>
    refine .cons ⟨fun hb => hsub _ (hr.1 hb), fun hb x hx => ?_⟩ (ih fun iv hiv => hin iv (mem_cons_of_mem _ hiv))
    have hiv := hin iv mem_cons_self
    rcases hnew x hx with h | h | h
    · exact hr.2 hb x h
    · omega
    · omega

theorem Visits.flags {Q : Nat × Nat → Bool → Prop} {R : Bool → Bool → Prop} (h : Visits ivs bs qs) (h' : List.Forall₂ Q ivs bs')
    (hR : ∀ iv ∈ ivs, ∀ b b', ((b = true → iv.1 ∈ qs) ∧ (b = false → ∀ x ∈ qs, ¬(iv.1 ≤ x ∧ x < iv.2))) → Q iv b' → R b b') :
    List.Forall₂ R bs bs' := by
  induction h generalizing bs' with
  | nil =>
    cases h'
    exact .nil
  | cons hr _ ih =>
    cases h' with
    | cons hq h' => exact .cons (hR _ mem_cons_self _ _ hr hq) (ih h' fun iv hiv => hR iv (mem_cons_of_mem _ hiv))

theorem Visits.parts {Q : Nat × Nat → Bool → Prop} {R : Bool → Bool → Prop} (h : Visits ivs bs qs) (h' : List.Forall₂ R bs bs')
    (hQ : ∀ iv b b', ((b = true → iv.1 ∈ qs) ∧ (b = false → ∀ x ∈ qs, ¬(iv.1 ≤ x ∧ x < iv.2))) → R b b' → Q iv b') :
    List.Forall₂ Q ivs bs' := by
  induction h generalizing bs' with
  | nil =>
    cases h'
    exact .nil
  | cons hr _ ih =>
    cases h' with
    | cons hq h' => exact .cons (hQ _ _ _ hr hq) (ih h')

theorem Skips.visits (h : Skips ivs bs) (hin : Inside p q ivs) (hout : ∀ x ∈ qs, x < p ∨ q ≤ x) : Visits ivs bs qs := by
  induction h with
  | nil => exact .nil
  | @cons iv b ivs bs hr _ ih =>
    refine .cons ⟨fun hb => ?_, fun _ x hx => ?_⟩ (ih fun iv hiv => hin iv (mem_cons_of_mem _ hiv))
    · rw [hr] at hb
      cases hb
    · have hiv := hin iv mem_cons_self
      have := hout x hx
      omega

end

/-! ## Values in a0 -/

/-- The hart comes from `p` to `q` and has `v` in a0, with sp and s0 as before and, at `lo` and
above, only bytes below sp changed. -/
structure Leaves (I : Image) (lo p : Nat) (m : Hart) (qs : List Nat) (q : Nat) (m' : Hart) (v : Word) : Prop where
  runs : I.Runs p m qs q m'
  a0 : m'.reg 10 = v
  sp : m'.reg 2 = m.reg 2
  fp : m'.reg 8 = m.reg 8
  mem : ∀ a, a < lo ∨ (m.reg 2).toNat ≤ a → m'.mem a = m.mem a

/-- What is read does not depend on the bytes that the stack may use. -/
def Apart (lo hi : Nat) (S : Word → Bytes → Prop) : Prop :=
  ∀ fp mem mem', (∀ a, a < lo ∨ hi ≤ a → mem' a = mem a) → S fp mem → S fp mem'

namespace Leaves

variable {I : Image} {lo hi p q r : Nat} {m m' m'' : Hart} {qs qs' : List Nat} {v w : Word}

theorem trans (h : Leaves I lo p m qs q m' v) (h' : Leaves I lo q m' qs' r m'' w) : Leaves I lo p m (qs ++ qs') r m'' w :=
  ⟨h.runs.trans h'.runs, h'.a0, h'.sp.trans h.sp, h'.fp.trans h.fp, fun a ha =>
    (h'.mem a (h.sp.symm ▸ ha)).trans (h.mem a ha)⟩

theorem same (hruns : I.Runs p m qs q m') (hreg : ∀ r, m'.reg r = m.reg r) (hmem : m'.mem = m.mem) :
    Leaves I lo p m qs q m' (m.reg 10) :=
  ⟨hruns, hreg 10, hreg 2, hreg 8, fun a _ => by rw [hmem]⟩

theorem sets (hruns : I.Runs p m qs q m') (hset : m.Sets 10 v m') : Leaves I lo p m qs q m' v :=
  ⟨hruns, hset.own, hset.other 2 (by decide), hset.other 8 (by decide), fun a _ => by rw [hset.mem]⟩

theorem reads {S : Word → Bytes → Prop} (hS : Apart lo hi S) (h : Leaves I lo p m qs q m' v) (hhi : (m.reg 2).toNat ≤ hi)
    (hs : S (m.reg 8) m.mem) : S (m'.reg 8) m'.mem := by
  rw [h.fp]
  exact hS _ _ _ (fun a ha => h.mem a (by omega)) hs

theorem words (lo : Nat) {ws : List Nat} {P : Hart → Prop} {f : Hart → Word} (hws : Straight ws P f) (hat : I.LineAt p (.words ws))
    (hm : m.pc = I.loc p) (hP : P m) : ∃ qs m', Leaves I lo p m qs (p + 4 * ws.length) m' (f m) := by
  obtain ⟨is, hdec, hplain, hexec⟩ := hws
  obtain ⟨m', he, hset⟩ := hexec m hP
  obtain ⟨qs, hruns⟩ := Image.Runs.words hat hdec hplain hm he
  exact ⟨qs, m', .sets hruns hset⟩

end Leaves

/-- The code from `p` to `q` leaves `v` in a0 with room for `d` pushes, if what it reads is as `S`
says, and it visits the parts `ivs` as marked. -/
structure Evals (I : Image) (lo hi : Nat) (S : Word → Bytes → Prop) (d p q : Nat) (v : Word) (ivs : List (Nat × Nat))
    (bs : List Bool) : Prop where
  inside : Inside p q ivs
  leaves : ∀ m : Hart, m.pc = I.loc p → S (m.reg 8) m.mem → lo + 8 * d ≤ (m.reg 2).toNat → (m.reg 2).toNat ≤ hi →
    ∃ qs m', Leaves I lo p m qs q m' v ∧ Visits ivs bs qs

namespace Evals

variable {I : Image} {lo hi : Nat} {S : Word → Bytes → Prop} {d d' p q r : Nat} {v v' w : Word} {ivs ivs' : List (Nat × Nat)}
  {bs bs' : List Bool}

theorem weaken (h : Evals I lo hi S d p q v ivs bs) (hd : d ≤ d') : Evals I lo hi S d' p q v ivs bs :=
  ⟨h.inside, fun m hpc hs hlo => h.leaves m hpc hs (by omega)⟩

theorem words {ws : List Nat} (h : Evals I lo hi S d p q v ivs bs) (hat : I.LineAt q (.words ws))
    (hws : Straight ws (fun m => m.reg 10 = v) fun _ => w) : Evals I lo hi S d p (q + 4 * ws.length) w ivs bs := by
  refine ⟨h.inside.mono (le_refl _) (by omega), fun m hpc hs hlo hhi => ?_⟩
  obtain ⟨qs, m1, hl, hv⟩ := h.leaves m hpc hs hlo hhi
  obtain ⟨qs', m2, hl'⟩ := Leaves.words lo hws hat hl.runs.stop hl.a0
  refine ⟨qs ++ qs', m2, hl.trans hl', hv.mono h.inside (fun x hx => mem_append_left _ hx) fun x hx => ?_⟩
  rcases mem_append.1 hx with hx | hx
  · exact .inl hx
  · exact .inr (.inr (hl'.runs.within x hx).1)

theorem binary {ws : List Nat} (hS : Apart lo hi S) (ha : Evals I lo hi S d p q v ivs bs) (hpush : I.LineAt q (.push 10))
    (hb : Evals I lo hi S d' (q + 8) r v' ivs' bs') (hpop : I.LineAt r (.pop 5)) (hat : I.LineAt (r + 8) (.words ws))
    (hws : Straight ws (fun m => m.reg 5 = v ∧ m.reg 10 = v') fun _ => w) (hpq : p ≤ q) (hqr : q + 8 ≤ r) :
    Evals I lo hi S (max d (1 + d')) p (r + 8 + 4 * ws.length) w (ivs ++ ivs') (bs ++ bs') := by
  obtain ⟨is, hdec, hplain, hexec⟩ := hws
  refine ⟨(ha.inside.mono (le_refl _) (by omega)).append (hb.inside.mono (by omega) (by omega)), fun m hpc hs hlo hhi => ?_⟩
  have hsp := (m.reg 2).isLt
  obtain ⟨qs1, m1, h1, hv1⟩ := ha.leaves m hpc hs (by omega) hhi
  obtain ⟨qs2, m2, h2, hsp2, hreg2, hmem2⟩ := runs_push (by decide) (by decide) hpush h1.runs.stop (by rw [h1.sp]; omega)
  have hsub : (m2.reg 2).toNat = (m.reg 2).toNat - 8 := by rw [hsp2, sp_sub (by rw [h1.sp]; omega), h1.sp]
  have hput : ∀ a, a < (m.reg 2).toNat - 8 ∨ (m.reg 2).toNat ≤ a → m2.mem a = m1.mem a := by
    intro a h
    rw [hmem2, h1.sp]
    exact Bytes.put_of_ne (n := 8) _ (by omega)
  have hs2 : S (m2.reg 8) m2.mem := by
    rw [hreg2 8 (by decide), h1.fp]
    exact hS _ _ _ (fun a h => (hput a (by omega)).trans (h1.mem a (by omega))) hs
  obtain ⟨qs3, m3, h3, hv3⟩ := hb.leaves m2 h2.stop hs2 (by omega) (by omega)
  obtain ⟨qs4, m4, h4, hsp4, hx5, hreg4, hmem4⟩ := runs_pop (by decide) (by decide) (by decide) hpop h3.runs.stop
    (by rw [h3.sp]; omega)
  -- the first operand is read back as it was pushed
  have hslot : Width.double.read ((m.reg 2).toNat - 8) m3.mem = Width.double.read ((m.reg 2).toNat - 8) m2.mem :=
    Width.read_congr .double fun i hi _ => h3.mem i (.inr (by omega))
  have hback : m4.reg 5 = v := by rw [hx5, h3.sp, hsub, hslot, hmem2, h1.sp, Width.read_write, h1.a0]
  obtain ⟨m5, he, hset⟩ := hexec m4 ⟨hback, (hreg4 10 (by decide) (by decide)).trans h3.a0⟩
  obtain ⟨qs5, h5⟩ := Image.Runs.words hat hdec hplain h4.stop he
  refine ⟨qs1 ++ qs2 ++ qs3 ++ qs4 ++ qs5, m5, ⟨(((h1.runs.trans h2).trans h3.runs).trans h4).trans h5, hset.own, ?_, ?_, ?_⟩, ?_⟩
  · rw [hset.other 2 (by decide), hsp4, h3.sp, hsp2, h1.sp, BitVec.sub_add_cancel]
  · rw [hset.other 8 (by decide), hreg4 8 (by decide) (by decide), h3.fp, hreg2 8 (by decide), h1.fp]
  · intro a h
    rw [hset.mem, hmem4, h3.mem a (by omega), hput a (by omega), h1.mem a h]
  · have hw : ∀ x ∈ qs1 ++ qs2 ++ qs3 ++ qs4 ++ qs5, x ∈ qs1 ∧ x < q ∨ q ≤ x ∧ x < q + 8 ∨ x ∈ qs3 ∧ q + 8 ≤ x ∨ r ≤ x := by
      intro x hx
      simp only [mem_append, or_assoc] at hx
      rcases hx with hx | hx | hx | hx | hx
      · exact .inl ⟨hx, (h1.runs.within x hx).2⟩
      · exact .inr (.inl (h2.within x hx))
      · exact .inr (.inr (.inl ⟨hx, (h3.runs.within x hx).1⟩))
      · exact .inr (.inr (.inr (h4.within x hx).1))
      · have := (h5.within x hx).1
        exact .inr (.inr (.inr (by omega)))
    refine Visits.append (hv1.mono ha.inside (fun x hx => by simp [hx]) fun x hx => ?_)
      (hv3.mono hb.inside (fun x hx => by simp [hx]) fun x hx => ?_)
    · exact (hw x hx).imp And.left fun h => .inr (by omega)
    · rcases hw x hx with h | h | h | h
      · exact .inr (.inl (by omega))
      · exact .inr (.inl h.2)
      · exact .inl h.1
      · exact .inr (.inr h)

theorem branch {kind t : Nat} {lf : Int} (hS : Apart lo hi S) (ha : Evals I lo hi S d p q v ivs bs) (hpq : p ≤ q)
    (hbr : I.LineAt q (.branch lf kind)) (hlf : I.off lf = some t) (hqt : q + 4 ≤ t) (hin : Inside (q + 4) r ivs') (hqr : q + 4 < r)
    (hto : ∀ m : Hart, m.pc = I.loc (if kind = 2 ↔ v = 0 then t else q + 4) → S (m.reg 8) m.mem →
      lo + 8 * d ≤ (m.reg 2).toNat → (m.reg 2).toNat ≤ hi →
      ∃ qs m', Leaves I lo (if kind = 2 ↔ v = 0 then t else q + 4) m qs r m' w ∧ Visits ivs' bs' qs) :
    Evals I lo hi S d p r w (ivs ++ ivs') (bs ++ bs') := by
  refine ⟨(ha.inside.mono (le_refl _) (by omega)).append (hin.mono (by omega) (le_refl _)), ?_⟩
  intro m hpc hs hlo hhi
  obtain ⟨qs1, m1, h1, hv1⟩ := ha.leaves m hpc hs hlo hhi
  obtain ⟨m2, hbr2, hreg2, hmem2⟩ := Image.Runs.branch hbr hlf (by omega) h1.runs.stop
  rw [h1.a0] at hbr2
  have h2 := h1.trans (.same hbr2 hreg2 hmem2)
  obtain ⟨qs3, m3, h3, hv3⟩ := hto m2 h2.runs.stop (h2.reads hS hhi hs) (by rw [h2.sp]; exact hlo) (by rw [h2.sp]; exact hhi)
  have hw : ∀ x ∈ qs1 ++ [q] ++ qs3, x ∈ qs1 ∧ x < q ∨ x = q ∨ x ∈ qs3 ∧ q + 4 ≤ x := by
    intro x hx
    simp only [mem_append, mem_singleton, or_assoc] at hx
    exact hx.imp (fun h => ⟨h, (h1.runs.within x h).2⟩) fun h => h.imp_right fun h =>
      ⟨h, le_trans (by split_ifs <;> omega) (h3.runs.within x h).1⟩
  refine ⟨_, m3, h2.trans h3, Visits.append (hv1.mono ha.inside (fun x hx => by simp [hx]) fun x hx => ?_)
    (hv3.mono hin (fun x hx => by simp [hx]) fun x hx => ?_)⟩
  · exact (hw x hx).imp And.left fun h => .inr (by omega)
  · rcases hw x hx with h | h | h
    · exact .inr (.inl (by omega))
    · exact .inr (.inl (by omega))
    · exact .inl h.1

theorem short {kind : Nat} {lf le : Int} {x y : Word} {wx wy : Nat} (hS : Apart lo hi S) (ha : Evals I lo hi S d p q v ivs bs)
    (hpq : p ≤ q) (hbr : I.LineAt q (.branch lf kind)) (hin : Inside (q + 4) r ivs') (hqr : q + 4 < r)
    (hb : ¬(kind = 2 ↔ v = 0) → Evals I lo hi S d (q + 4) r v' ivs' bs') (hskip : (kind = 2 ↔ v = 0) → Skips ivs' bs')
    (hbr' : I.LineAt r (.branch lf kind)) (hatx : I.LineAt (r + 4) (.words [wx])) (hx : Straight [wx] (fun _ => True) fun _ => x)
    (hj : I.LineAt (r + 8) (.jump le)) (hlf : I.off lf = some (r + 12)) (haty : I.LineAt (r + 12) (.words [wy]))
    (hy : Straight [wy] (fun _ => True) fun _ => y) (hle : I.off le = some (r + 16)) :
    Evals I lo hi S d p (r + 16) (if (kind = 2 ↔ v = 0) then y else if (kind = 2 ↔ v' = 0) then y else x)
      (ivs ++ (q + 4, r) :: ivs') (bs ++ decide (¬(kind = 2 ↔ v = 0)) :: bs') := by
  refine branch hS ha hpq hbr hlf (by omega) (.cons ⟨by omega, by omega, by omega⟩ (hin.mono (by omega) (by omega))) (by omega) ?_
  intro m hpc hs hlo hhi
  by_cases ht : kind = 2 ↔ v = 0
  · rw [if_pos ht] at hpc ⊢
    obtain ⟨qs, m', h⟩ := Leaves.words lo hy haty hpc trivial
    have hw := h.runs.within
    rw [if_pos ht, decide_eq_false (not_not_intro ht)]
    refine ⟨qs, m', h, .cons ⟨Bool.noConfusion, fun _ x hx => ?_⟩ ((hskip ht).visits hin fun x hx => .inr ?_)⟩
    · have := hw x hx
      omega
    · have := hw x hx
      omega
  · rw [if_neg ht] at hpc ⊢
    obtain ⟨qs3, m3, h3, hv3⟩ := (hb ht).leaves m hpc hs hlo hhi
    obtain ⟨m4, hbr4, hreg4, hmem4⟩ := Image.Runs.branch hbr' hlf (by omega) h3.runs.stop
    rw [h3.a0] at hbr4
    obtain ⟨qs5, m5, h5⟩ : ∃ qs5 m5, Leaves I lo r m3 qs5 (r + 16) m5 (if (kind = 2 ↔ v' = 0) then y else x) := by
      have h4 : Leaves I lo r m3 [r] _ m4 _ := .same hbr4 hreg4 hmem4
      by_cases ht' : kind = 2 ↔ v' = 0
      · rw [if_pos ht'] at h4 ⊢
        obtain ⟨qs5, m5, h5⟩ := Leaves.words lo hy haty h4.runs.stop trivial
        exact ⟨_, m5, h4.trans h5⟩
      · rw [if_neg ht'] at h4 ⊢
        obtain ⟨qs5, m5, h5⟩ := Leaves.words lo hx hatx h4.runs.stop trivial
        obtain ⟨m6, hj6, hreg6, hmem6⟩ := Image.Runs.jump hj hle (by omega) h5.runs.stop
        have h6 := h5.trans (.same hj6 hreg6 hmem6)
        rw [h5.a0] at h6
        exact ⟨_, m6, h4.trans h6⟩
    have h := h3.trans h5
    rw [if_neg ht, decide_eq_true ht]
    refine ⟨_, m5, h, .cons ⟨fun _ => h.runs.first (by omega), Bool.noConfusion⟩
      (hv3.mono hin (fun x hx => mem_append_left _ hx) fun x hx => ?_)⟩
    exact (mem_append.1 hx).imp_right fun h => .inr (h5.runs.within x h).1

theorem cond {lf le : Int} {t : Nat} {x y : Word} {ivs'' : List (Nat × Nat)} {bs'' : List Bool} (hS : Apart lo hi S)
    (ha : Evals I lo hi S d p q v ivs bs) (hpq : p ≤ q) (hbr : I.LineAt q (.branch lf 2)) (hin : Inside (q + 4) r ivs')
    (hqr : q + 4 < r) (hx : v ≠ 0 → Evals I lo hi S d (q + 4) r x ivs' bs') (hskip : v = 0 → Skips ivs' bs')
    (hj : I.LineAt r (.jump le)) (hlf : I.off lf = some (r + 4)) (hin' : Inside (r + 4) t ivs'') (hrt : r + 4 < t)
    (hy : v = 0 → Evals I lo hi S d (r + 4) t y ivs'' bs'') (hskip' : v ≠ 0 → Skips ivs'' bs'') (hle : I.off le = some t) :
    Evals I lo hi S d p t (if v ≠ 0 then x else y) (ivs ++ (q + 4, r) :: (ivs' ++ (r + 4, t) :: ivs''))
      (bs ++ decide (v ≠ 0) :: (bs' ++ decide (v = 0) :: bs'')) := by
  refine branch hS ha hpq hbr hlf (by omega) (.cons ⟨by omega, by omega, by omega⟩ ((hin.mono (by omega) (by omega)).append
    (.cons ⟨by omega, by omega, by omega⟩ (hin'.mono (by omega) (by omega))))) (by omega) ?_
  intro m hpc hs hlo hhi
  by_cases hv : v = 0
  · rw [if_pos (iff_of_true rfl hv)] at hpc ⊢
    obtain ⟨qs, m', h, hv'⟩ := (hy hv).leaves m hpc hs hlo hhi
    have hw := h.runs.within
    rw [if_neg (not_not_intro hv), decide_eq_true hv, decide_eq_false (not_not_intro hv)]
    refine ⟨qs, m', h, .cons ⟨Bool.noConfusion, fun _ x hx => ?_⟩ (((hskip hv).visits hin fun x hx => .inr ?_).append
      (.cons ⟨fun _ => h.runs.first hrt, Bool.noConfusion⟩ hv'))⟩
    · have := hw x hx
      omega
    · have := hw x hx
      omega
  · have hne : ¬(2 = 2 ↔ v = 0) := fun h => hv (h.1 rfl)
    rw [if_neg hne] at hpc ⊢
    obtain ⟨qs3, m3, h3, hv3⟩ := (hx hv).leaves m hpc hs hlo hhi
    obtain ⟨m4, hj4, hreg4, hmem4⟩ := Image.Runs.jump hj hle (by omega) h3.runs.stop
    have h4 := h3.trans (.same hj4 hreg4 hmem4)
    rw [h3.a0] at h4
    have hw : ∀ x ∈ qs3 ++ [r], x ∈ qs3 ∧ x < r ∨ x = r := fun x hx =>
      (mem_append.1 hx).imp (fun h => ⟨h, (h3.runs.within x h).2⟩) mem_singleton.1
    rw [if_pos hv, decide_eq_true hv, decide_eq_false hv]
    refine ⟨_, m4, h4, .cons ⟨fun _ => h4.runs.first (by omega), Bool.noConfusion⟩
      ((hv3.mono hin (fun x hx => mem_append_left _ hx) fun x hx => ?_).append
        (.cons ⟨Bool.noConfusion, fun _ x hx => ?_⟩ ((hskip' hv).visits hin' fun x hx => .inl ?_)))⟩
    · exact (hw x hx).imp And.left fun h => .inr h.ge
    · have := hw x hx
      omega
    · have := hw x hx
      omega

end Evals

end Lcc
