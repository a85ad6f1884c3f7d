/-!
# Runs

Finite runs of a labelled transition relation, and the rule that carries an
invariant along a run whose steps all meet a condition.
-/

namespace Lib

variable {σ ε : Type}

inductive Run (step : σ → ε → σ → Prop) : σ → List ε → σ → Prop
  | nil (s : σ) : Run step s [] s
  | cons {s s' s'' : σ} {e : ε} {es : List ε} : step s e s' → Run step s' es s'' → Run step s (e :: es) s''

/-- The steps before which `P` holds. -/
def Guarded (P : σ → ε → Prop) (step : σ → ε → σ → Prop) (s : σ) (e : ε) (s' : σ) : Prop := P s e ∧ step s e s'

variable {step : σ → ε → σ → Prop} {P : σ → ε → Prop} {s s' : σ} {es : List ε}

theorem Run.one {e : ε} (h : step s e s') : Run step s [e] s' := .cons h (.nil _)

theorem Run.snoc {s'' : σ} {e : ε} (h : Run step s es s') (he : step s' e s'') : Run step s (es ++ [e]) s'' := by
  induction h with
  | nil => exact .one he
  | cons h _ ih => exact .cons h (ih he)

theorem run_append {es' : List ε} {s'' : σ} :
    Run step s (es ++ es') s'' ↔ ∃ s', Run step s es s' ∧ Run step s' es' s'' := by
  induction es generalizing s with
  | nil =>
    constructor
    · intro h
      exact ⟨s, .nil _, h⟩
    · rintro ⟨s', h, h'⟩
      cases h
      exact h'
  | cons e es ih =>
    constructor
    · intro h
      cases h with
      | cons h1 h2 =>
        obtain ⟨s', h3, h4⟩ := ih.1 h2
        exact ⟨s', .cons h1 h3, h4⟩
    · rintro ⟨s', h, h'⟩
      cases h with
      | cons h1 h2 => exact .cons h1 (ih.2 ⟨s', h2, h'⟩)

theorem Run.inv (I : σ → Prop) (hs : ∀ s e s', I s → P s e → step s e s' → I s')
    (h : Run (Guarded P step) s es s') (h0 : I s) : I s' := by
  induction h with
  | nil => exact h0
  | cons h _ ih => exact ih (hs _ _ _ h0 h.1 h.2)

theorem Run.keep (I : σ → Prop) (hs : ∀ s e s', I s → step s e s' → I s') (h : Run step s es s') (h0 : I s) : I s' := by
  induction h with
  | nil => exact h0
  | cons h _ ih => exact ih (hs _ _ _ h0 h)

/-- A run of the concrete system is a run of the abstract one, whose state the
events alone determine. -/
theorem Run.simulate {τ : Type} (next : τ → ε → τ) (R : σ → τ → Prop)
    (hs : ∀ s t e s', R s t → P s e → step s e s' → R s' (next t e))
    (h : Run (Guarded P step) s es s') {t : τ} (h0 : R s t) : R s' (es.foldl next t) := by
  induction h generalizing t with
  | nil => exact h0
  | cons h _ ih => exact ih (hs _ _ _ _ h0 h.1 h.2)

theorem Run.refine {τ : Type} {step' : τ → ε → τ → Prop} (R : σ → τ → Prop)
    (hs : ∀ s t e s', R s t → step s e s' → ∃ t', step' t e t' ∧ R s' t')
    (h : Run step s es s') {t : τ} (h0 : R s t) : ∃ t', Run step' t es t' ∧ R s' t' := by
  induction h generalizing t with
  | nil => exact ⟨t, .nil _, h0⟩
  | cons h _ ih =>
    obtain ⟨t', h1, h2⟩ := hs _ _ _ _ h0 h
    obtain ⟨t'', h3, h4⟩ := ih h2
    exact ⟨t'', .cons h1 h3, h4⟩

/-! ## Systems that can be run -/

def exec (next : σ → ε → Option σ) (s : σ) : List ε → Option σ
  | [] => some s
  | e :: es => (next s e).bind fun s' => exec next s' es

theorem run_of_exec {next : σ → ε → Option σ} (hn : ∀ s e s', next s e = some s' → step s e s')
    (h : exec next s es = some s') : Run step s es s' := by
  induction es generalizing s with
  | nil =>
    cases h
    exact .nil _
  | cons e es ih =>
    obtain ⟨s1, h1, h2⟩ := Option.bind_eq_some_iff.1 h
    exact .cons (hn _ _ _ h1) (ih h2)

theorem guarded_of_exec [∀ s e, Decidable (P s e)] {next : σ → ε → Option σ}
    (hn : ∀ s e s', next s e = some s' → step s e s')
    (h : exec (fun s e => if P s e then next s e else none) s es = some s') : Run (Guarded P step) s es s' := by
  refine run_of_exec (fun s e s' hs => ?_) h
  by_cases hP : P s e
  · rw [if_pos hP] at hs
    exact ⟨hP, hn _ _ _ hs⟩
  · rw [if_neg hP] at hs
    cases hs

end Lib
