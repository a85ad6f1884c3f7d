import Mathlib.Tactic.SplitIfs
/-!
# State programs that may stop

A program over a state either answers or stops for a reason. `wp E p Q s` says
that from `s` it ends with an answer and a state that satisfy `Q`, or stops for
one of the reasons in `E`. A loop stops when it has used up its rounds.
-/

namespace Lib

/-- Programs over the state `σ` that may stop for a reason in `ε`. -/
abbrev Stop (ε σ α : Type) := StateT σ (Except ε) α

namespace Stop

variable {ε σ τ α β γ : Type}

def wp (E : ε → Prop) (p : Stop ε σ α) (Q : α → σ → Prop) (s : σ) : Prop :=
  match p s with
  | .ok (a, s') => Q a s'
  | .error e => E e

variable {E : ε → Prop} {Q Q' : α → σ → Prop} {R : β → σ → Prop} {s : σ}

variable {p : Stop ε σ α}

theorem bind_ok {f : α → Stop ε σ β} {a : α} {s t : σ} (h : p s = .ok (a, t)) : (p >>= f) s = f a t := by
  show (p s >>= fun x => f x.1 x.2 : Except ε (β × σ)) = _
  rw [h]
  rfl

theorem bind_error {f : α → Stop ε σ β} {e : ε} {s : σ} (h : p s = .error e) : (p >>= f) s = .error e := by
  show (p s >>= fun x => f x.1 x.2 : Except ε (β × σ)) = _
  rw [h]
  rfl

theorem bind_eq_ok {f : α → Stop ε σ β} {r : β × σ} {s : σ} :
    (p >>= f) s = .ok r ↔ ∃ a t, p s = .ok (a, t) ∧ f a t = .ok r := by
  constructor
  · intro h
    cases hp : p s with
    | ok x =>
      rw [bind_ok (a := x.1) (t := x.2) hp] at h
      exact ⟨x.1, x.2, rfl, h⟩
    | error e =>
      rw [bind_error hp] at h
      cases h
  · rintro ⟨a, t, hp, hf⟩
    rw [bind_ok hp, hf]

@[simp] theorem wp_pure (a : α) : wp E (pure a : Stop ε σ α) Q s ↔ Q a s := Iff.rfl

@[simp] theorem wp_get {R : σ → σ → Prop} : wp E (get : Stop ε σ σ) R s ↔ R s s := Iff.rfl

@[simp] theorem wp_modify (f : σ → σ) {R : Unit → σ → Prop} :
    wp E (modify f : Stop ε σ Unit) R s ↔ R ⟨⟩ (f s) := Iff.rfl

@[simp] theorem wp_bind (p : Stop ε σ α) (f : α → Stop ε σ β) :
    wp E (p >>= f) R s ↔ wp E p (fun a s' => wp E (f a) R s') s := by
  show (match (p s >>= fun x => f x.1 x.2 : Except ε (β × σ)) with
    | .ok (a, s') => R a s'
    | .error e => E e) ↔ _
  unfold wp
  cases p s <;> exact Iff.rfl

theorem wp_mono (h : wp E p Q s) (hQ : ∀ a s', Q a s' → Q' a s') : wp E p Q' s := by
  unfold wp at h ⊢
  cases hp : p s with
  | ok r => rw [hp] at h; exact hQ _ _ h
  | error e => rw [hp] at h; exact h

theorem of_wp {a : α} {s' : σ} (h : wp E p Q s) (hp : p s = .ok (a, s')) : Q a s' := by
  unfold wp at h
  rwa [hp] at h

theorem ok_of_wp (h : wp (fun _ => False) p Q s) : ∃ a s', p s = .ok (a, s') ∧ Q a s' := by
  unfold wp at h
  cases hp : p s with
  | ok r => rw [hp] at h; exact ⟨r.1, r.2, rfl, h⟩
  | error e => rw [hp] at h; exact h.elim

def answer (p : Stop ε σ α) (s : σ) : Option α :=
  match p s with
  | .ok (a, _) => some a
  | .error _ => none

def after (p : Stop ε σ α) (s : σ) : σ :=
  match p s with
  | .ok (_, s') => s'
  | .error _ => s

theorem eq_ok_of_answer {a : α} (h : p.answer s = some a) : p s = .ok (a, p.after s) := by
  unfold answer at h
  unfold after
  cases hp : p s with
  | ok r =>
    rw [hp] at h
    obtain rfl := Option.some.inj h
    rfl
  | error e =>
    rw [hp] at h
    cases h

/-! ## Loops -/

/-- Repeat `body` on the loop variables until it answers, for `n` rounds at most. -/
def loop (late : ε) (body : γ → Stop ε σ (γ ⊕ β)) : Nat → γ → Stop ε σ β
  | 0, _ => throw late
  | n + 1, x => do
    match ← body x with
    | .inl y => loop late body n y
    | .inr b => pure b

/-- An invariant with the number of rounds that are left at most, unless the loop
may be late. -/
theorem wp_loop {late : ε} {body : γ → Stop ε σ (γ ⊕ β)} (I : Nat → γ → σ → Prop) (hI : ∀ k x s, I k x s → wp E (body x)
      (fun r s' => match r with
        | .inl y => ∃ k', k' < k ∧ I k' y s'
        | .inr b => R b s') s) :
    ∀ {n k : Nat} {x : γ} {s : σ}, (k < n ∨ E late) → I k x s → wp E (loop late body n x) R s := by
  intro n
  induction n with
  | zero =>
    intro k x s hk _
    exact hk.resolve_left (Nat.not_lt_zero k)
  | succ n ih =>
    intro k x s hk h
    rw [loop, wp_bind]
    refine wp_mono (hI k x s h) fun r s' hr => ?_
    cases r with
    | inl y =>
      obtain ⟨k', hk', hy⟩ := hr
      exact ih (hk.imp_left fun hk => by omega) hy
    | inr b => exact hr

theorem wp_loop_late {late : ε} {body : γ → Stop ε σ (γ ⊕ β)} (hlate : E late) (I : γ → σ → Prop)
    (hI : ∀ x s, I x s → wp E (body x) (fun r s' => match r with
        | .inl y => I y s'
        | .inr b => R b s') s) :
    ∀ {n : Nat} {x : γ} {s : σ}, I x s → wp E (loop late body n x) R s := by
  intro n
  induction n with
  | zero => intro x s _; exact hlate
  | succ n ih =>
    intro x s h
    rw [loop, wp_bind]
    refine wp_mono (hI x s h) fun r s' hr => ?_
    cases r with
    | inl y => exact ih hr
    | inr b => exact hr

end Stop

end Lib
