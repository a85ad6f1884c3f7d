import Mathlib.Logic.Function.Basic
/-!
# Programs over operations

A program either returns or performs one operation and continues with the
answer. The same program can then be given several meanings: a deterministic
`run` by a handler, or `wp`, the demonic reading in which every answer the
world may give has to be covered.
-/

namespace Lib

theorem if_not_true {α : Type} {a b : α} : (if (!true) = true then a else b) = b := rfl

/-- A program over operations `E`; operation `e` is answered by an `R e`. -/
inductive Prog {E : Type} (R : E → Type) (α : Type) where
  | ret (a : α)
  | op (e : E) (k : R e → Prog R α)

namespace Prog

variable {E : Type} {R : E → Type} {α β σ : Type}

def bind : Prog R α → (α → Prog R β) → Prog R β
  | .ret a, f => f a
  | .op e k, f => .op e (fun r => (k r).bind f)

instance : Monad (Prog R) where
  pure := .ret
  bind := bind

/-- Perform one operation and return its answer. -/
def perform (e : E) : Prog R (R e) := .op e .ret

/-! ## Deterministic runs -/

/-- How a deterministic world answers an operation and moves on. -/
abbrev Handler (R : E → Type) (σ : Type) := (e : E) → σ → R e × σ

def run (h : Handler R σ) : Prog R α → σ → α × σ
  | .ret a, s => (a, s)
  | .op e k, s => (k (h e s).1).run h (h e s).2

variable (h : Handler R σ)

@[simp] theorem run_pure (a : α) (s : σ) : run h (pure a) s = (a, s) := rfl

@[simp] theorem run_perform (e : E) (s : σ) : run h (perform e) s = h e s := rfl

@[simp] theorem run_bind (p : Prog R α) (f : α → Prog R β) (s : σ) :
    run h (p >>= f) s = run h (f (run h p s).1) (run h p s).2 := by
  show run h (p.bind f) s = _
  induction p generalizing s with
  | ret a => rfl
  | op e k ih => exact ih _ _

/-! ## Demonic runs -/

/-- What a nondeterministic world does: `step e Q s` holds when every answer to
`e` in state `s` it may give, with the state after it, satisfies `Q`. -/
abbrev Demon (R : E → Type) (σ : Type) := (e : E) → (R e → σ → Prop) → σ → Prop

/-- Every run of the program ends in `Q`. -/
def wp (d : Demon R σ) : Prog R α → (α → σ → Prop) → σ → Prop
  | .ret a, Q, s => Q a s
  | .op e k, Q, s => d e (fun r s' => wp d (k r) Q s') s

variable (d : Demon R σ)

@[simp] theorem wp_pure (a : α) (Q : α → σ → Prop) (s : σ) : wp d (pure a) Q s ↔ Q a s := Iff.rfl

@[simp] theorem wp_perform (e : E) (Q : R e → σ → Prop) (s : σ) : wp d (perform e) Q s ↔ d e Q s := Iff.rfl

@[simp] theorem wp_bind (p : Prog R α) (f : α → Prog R β) (Q : β → σ → Prop) (s : σ) :
    wp d (p >>= f) Q s ↔ wp d p (fun a s' => wp d (f a) Q s') s := by
  show wp d (p.bind f) Q s ↔ _
  induction p generalizing s with
  | ret a => rfl
  | op e k ih =>
    have hk : (fun r s' => wp d ((k r).bind f) Q s') = fun r s' => wp d (k r) (fun a s' => wp d (f a) Q s') s' := by
      funext r s'
      exact propext (ih r s')
    show d e (fun r s' => wp d ((k r).bind f) Q s') s ↔ _
    rw [hk]
    rfl

def Demon.Mono (d : Demon R σ) : Prop :=
  ∀ e (Q Q' : R e → σ → Prop) s, (∀ r s', Q r s' → Q' r s') → d e Q s → d e Q' s

variable {d}

theorem wp_mono (hd : Demon.Mono d) {p : Prog R α} {Q Q' : α → σ → Prop} {s : σ}
    (hQ : ∀ a s', Q a s' → Q' a s') (h : wp d p Q s) : wp d p Q' s := by
  induction p generalizing s with
  | ret a => exact hQ a s h
  | op e k ih => exact hd e _ _ s (fun r s' hr => ih r hr) h

end Prog

end Lib
