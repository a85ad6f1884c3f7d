/-!
# State programs

A program over a state is a `StateM`; `wp p Q s` says that from `s` it ends with
an answer and a state that satisfy `Q`.
-/

namespace Lib

/-- Programs over the state `σ`. -/
abbrev Act (σ α : Type) := StateM σ α

namespace Act

variable {σ α β : Type}

def wp (p : Act σ α) (Q : α → σ → Prop) (s : σ) : Prop := Q (p s).1 (p s).2

variable {Q Q' : α → σ → Prop} {s : σ}

@[simp] theorem wp_pure (a : α) : wp (pure a) Q s ↔ Q a s := Iff.rfl

@[simp] theorem wp_bind (p : Act σ α) (f : α → Act σ β) (R : β → σ → Prop) :
    wp (p >>= f) R s ↔ wp p (fun a s' => wp (f a) R s') s := Iff.rfl

@[simp] theorem wp_get {R : σ → σ → Prop} : wp (get : Act σ σ) R s ↔ R s s := Iff.rfl

@[simp] theorem wp_modify (f : σ → σ) {R : Unit → σ → Prop} : wp (modify f : Act σ Unit) R s ↔ R ⟨⟩ (f s) := Iff.rfl

theorem wp_mono {p : Act σ α} (h : wp p Q s) (hQ : ∀ a s', Q a s' → Q' a s') : wp p Q' s := hQ _ _ h

theorem wp_then {p : Act σ α} {f : α → Act σ β} {R : β → σ → Prop} (h : wp p Q s) (hf : ∀ a s', Q a s' → wp (f a) R s') :
    wp (p >>= f) R s := hf _ _ h

theorem wp_of_eq {p : Act σ α} {a : α} {s' : σ} (he : p s = (a, s')) (h : Q a s') : wp p Q s := by
  unfold wp
  rwa [he]

theorem run_of_wp {p : Act σ α} {a : α} {s' : σ} (h : wp p Q s) (he : p s = (a, s')) : Q a s' := by
  unfold wp at h
  rwa [he] at h

end Act

end Lib
