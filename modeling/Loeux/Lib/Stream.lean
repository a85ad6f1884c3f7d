import Mathlib.Data.List.Basic
/-!
# Streams of events through a function

The states that a total step function goes through along a list of events, and
the rule for a condition that is exact at each step.
-/

open List

namespace Lib

variable {σ ε : Type} {next : σ → ε → σ} {s : σ} {e : ε} {es : List ε} {n : Nat}

/-- The state after the first `n` events. -/
def after (next : σ → ε → σ) (s : σ) (es : List ε) (n : Nat) : σ := (es.take n).foldl next s

theorem after_succ (he : es[n]? = some e) : after next s es (n + 1) = next (after next s es n) e := by
  obtain ⟨hlt, rfl⟩ := List.getElem?_eq_some_iff.1 he
  unfold after
  rw [take_succ_eq_append_getElem hlt, foldl_append]
  rfl

theorem after_succ_of_end (he : es[n]? = none) : after next s es (n + 1) = after next s es n := by
  have hlen := List.getElem?_eq_none_iff.1 he
  unfold after
  rw [take_of_length_le hlen, take_of_length_le (Nat.le_succ_of_le hlen)]

/-- What holds first and is kept by each step that is taken. -/
theorem after_inv {I : σ → Prop} (h0 : I s) (hs : ∀ n e, es[n]? = some e → I (after next s es n) → I (next (after next s es n) e))
    (n : Nat) : I (after next s es n) := by
  induction n with
  | zero => exact h0
  | succ n ih =>
    cases he : es[n]? with
    | none =>
      rw [after_succ_of_end he]
      exact ih
    | some e =>
      rw [after_succ he]
      exact hs n e he ih

/-- A condition that is exact for each step from a good state is exact for a stream. -/
theorem forall_steps_iff {I : σ → Prop} {Good Calm : σ → ε → Prop} (hiff : ∀ s e, I s → (Good s e ↔ Calm s e))
    (hkeep : ∀ s e, I s → Good s e → I (next s e)) (h0 : I s) :
    (∀ n e, es[n]? = some e → Good (after next s es n) e) ↔ ∀ n e, es[n]? = some e → Calm (after next s es n) e := by
  constructor
  · intro hgood n e he
    exact (hiff _ e (after_inv h0 (fun n e he hi => hkeep _ e hi (hgood n e he)) n)).1 (hgood n e he)
  · intro hcalm n e he
    exact (hiff _ e (after_inv h0 (fun n e he hi => hkeep _ e hi ((hiff _ e hi).2 (hcalm n e he))) n)).2 (hcalm n e he)

theorem forall_states_iff {I : σ → Prop} {Calm : σ → ε → Prop} (hiff : ∀ s e, I s → (I (next s e) ↔ Calm s e)) (h0 : I s) :
    (∀ n, I (after next s es n)) ↔ ∀ n e, es[n]? = some e → Calm (after next s es n) e := by
  constructor
  · intro hall n e he
    have hnext := hall (n + 1)
    rw [after_succ he] at hnext
    exact (hiff _ e (hall n)).1 hnext
  · intro hcalm n
    exact after_inv h0 (fun n e he hi => (hiff _ e hi).2 (hcalm n e he)) n

end Lib
