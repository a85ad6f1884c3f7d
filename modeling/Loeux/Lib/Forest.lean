import Mathlib.Logic.Function.Basic
import Mathlib.Tactic.SplitIfs
/-!
# Pointer forests

Blocks that hold pointers to blocks. A slot is a root and the path below it,
the last index first; the pointer in a slot is read from the block its parent
slot names, and 0 is no block. Linking a fresh block changes the pointer in one
slot, and writes to blocks that no inner slot names change none.
-/

namespace Lib.Forest

variable {ρ : Type}

def follow (entry : Nat → Nat → Nat) (v : Nat) : List Nat → Nat
  | [] => v
  | i :: p => if follow entry v p = 0 then 0 else entry (follow entry v p) i

def ptr (root : ρ → Nat) (entry : Nat → Nat → Nat) (x : ρ × List Nat) : Nat :=
  follow entry (root x.1) x.2

def Inj {σ : Type} (D : σ → Prop) (f : σ → Nat) : Prop :=
  ∀ x y, D x → D y → f x ≠ 0 → f x = f y → x = y

theorem Inj.update {σ : Type} [DecidableEq σ] {D : σ → Prop} {f f' : σ → Nat} {x : σ} {b : Nat}
    (h : Inj D f) (hf : ∀ y, D y → f' y = if y = x then b else f y) (hb : ∀ y, D y → f y ≠ b) :
    Inj D f' := by
  intro y z hy hz hne he
  rw [hf y hy] at hne he
  rw [hf z hz] at he
  split_ifs at hne he with h1 h2 h2
  · rw [h1, h2]
  · exact absurd he.symm (hb z hz)
  · exact absurd he (hb y hy)
  · exact h y z hy hz hne he

section

variable {root root' : ρ → Nat} {entry entry' : Nat → Nat → Nat} {D : ρ × List Nat → Prop}

theorem ptr_cons (r : ρ) (i : Nat) (p : List Nat) :
    ptr root entry (r, i :: p) = if ptr root entry (r, p) = 0 then 0 else entry (ptr root entry (r, p)) i :=
  rfl

theorem ptr_congr (hD : ∀ r i p, D (r, i :: p) → D (r, p)) (hr : ∀ r, D (r, []) → root' r = root r)
    (he : ∀ r i p, D (r, i :: p) → ptr root entry (r, p) ≠ 0 →
      entry' (ptr root entry (r, p)) i = entry (ptr root entry (r, p)) i) :
    ∀ x, D x → ptr root' entry' x = ptr root entry x := by
  rintro ⟨r, p⟩ hx
  induction p with
  | nil => exact hr r hx
  | cons i p ih =>
    rw [ptr_cons, ptr_cons, ih (hD r i p hx)]
    by_cases h : ptr root entry (r, p) = 0
    · rw [if_pos h, if_pos h]
    · rw [if_neg h, if_neg h, he r i p hx h]

variable [DecidableEq ρ]

theorem ptr_update_root (root : ρ → Nat) {r : ρ} {b : Nat} (hr : root r = 0) (hb : ∀ i, entry b i = 0) :
    ∀ x, ptr (Function.update root r b) entry x = if x = (r, []) then b else ptr root entry x := by
  rintro ⟨r', p⟩
  induction p with
  | nil =>
    by_cases h : r' = r
    · subst h; simp [ptr, follow]
    · simp [ptr, follow, h]
  | cons i p ih =>
    rw [ptr_cons, ptr_cons, ih, if_neg (show ¬(r', i :: p) = (r, []) by simp)]
    by_cases h : (r', p) = (r, [])
    · cases h
      simp [hb, ptr, follow, hr]
    · rw [if_neg h]

theorem ptr_update (hD : ∀ r i p, D (r, i :: p) → D (r, p)) {r : ρ} {p : List Nat} {i P b : Nat}
    (hP : ∀ r' j q, D (r', j :: q) → ptr root entry (r', q) = P → (r', q) = (r, p))
    (hx : ptr root entry (r, p) = P) (hP0 : P ≠ 0)
    (hbelow : ∀ j, D (r, j :: i :: p) → entry' b j = 0 ∧ ptr root entry (r, j :: i :: p) = 0)
    (he : ∀ c j, entry' c j = if c = P ∧ j = i then b else entry c j) :
    ∀ y, D y → ptr root entry' y = if y = (r, i :: p) then b else ptr root entry y := by
  rintro ⟨r', q⟩ hy
  induction q with
  | nil => simp [ptr, follow]
  | cons j q ih =>
    rw [ptr_cons, ih (hD r' j q hy)]
    by_cases h : (r', q) = (r, i :: p)
    · cases h
      simp [hbelow j hy]
    rw [if_neg h, ptr_cons, he]
    by_cases hq : ptr root entry (r', q) = P
    · cases hP r' j q hy hq
      by_cases hj : j = i
      · subst hj
        simp [hx, hP0]
      · simp [hx, hP0, hj]
    · have hne' : ¬(r', j :: q) = (r, i :: p) := by
        intro e
        simp only [Prod.mk.injEq, List.cons.injEq] at e
        apply hq
        rw [e.1, e.2.2]
        exact hx
      rw [if_neg hne']
      simp [hq]

theorem ptr_update_entry (hD : ∀ r i p, D (r, i :: p) → D (r, p)) (hinj : Inj D (ptr root entry))
    {r : ρ} {p : List Nat} {i P b : Nat} (hx : D (r, p)) (hP : ptr root entry (r, p) = P) (hP0 : P ≠ 0)
    (hz : entry P i = 0) (hb : ∀ j, entry b j = 0) (hbP : b ≠ P)
    (he : ∀ c j, entry' c j = if c = P ∧ j = i then b else entry c j) :
    ∀ y, D y → ptr root entry' y = if y = (r, i :: p) then b else ptr root entry y := by
  refine ptr_update hD (fun r' j q hy hq => ?_) hP hP0 (fun j _ => ⟨?_, ?_⟩) he
  · exact hinj _ _ (hD r' j q hy) hx (by rw [hq]; exact hP0) (by rw [hq, hP])
  · rw [he, if_neg fun h => hbP h.1, hb]
  · simp [ptr_cons, hP, hz]

end

end Lib.Forest
