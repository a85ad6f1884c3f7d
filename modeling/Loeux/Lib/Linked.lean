import Mathlib.Data.List.Nodup
/-!
# Linked cells

The cells that a chain of `next` pointers visits, as a list. A chain is determined by
where it begins; a change of pointers outside its cells leaves it alone. The same for
chains with pointers in both directions.
-/

open List

namespace Lib

variable {α : Type}

/-- From `a` on, `next` leads through the cells `l`, one after the other, and then to `e`. -/
def Seg (next : α → Option α) : Option α → List α → Option α → Prop
  | a, [], e => a = e
  | a, x :: l, e => a = some x ∧ Seg next (next x) l e

variable {next next' : α → Option α} {a e : Option α} {l l' : List α} {x z : α}

theorem Seg.congr (h : Seg next a l e) (hn : ∀ x ∈ l, next' x = next x) : Seg next' a l e := by
  induction l generalizing a with
  | nil => exact h
  | cons x l ih =>
    refine ⟨h.1, ?_⟩
    rw [hn x mem_cons_self]
    exact ih h.2 fun y hy => hn y (mem_cons_of_mem _ hy)

theorem seg_append : Seg next a (l ++ l') e ↔ ∃ m, Seg next a l m ∧ Seg next m l' e := by
  induction l generalizing a with
  | nil =>
    constructor
    · intro h
      exact ⟨a, rfl, h⟩
    · rintro ⟨m, rfl, h⟩
      exact h
  | cons x l ih =>
    constructor
    · rintro ⟨rfl, h⟩
      obtain ⟨m, h1, h2⟩ := ih.1 h
      exact ⟨m, ⟨rfl, h1⟩, h2⟩
    · rintro ⟨m, ⟨rfl, h1⟩, h2⟩
      exact ⟨rfl, ih.2 ⟨m, h1, h2⟩⟩

theorem Seg.snoc (h : Seg next a l (some x)) (hx : next x = e) : Seg next a (l ++ [x]) e :=
  seg_append.2 ⟨some x, h, rfl, hx⟩

theorem Seg.redirect (h : Seg next a (l ++ [z]) e) (hn : ∀ x ∈ l, next' x = next x) :
    Seg next' a (l ++ [z]) (next' z) := by
  obtain ⟨m, h1, rfl, -⟩ := seg_append.1 h
  exact (h1.congr hn).snoc rfl

theorem Seg.unique (h : Seg next a l none) (h' : Seg next a l' none) : l = l' := by
  induction l generalizing a l' with
  | nil =>
    obtain rfl : a = none := h
    cases l' with
    | nil => rfl
    | cons y l' => cases h'.1
  | cons x l ih =>
    obtain ⟨rfl, h⟩ := h
    cases l' with
    | nil => cases h'
    | cons y l' =>
      obtain ⟨hy, h'⟩ := h'
      cases hy
      rw [ih h h']

theorem Seg.nodup (h : Seg next a l none) : l.Nodup := by
  induction l generalizing a with
  | nil => exact nodup_nil
  | cons x l ih =>
    obtain ⟨-, h⟩ := h
    refine nodup_cons.2 ⟨fun hx => ?_, ih h⟩
    obtain ⟨l1, l2, rfl⟩ := append_of_mem hx
    obtain ⟨m, -, -, h2⟩ := seg_append.1 h
    have hlen := congrArg length (h.unique h2)
    rw [length_append, length_cons] at hlen
    omega

theorem Seg.next_of_mem (h : Seg next a l e) (hx : x ∈ l) : next x = e ∨ ∃ y ∈ l, next x = some y := by
  induction l generalizing a with
  | nil => cases hx
  | cons y l ih =>
    obtain ⟨-, h⟩ := h
    rcases mem_cons.1 hx with rfl | hx
    · cases l with
      | nil => exact .inl h
      | cons z l => exact .inr ⟨z, by simp, h.1⟩
    · rcases ih h hx with h | ⟨z, hz, h⟩
      · exact .inl h
      · exact .inr ⟨z, mem_cons_of_mem _ hz, h⟩

/-! ## Pointers in both directions -/

def DSeg (next prev : α → α) : α → List α → α → Prop
  | _, [], _ => True
  | p, x :: l, n => prev x = p ∧ next x = l.headD n ∧ DSeg next prev x l n

section
variable {next prev next' prev' : α → α} {p n x : α} {l l' : List α}

theorem DSeg.congr (h : DSeg next prev p l n) (hn : ∀ x ∈ l, next' x = next x)
    (hp : ∀ x ∈ l, prev' x = prev x) : DSeg next' prev' p l n := by
  induction l generalizing p with
  | nil => exact trivial
  | cons x l ih =>
    obtain ⟨h1, h2, h3⟩ := h
    refine ⟨(hp x mem_cons_self).trans h1, (hn x mem_cons_self).trans h2, ?_⟩
    exact ih h3 (fun y hy => hn y (mem_cons_of_mem _ hy)) fun y hy => hp y (mem_cons_of_mem _ hy)

theorem dseg_append : DSeg next prev p (l ++ l') n ↔
    DSeg next prev p l (l'.headD n) ∧ DSeg next prev (l.getLastD p) l' n := by
  induction l generalizing p with
  | nil => exact ⟨fun h => ⟨trivial, h⟩, fun h => h.2⟩
  | cons x l ih =>
    have hh : (l ++ l').headD n = l.headD (l'.headD n) := by cases l <;> rfl
    have hl : (x :: l).getLastD p = l.getLastD x := by cases l <;> rfl
    simp only [cons_append, DSeg, hh, hl, ih, and_assoc]

theorem dseg_mid : DSeg next prev p (l ++ x :: l') n ↔
    DSeg next prev p l x ∧ prev x = l.getLastD p ∧ next x = l'.headD n ∧ DSeg next prev x l' n := by
  rw [dseg_append]
  exact Iff.rfl

end

end Lib
