import Mathlib.Data.List.Perm.Basic
/-!
# Chained buckets

A list of chains in which an element stands in the chain that its hash names. The
elements of all chains are what the structure holds; a search in one chain finds
what a search among all of them finds.
-/

open List

namespace Lib.Buckets

variable {α : Type}

/-- Put `x` in front of chain `i`. -/
def push (b : List (List α)) (i : Nat) (x : α) : List (List α) := b.modify i (x :: ·)

/-- Move every element, chain by chain, to the chains of a new array of `n`. -/
def spread (h : α → Nat) (n : Nat) (b : List (List α)) : List (List α) :=
  b.foldl (fun nb c => c.foldl (fun nb x => push nb (h x % n) x) nb) (List.replicate n [])

/-- Every element stands in the chain of its hash. -/
def Placed (h : α → Nat) (b : List (List α)) : Prop :=
  ∀ i c, b[i]? = some c → ∀ x ∈ c, h x % b.length = i

section

variable {h : α → Nat} {b : List (List α)} {i n : Nat} {c : List α} {x : α}

@[simp] theorem length_push : (push b i x).length = b.length := length_modify ..

theorem placed_replicate : Placed h (replicate n []) := by
  intro i c hc x hx
  rw [getElem?_replicate] at hc
  split at hc
  · cases hc
    cases hx
  · cases hc

theorem flatten_set_perm {c' : List α} (hc : b[i]? = some c) :
    ∃ rest, b.flatten.Perm (c ++ rest) ∧ (b.set i c').flatten.Perm (c' ++ rest) := by
  induction b generalizing i with
  | nil => cases hc
  | cons d b ih =>
    cases i with
    | zero =>
      obtain rfl : d = c := Option.some.inj hc
      exact ⟨b.flatten, .refl _, .refl _⟩
    | succ i =>
      obtain ⟨rest, h1, h2⟩ := ih hc
      refine ⟨d ++ rest, ?_, ?_⟩
      · exact (h1.append_left d).trans (perm_append_comm_assoc ..)
      · exact (h2.append_left d).trans (perm_append_comm_assoc ..)

theorem push_eq_set (hc : b[i]? = some c) : push b i x = b.set i (x :: c) := by
  rw [push, modify_eq_set_getElem?, hc]
  rfl

theorem push_perm (hi : i < b.length) : (push b i x).flatten.Perm (x :: b.flatten) := by
  have hc := getElem?_eq_getElem hi
  obtain ⟨rest, h1, h2⟩ := @flatten_set_perm _ b i _ (x :: b[i]) hc
  rw [push_eq_set hc]
  exact h2.trans (h1.symm.cons x)

theorem Placed.set (hp : Placed h b) (hx : ∀ x ∈ c, h x % b.length = i) : Placed h (b.set i c) := by
  intro j d hd x hxd
  rw [length_set]
  rw [getElem?_set] at hd
  split at hd
  · next e =>
    subst e
    split at hd
    · cases hd
      exact hx x hxd
    · cases hd
  · exact hp j d hd x hxd

theorem Placed.push (hp : Placed h b) (hx : h x % b.length = i) : Placed h (push b i x) := by
  cases hc : b[i]? with
  | none =>
    rwa [Buckets.push, modify_eq_set_getElem?, hc]
  | some c =>
    rw [push_eq_set hc]
    refine hp.set fun y hy => ?_
    rcases mem_cons.1 hy with rfl | hy
    · exact hx
    · exact hp i c hc y hy

theorem find?_flatten {p : α → Bool} (hp : Placed h b) (hc : b[i]? = some c)
    (hpi : ∀ x, p x = true → h x % b.length = i) : b.flatten.find? p = c.find? p := by
  rw [List.find?_flatten]
  have hother : ∀ j d, b[j]? = some d → j ≠ i → d.find? p = none := fun j d hd hj => by
    rw [find?_eq_none]
    intro x hx hpx
    exact hj ((hp j d hd x hx).symm.trans (hpi x hpx))
  cases hf : c.find? p with
  | none =>
    rw [findSome?_eq_none_iff]
    intro d hd
    obtain ⟨j, hj⟩ := getElem?_of_mem hd
    by_cases e : j = i
    · rw [e, hc] at hj
      cases hj
      exact hf
    · exact hother j d hj e
  | some x =>
    have hi := (List.getElem?_eq_some_iff.1 hc).1
    have hsplit := take_append_drop i b
    rw [← hsplit, findSome?_append, drop_eq_getElem_cons hi, findSome?_cons, (List.getElem?_eq_some_iff.1 hc).2, hf]
    have hnone : (b.take i).findSome? (fun d => d.find? p) = none := by
      rw [findSome?_eq_none_iff]
      intro d hd
      obtain ⟨j, hj⟩ := getElem?_of_mem hd
      rw [getElem?_take] at hj
      split at hj
      · exact hother j d hj (by omega)
      · cases hj
    rw [hnone]
    rfl

theorem foldl_push {l : List α} (hn : b.length = n) (hn0 : 0 < n) (hp : Placed h b) :
    (l.foldl (fun nb x => push nb (h x % n) x) b).length = n ∧ Placed h (l.foldl (fun nb x => push nb (h x % n) x) b) ∧
      (l.foldl (fun nb x => push nb (h x % n) x) b).flatten.Perm (l ++ b.flatten) := by
  induction l generalizing b with
  | nil => exact ⟨hn, hp, .refl _⟩
  | cons x l ih =>
    have hi : h x % n < b.length := by
      rw [hn]
      exact Nat.mod_lt _ hn0
    obtain ⟨h1, h2, h3⟩ := @ih (push b (h x % n) x) (length_push.trans hn) (hp.push (by rw [hn]))
    refine ⟨h1, h2, h3.trans ?_⟩
    exact ((push_perm hi).append_left l).trans perm_middle

theorem spread_eq : spread h n b = b.flatten.foldl (fun nb x => push nb (h x % n) x) (replicate n []) :=
  foldl_flatten.symm

theorem length_spread (hn : 0 < n) : (spread h n b).length = n := by
  rw [spread_eq]
  exact (foldl_push length_replicate hn placed_replicate).1

theorem placed_spread (hn : 0 < n) : Placed h (spread h n b) := by
  rw [spread_eq]
  exact (foldl_push length_replicate hn placed_replicate).2.1

theorem spread_perm (hn : 0 < n) : (spread h n b).flatten.Perm b.flatten := by
  have := (@foldl_push _ h (replicate n []) n b.flatten length_replicate hn placed_replicate).2.2
  rw [spread_eq]
  simpa using this

end

end Lib.Buckets
