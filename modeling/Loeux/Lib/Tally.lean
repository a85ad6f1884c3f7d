import Mathlib.Algebra.BigOperators.Group.Finset.Piecewise
import Mathlib.Algebra.Order.BigOperators.Group.Finset
/-!
# Counters that follow bits

`ng` groups of `per` bits each, a counter of each group's set bits and a total.
The counters are machine integers: one is taken away by adding the modulus less
one.
-/

open Function

namespace Lib.Tally

def count (per : Nat) (f : Nat → Bool) : Nat := ((Finset.range per).filter (f · = true)).card

theorem count_le (per : Nat) (f : Nat → Bool) : count per f ≤ per := by
  simpa [count] using Finset.card_filter_le (Finset.range per) (f · = true)

theorem count_set {per i : Nat} {f : Nat → Bool} (hi : i < per) (hf : f i = false) :
    count per (update f i true) = count per f + 1 := by
  have h : (Finset.range per).filter (update f i true · = true) =
      insert i ((Finset.range per).filter (f · = true)) := by
    ext j
    by_cases hj : j = i
    · subst hj; simp [hi]
    · simp [hj]
  rw [count, h, Finset.card_insert_of_notMem (by simp [hf])]
  rfl

theorem count_clear {per i : Nat} {f : Nat → Bool} (hi : i < per) (hf : f i = true) :
    count per (update f i false) + 1 = count per f := by
  rw [← count_set hi (update_self ..), update_idem, ← hf, update_eq_self]

theorem count_congr {per : Nat} {f f' : Nat → Bool} (h : ∀ i, i < per → f' i = f i) : count per f' = count per f := by
  rw [count, count]
  congr 1
  exact Finset.filter_congr fun i hi => by rw [h i (Finset.mem_range.1 hi)]

/-- The counters `cnt` and `total` say how many of the bits `f g i` are set. -/
structure Counts (ng per : Nat) (f : Nat → Nat → Bool) (cnt : Nat → Nat) (total : Nat) : Prop where
  each : ∀ g, g < ng → cnt g = count per (f g)
  sum : total = ∑ g ∈ Finset.range ng, cnt g

variable {ng per g i m M : Nat} {f f' : Nat → Nat → Bool} {cnt : Nat → Nat} {total : Nat}

theorem sum_le (h : Counts ng per f cnt total) : total ≤ ng * per := by
  rw [h.sum]
  have := Finset.sum_le_card_nsmul (Finset.range ng) cnt per
    (fun g hg => by rw [h.each g (Finset.mem_range.1 hg)]; exact count_le _ _)
  simpa using this

theorem sum_update (cnt : Nat → Nat) (hg : g < ng) (c : Nat) : ∑ h ∈ Finset.range ng, update cnt g c h + cnt g =
      ∑ h ∈ Finset.range ng, cnt h + c := by
  have hm := Finset.mem_range.2 hg
  rw [Finset.sum_update_of_mem hm, ← Finset.add_sum_erase _ _ hm, Finset.sdiff_singleton_eq_erase]
  omega

theorem Counts.set (h : Counts ng per f cnt total) (hg : g < ng) (hi : i < per) (hf : f g i = false)
    (hf' : ∀ g' j, g' < ng → j < per → f' g' j = if g' = g ∧ j = i then true else f g' j)
    (hm : per < m) (hM : ng * per < M) :
    Counts ng per f' (update cnt g ((cnt g + 1) % m)) ((total + 1) % M) := by
  have hc := h.each g hg
  have hset := count_set hi hf
  have hle := count_le per (update (f g) i true)
  have e1 : (cnt g + 1) % m = cnt g + 1 := Nat.mod_eq_of_lt (by omega)
  have hs := sum_update cnt hg (cnt g + 1)
  have each' : ∀ g', g' < ng → update cnt g (cnt g + 1) g' = count per (f' g') := by
    intro g' hg'
    by_cases e : g' = g
    · subst e
      rw [update_self, hc, ← hset]
      exact (count_congr fun j hj => by simp [hf' g' j hg' hj, update_apply]).symm
    · rw [update_of_ne e, h.each g' hg']
      exact (count_congr fun j hj => by simp [hf' g' j hg' hj, e]).symm
  have hsum : total + 1 = ∑ h ∈ Finset.range ng, update cnt g (cnt g + 1) h := by
    have := h.sum; omega
  have hlt := sum_le (Counts.mk each' hsum)
  rw [e1, Nat.mod_eq_of_lt (by omega)]
  exact ⟨each', hsum⟩

theorem Counts.clear (h : Counts ng per f cnt total) (hg : g < ng) (hi : i < per) (hf : f g i = true)
    (hf' : ∀ g' j, g' < ng → j < per → f' g' j = if g' = g ∧ j = i then false else f g' j)
    (hm : per < m) (hM : ng * per < M) :
    Counts ng per f' (update cnt g ((cnt g + (m - 1)) % m)) ((total + (M - 1)) % M) := by
  have hc := h.each g hg
  have hclear := count_clear hi hf
  have hle := count_le per (f g)
  have htot := sum_le h
  have e1 : (cnt g + (m - 1)) % m = cnt g - 1 := by
    rw [show cnt g + (m - 1) = cnt g - 1 + m by omega, Nat.add_mod_right, Nat.mod_eq_of_lt (by omega)]
  have hs := sum_update cnt hg (cnt g - 1)
  have hge : cnt g ≤ total := by
    rw [h.sum]; exact Finset.single_le_sum (fun _ _ => Nat.zero_le _) (Finset.mem_range.2 hg)
  have e2 : (total + (M - 1)) % M = total - 1 := by
    rw [show total + (M - 1) = total - 1 + M by omega, Nat.add_mod_right, Nat.mod_eq_of_lt (by omega)]
  rw [e1, e2]
  refine ⟨fun g' hg' => ?_, by have := h.sum; omega⟩
  by_cases e : g' = g
  · subst e
    have : count per (f' g') = count per (update (f g') i false) :=
      count_congr fun j hj => by simp [hf' g' j hg' hj, update_apply]
    rw [update_self]
    omega
  · rw [update_of_ne e, h.each g' hg']
    exact (count_congr fun j hj => by simp [hf' g' j hg' hj, e]).symm

end Lib.Tally
