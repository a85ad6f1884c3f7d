import Loeux.Lib.Tally
/-!
# Counting the holders of an object

`n` places, each of which may hold a reference to an object. Storing into one
place changes the number of holders of the object it held and of the one it
holds then, and of no other.
-/

open Function

namespace Lib.Refs

/-- One for the object `i` if `r` refers to it. -/
def one (r : Option Nat) (i : Nat) : Nat := if r = some i then 1 else 0

@[simp] theorem one_self (i : Nat) : one (some i) i = 1 := if_pos rfl

theorem one_of_ne {i j : Nat} (h : j ≠ i) : one (some j) i = 0 := if_neg fun e => h (Option.some.inj e)

def count (n : Nat) (ref : Nat → Option Nat) (i : Nat) : Nat := ∑ k ∈ Finset.range n, one (ref k) i

variable {n k i : Nat} {ref ref' : Nat → Option Nat}

theorem count_congr (h : ∀ k, k < n → ref' k = ref k) : count n ref' i = count n ref i :=
  Finset.sum_congr rfl fun k hk => by rw [h k (Finset.mem_range.1 hk)]

theorem count_update (hk : k < n) (r : Option Nat) (h : ∀ j, j < n → ref' j = update ref k r j) :
    count n ref' i + one (ref k) i = count n ref i + one r i := by
  have e : ∀ j, one (update ref k r j) i = update (fun j => one (ref j) i) k (one r i) j := by
    intro j
    by_cases hj : j = k
    · subst hj
      simp
    · simp [hj]
  rw [count_congr h, count, Finset.sum_congr rfl fun j _ => e j]
  exact Tally.sum_update (fun j => one (ref j) i) hk (one r i)

theorem count_succ : count (n + 1) ref i = count n ref i + one (ref n) i := Finset.sum_range_succ _ _

theorem count_pos (hk : k < n) (h : ref k = some i) : 0 < count n ref i := by
  have h1 : one (ref k) i ≤ count n ref i :=
    Finset.single_le_sum (f := fun k => one (ref k) i) (fun _ _ => Nat.zero_le _) (Finset.mem_range.2 hk)
  rw [h, one_self] at h1
  exact h1

end Lib.Refs
