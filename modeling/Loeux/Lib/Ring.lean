import Mathlib.Data.List.Basic
import Mathlib.Data.Nat.ModEq
import Mathlib.Logic.Function.Basic
import Mathlib.Tactic.SplitIfs
/-!
# Circular buffers

A buffer of `n` slots between a head and a tail that move round, with one slot
left free. `items` is the queue it stands for.
-/

open Function List Nat

namespace Lib

/-! ## Slots that are used round and round -/

section

variable {α : Type} {f : Nat → α} {size a n : Nat}

def window (f : Nat → α) (size a n : Nat) : List α := (List.range n).map fun i => f ((a + i) % size)

@[simp] theorem length_window : (window f size a n).length = n := by simp [window]

theorem window_snoc : window f size a (n + 1) = window f size a n ++ [f ((a + n) % size)] := by
  simp only [window, range_succ, map_append, map_cons, map_nil]

theorem window_cons : window f size a (n + 1) = f (a % size) :: window f size (a + 1) n := by
  simp only [window, range_succ_eq_map, map_cons, map_map, Nat.add_zero, comp_def, succ_eq_add_one,
    Nat.add_comm 1, Nat.add_assoc]

theorem mem_window {x : α} : x ∈ window f size a n ↔ ∃ i < n, f ((a + i) % size) = x := by
  simp [window]

theorem slot_ne {i : Nat} (hi : i < n) (hn : n < size) : (a + i) % size ≠ (a + n) % size := by
  intro h
  have hmod : i ≡ n [MOD size] := Nat.ModEq.add_left_cancel' a h
  have := Nat.ModEq.eq_of_lt_of_lt hmod (hi.trans hn) hn
  omega

theorem window_update (hn : n < size) (x : α) : window (update f ((a + n) % size) x) size a n = window f size a n :=
  map_congr_left fun _ hi => update_of_ne (slot_ne (mem_range.1 hi) hn) _ _

theorem window_push (hn : n < size) (x : α) :
    window (update f ((a + n) % size) x) size a (n + 1) = window f size a n ++ [x] := by
  rw [window_snoc, window_update hn, update_self]

end

/-! ## Buffers -/

structure Ring (α : Type) (n : Nat) where
  buf : Nat → α
  head : Nat
  tail : Nat
  head_lt : head < n
  tail_lt : tail < n

namespace Ring

variable {α : Type} {n : Nat}

def len (r : Ring α n) : Nat := (r.tail + n - r.head) % n

def items (r : Ring α n) : List α := window r.buf n r.head r.len

def Full (r : Ring α n) : Prop := (r.tail + 1) % n = r.head

instance (r : Ring α n) : Decidable r.Full := inferInstanceAs (Decidable (_ = _))

theorem pos (r : Ring α n) : 0 < n := Nat.lt_of_le_of_lt (Nat.zero_le _) r.head_lt

/-- Nothing is stored in a full buffer. -/
def push (r : Ring α n) (a : α) : Ring α n :=
  if r.Full then r
  else { r with buf := Function.update r.buf r.tail a, tail := (r.tail + 1) % n, tail_lt := Nat.mod_lt _ r.pos }

/-- Elements in order until the buffer is full. -/
def pushAll (r : Ring α n) : List α → Ring α n
  | [] => r
  | a :: as => if r.Full then r else (r.push a).pushAll as

def pop (r : Ring α n) : Option (α × Ring α n) :=
  if r.head = r.tail then none
  else some (r.buf r.head, { r with head := (r.head + 1) % n, head_lt := Nat.mod_lt _ r.pos })

variable {r : Ring α n}

theorem mod_once {a : Nat} (h : a < 2 * n) : a % n = if a < n then a else a - n := by
  split_ifs with hlt
  · exact mod_eq_of_lt hlt
  · rw [mod_eq_sub_mod (by omega), mod_eq_of_lt (by omega)]

theorem len_eq : r.len = if r.head ≤ r.tail then r.tail - r.head else r.tail + n - r.head := by
  have := r.head_lt
  have := r.tail_lt
  unfold len
  rw [mod_once (by omega)]
  split_ifs <;> omega

theorem len_lt : r.len < n := mod_lt _ r.pos

theorem full_iff : r.Full ↔ r.len = n - 1 := by
  have := r.head_lt
  have := r.tail_lt
  unfold Full
  rw [mod_once (by omega), len_eq]
  split_ifs <;> omega

theorem slot_len : (r.head + r.len) % n = r.tail := by
  have := r.head_lt
  have := r.tail_lt
  have := r.len_lt
  rw [mod_once (by omega), len_eq]
  split_ifs <;> omega

theorem items_push (h : ¬r.Full) (a : α) : (r.push a).items = r.items ++ [a] := by
  have hh := r.head_lt
  have ht := r.tail_lt
  have hn : ¬r.len = n - 1 := fun e => h (full_iff.2 e)
  have hlen : (r.push a).len = r.len + 1 := by
    have htail : (r.push a).tail = if r.tail + 1 < n then r.tail + 1 else r.tail + 1 - n := by
      rw [push, if_neg h]
      exact mod_once (by omega)
    have hhead : (r.push a).head = r.head := by rw [push, if_neg h]
    rw [len_eq] at hn
    rw [len_eq, htail, hhead, len_eq]
    split_ifs at hn ⊢ <;> omega
  have hbuf : (r.push a).buf = update r.buf r.tail a := by rw [push, if_neg h]
  have hhead : (r.push a).head = r.head := by rw [push, if_neg h]
  unfold items
  rw [hlen, hbuf, hhead]
  have hroom : r.len < n := r.len_lt
  exact slot_len (r := r) ▸ window_push hroom a

end Ring

end Lib
