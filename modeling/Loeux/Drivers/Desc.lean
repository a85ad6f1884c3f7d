import Mathlib
/-!
# Descriptors of the disk queue (`drivers/virtio_disk.c`)

`alloc_desc` marks free descriptors in a bitmap and links them to a chain;
`free_desc` follows the chain. The bit of a descriptor is `1 << i` with the `int`
shift of the machine: the count is taken modulo 32 and bit 31 is extended, so
the bitmap says what it should for the first 32 descriptors and no others are handed out.
-/

open Function List Nat

namespace Disk

def QUEUE_SIZE : Nat := 56

def END_OF_NEXT_FLAG : Nat := 0xffff

/-- `1 << i`, joined to a `uint64_t`. -/
def bit (i : Nat) : BitVec 64 := (1#32 <<< (i % 32)).signExtend 64

/-- `struct virtq_desc`; the address is that of a buffer of the call which filled it. -/
structure Desc (C : Type) where
  addr : Option C := none
  f_next : Bool := false
  f_write : Bool := false
  next : Nat := 0

structure Table (C : Type) where
  free_desc_bit_map : BitVec 64 := 0
  desc : Nat → Desc C := fun _ => {}

variable {C : Type}

def Table.taken (t : Table C) (i : Nat) : Prop := t.free_desc_bit_map &&& bit i ≠ 0#64

instance (t : Table C) (i : Nat) : Decidable (t.taken i) := inferInstanceAs (Decidable (_ ≠ _))

def Table.set (t : Table C) (i : Nat) (d : Desc C) : Table C := { t with desc := Function.update t.desc i d }

/-- The bit is set and the descriptor before, if any, is linked to this one. -/
def Table.take (t : Table C) (prev : Option Nat) (i : Nat) : Table C :=
  let t := { t with free_desc_bit_map := t.free_desc_bit_map ||| bit i }
  match prev with
  | none => t.set i { t.desc i with f_next := true }
  | some p => t.set p { t.desc p with next := i, f_next := true }

/-- The loop of `alloc_desc` over the descriptors `is`: the table and `found_idx`. -/
def allocLoop (n : Nat) : List Nat → Table C → List Nat → Table C × List Nat
  | [], t, found => (t, found)
  | i :: is, t, found =>
    if t.taken i then allocLoop n is t found
    else
      let t := t.take found.getLast? i
      if found.length + 1 = n then
        (t.set i { t.desc i with next := END_OF_NEXT_FLAG, f_next := false, f_write := false }, found ++ [i])
      else allocLoop n is t (found ++ [i])

def Table.drop (t : Table C) (i : Nat) : Table C :=
  { t.set i { t.desc i with next := END_OF_NEXT_FLAG, f_next := false, f_write := false } with
    free_desc_bit_map := t.free_desc_bit_map &&& ~~~bit i }

def allocDesc (n : Nat) (t : Table C) : Table C × Option Nat :=
  if n > QUEUE_SIZE then (t, none)
  else
    let r := allocLoop n (List.range QUEUE_SIZE) t []
    if r.2.length = n then (r.1, r.2.head?) else (r.2.foldl Table.drop r.1, none)

def freeLoop : Nat → Nat → Table C → Table C
  | 0, _, t => t
  | fuel + 1, i, t => if (t.desc i).f_next then freeLoop fuel (t.desc i).next (t.drop i) else t.drop i

def freeDesc (head : Nat) (t : Table C) : Table C := freeLoop (2 ^ 16) head t

/-! ## The bitmap -/

def Bits (b : BitVec 64) (S : Nat → Prop) : Prop := ∀ n < 64, b.getLsbD n = true ↔ S (min n 31)

theorem getLsbD_bit {i n : Nat} (hn : n < 64) : (bit i).getLsbD n = true ↔ min n 31 = i % 32 := by
  have hall : ∀ r < 32, ∀ n < 64, (((1#32 <<< r).signExtend 64).getLsbD n = true ↔ min n 31 = r) := by decide +kernel
  exact hall (i % 32) (mod_lt _ (by decide)) n hn

section Bitmap

variable {b : BitVec 64} {S S' : Nat → Prop} {i : Nat}

theorem Bits.taken_iff (h : Bits b S) : b &&& bit i ≠ 0#64 ↔ S (i % 32) := by
  have hi : i % 32 < 32 := mod_lt _ (by decide)
  constructor
  · intro hne
    by_contra hS
    refine hne (BitVec.eq_of_getLsbD_eq fun n hn => ?_)
    rw [BitVec.getLsbD_and, BitVec.getLsbD_zero]
    by_contra hbit
    rw [Bool.not_eq_false, Bool.and_eq_true, h n hn, getLsbD_bit hn] at hbit
    exact hS (hbit.2 ▸ hbit.1)
  · intro hS h0
    have hbit := congrArg (BitVec.getLsbD · (i % 32)) h0
    have hmin : min (i % 32) 31 = i % 32 := by omega
    simp only [BitVec.getLsbD_and, BitVec.getLsbD_zero] at hbit
    rw [(h _ (by omega)).2 (hmin.symm ▸ hS), (getLsbD_bit (by omega)).2 hmin] at hbit
    cases hbit

theorem Bits.set (h : Bits b S) : Bits (b ||| bit i) fun j => S j ∨ j = i % 32 := by
  intro n hn
  rw [BitVec.getLsbD_or, Bool.or_eq_true, h n hn, getLsbD_bit hn]

theorem Bits.clear (h : Bits b S) : Bits (b &&& ~~~bit i) fun j => S j ∧ j ≠ i % 32 := by
  intro n hn
  rw [BitVec.getLsbD_and, BitVec.getLsbD_not, Bool.and_eq_true, h n hn, Bool.and_eq_true, Bool.not_eq_true',
    ← Bool.not_eq_true, getLsbD_bit hn]
  simp [hn]

theorem Bits.congr (h : Bits b S) (hS : ∀ j < 32, S j ↔ S' j) : Bits b S' := by
  intro n hn
  rw [h n hn]
  exact hS _ (by omega)

end Bitmap

/-! ## Chains -/

/-- The descriptors of the list follow one another, and the last one ends the chain. -/
def Linked (d : Nat → Desc C) : List Nat → Prop
  | [] => False
  | [i] => (d i).f_next = false
  | i :: j :: is => (d i).f_next = true ∧ (d i).next = j ∧ Linked d (j :: is)

/-- The descriptors of the list are linked, and the last one is not yet. -/
def Joined (d : Nat → Desc C) (is : List Nat) : Prop := is.IsChain fun i j => (d i).f_next = true ∧ (d i).next = j

theorem Joined.linked {d : Nat → Desc C} {is : List Nat} {i : Nat} (h : Joined d (is ++ [i])) (hi : (d i).f_next = false) :
    Linked d (is ++ [i]) := by
  induction is with
  | nil => exact hi
  | cons j is ih =>
    cases is with
    | nil =>
      obtain ⟨⟨h1, h2⟩, h3⟩ := isChain_cons_cons.1 h
      exact ⟨h1, h2, hi⟩
    | cons k is =>
      obtain ⟨⟨h1, h2⟩, h3⟩ := isChain_cons_cons.1 h
      exact ⟨h1, h2, ih h3⟩

theorem Linked.congr {d d' : Nat → Desc C} {is : List Nat} (h : Linked d is)
    (hd : ∀ i ∈ is, (d' i).f_next = (d i).f_next ∧ (d' i).next = (d i).next) : Linked d' is := by
  induction is with
  | nil => exact h
  | cons i is ih =>
    obtain ⟨hf, hn⟩ := hd i mem_cons_self
    cases is with
    | nil => exact hf.trans h
    | cons j is => exact ⟨hf.trans h.1, hn.trans h.2.1, ih h.2.2 fun k hk => hd k (mem_cons_of_mem _ hk)⟩

/-! ## Giving back -/

section Drop

variable {S : Nat → Prop} {t : Table C} {i j : Nat} {is : List Nat}

theorem set_addr {d : Desc C} (hd : d.addr = (t.desc i).addr) : ((t.set i d).desc j).addr = (t.desc j).addr := by
  unfold Table.set
  dsimp only
  by_cases h : j = i
  · subst h
    rw [update_self, hd]
  · rw [update_of_ne h]

theorem drop_desc_of_ne (h : j ≠ i) : (t.drop i).desc j = t.desc j := update_of_ne h _ _

theorem drop_addr : ((t.drop i).desc j).addr = (t.desc j).addr := set_addr rfl

theorem foldl_drop_desc (h : j ∉ is) : (is.foldl Table.drop t).desc j = t.desc j := by
  induction is generalizing t with
  | nil => rfl
  | cons i is ih =>
    rw [foldl_cons, ih fun hj => h (mem_cons_of_mem _ hj), drop_desc_of_ne (ne_of_not_mem_cons h)]

theorem foldl_drop_addr : ((is.foldl Table.drop t).desc j).addr = (t.desc j).addr := by
  induction is generalizing t with
  | nil => rfl
  | cons i is ih => rw [foldl_cons, ih, drop_addr]

theorem foldl_drop_bits (hb : Bits t.free_desc_bit_map fun j => S j ∨ j ∈ is) (hn : is.Nodup) (hi : ∀ i ∈ is, i < 32 ∧ ¬S i) :
    Bits (is.foldl Table.drop t).free_desc_bit_map S := by
  induction is generalizing t with
  | nil => exact hb.congr fun j _ => by simp
  | cons i is ih =>
    rw [nodup_cons] at hn
    refine ih (t := t.drop i) ?_ hn.2 fun k hk => hi k (mem_cons_of_mem _ hk)
    refine (hb.clear (i := i)).congr fun j hj => ?_
    obtain ⟨h32, hS⟩ := hi i mem_cons_self
    rw [mod_eq_of_lt h32, mem_cons]
    constructor
    · rintro ⟨h | rfl | h, hne⟩
      · exact .inl h
      · exact absurd rfl hne
      · exact .inr h
    · rintro (h | h)
      · exact ⟨.inl h, fun hji => hS (hji ▸ h)⟩
      · exact ⟨.inr (.inr h), fun hji => hn.1 (hji ▸ h)⟩

theorem freeLoop_eq {fuel : Nat} (hl : Linked t.desc (i :: is)) (hn : (i :: is).Nodup) (hf : is.length < fuel) :
    freeLoop fuel i t = (i :: is).foldl Table.drop t := by
  induction is generalizing i t fuel with
  | nil =>
    cases fuel with
    | zero => omega
    | succ fuel =>
      have hend : (t.desc i).f_next = false := hl
      rw [freeLoop, hend]
      rfl
  | cons k is ih =>
    cases fuel with
    | zero => omega
    | succ fuel =>
      obtain ⟨hnext, hk, hrest⟩ := hl
      rw [nodup_cons] at hn
      have hkeep : Linked (t.drop i).desc (k :: is) := by
        refine hrest.congr fun j hj => ?_
        rw [drop_desc_of_ne (ne_of_mem_of_not_mem hj hn.1)]
        exact ⟨rfl, rfl⟩
      rw [freeLoop, hnext, if_pos rfl, hk, ih hkeep hn.2 (by rw [length_cons] at hf; omega), foldl_cons (l := k :: is)]

end Drop

/-! ## Taking -/

/-- `is` is a new chain: its descriptors were not in `S`, and only they have changed. -/
structure Fresh (S : Nat → Prop) (t t' : Table C) (is : List Nat) : Prop where
  bits : Bits t'.free_desc_bit_map fun j => S j ∨ j ∈ is
  free : ∀ i ∈ is, i < 32 ∧ ¬S i
  nodup : is.Nodup
  others : ∀ j, j ∉ is → t'.desc j = t.desc j
  addr : ∀ j, (t'.desc j).addr = (t.desc j).addr

/-- The loop of `alloc_desc` before descriptor `i`. -/
structure Scan (S : Nat → Prop) (t : Table C) (i : Nat) (t' : Table C) (found : List Nat) : Prop extends Fresh S t t' found where
  joined : Joined t'.desc found
  before : ∀ j ∈ found, j < i
  seen : ∀ j < i, j < 32 → S j ∨ j ∈ found

section Take

variable {S : Nat → Prop} {t t' : Table C} {i n : Nat} {found : List Nat}

@[simp] theorem take_bits (t : Table C) (prev : Option Nat) (i : Nat) :
    (t.take prev i).free_desc_bit_map = t.free_desc_bit_map ||| bit i := by
  cases prev <;> rfl

theorem take_desc_of_ne {prev : Option Nat} {j : Nat} (hi : j ≠ i) (hp : prev ≠ some j) : (t.take prev i).desc j = t.desc j := by
  cases prev with
  | none => exact update_of_ne hi _ _
  | some p => exact update_of_ne (fun h => hp (congrArg some h.symm)) _ _

theorem take_addr {prev : Option Nat} {j : Nat} : ((t.take prev i).desc j).addr = (t.desc j).addr := by
  cases prev with
  | none => exact set_addr (t := { t with free_desc_bit_map := t.free_desc_bit_map ||| bit i }) rfl
  | some p => exact set_addr (t := { t with free_desc_bit_map := t.free_desc_bit_map ||| bit i }) rfl

section

variable (h : Scan S t i t' found)

include h

theorem Scan.skip (ht : t'.taken i) : Scan S t (i + 1) t' found := by
  refine ⟨h.toFresh, h.joined, fun j hj => lt_succ_of_lt (h.before j hj), fun j hj h32 => ?_⟩
  rcases Nat.lt_or_eq_of_le (le_of_lt_succ hj) with hlt | rfl
  · exact h.seen j hlt h32
  · have := h.bits.taken_iff.1 ht
    rwa [mod_eq_of_lt h32] at this

theorem Scan.lt (ht : ¬t'.taken i) : i < 32 ∧ ¬S i ∧ i ∉ found := by
  have hfree := mt h.bits.taken_iff.2 ht
  have h32 : i < 32 := by
    by_contra hge
    exact hfree (h.seen (i % 32) (by omega) (by omega))
  rw [mod_eq_of_lt h32] at hfree
  exact ⟨h32, fun hS => hfree (.inl hS), fun hf => hfree (.inr hf)⟩

omit h in
theorem Joined.take (h : Joined t.desc found) (hn : found.Nodup) (hi : i ∉ found) :
    Joined (t.take found.getLast? i).desc (found ++ [i]) := by
  refine isChain_append.2 ⟨?_, .singleton _, ?_⟩
  · rw [isChain_iff_getElem]
    intro k hk
    have hlast : found.getLast? ≠ some found[k] := by
      rw [getLast?_eq_getElem?, getElem?_eq_getElem (by omega)]
      intro heq
      have := (hn.getElem_inj_iff).1 (Option.some.inj heq)
      omega
    rw [take_desc_of_ne (ne_of_mem_of_not_mem (getElem_mem _) hi) hlast]
    exact isChain_iff_getElem.1 h k hk
  · intro p hp q hq
    obtain rfl : i = q := Option.some.inj hq
    rw [Option.mem_def.1 hp]
    have hdesc : (t.take (some p) i).desc p = { t.desc p with next := i, f_next := true } := update_self _ _ _
    rw [hdesc]
    exact ⟨rfl, rfl⟩

theorem Scan.take (ht : ¬t'.taken i) : Scan S t (i + 1) (t'.take found.getLast? i) (found ++ [i]) := by
  obtain ⟨h32, hS, hf⟩ := h.lt ht
  refine ⟨⟨?_, ?_, ?_, ?_, ?_⟩, ?_, ?_, ?_⟩
  · rw [take_bits]
    refine h.bits.set.congr fun j hj => ?_
    rw [mod_eq_of_lt h32, mem_append, mem_singleton, or_assoc]
  · intro j hj
    rcases mem_append.1 hj with hj | hj
    · exact h.free j hj
    · rw [mem_singleton.1 hj]
      exact ⟨h32, hS⟩
  · exact nodup_append.2 ⟨h.nodup, nodup_singleton _, fun a ha b hb => by
      rw [mem_singleton.1 hb]
      rintro rfl
      exact hf ha⟩
  · intro j hj
    rw [mem_append, mem_singleton, not_or] at hj
    rw [take_desc_of_ne hj.2 fun hl => hj.1 (mem_of_getLast? hl), h.others j hj.1]
  · intro j
    rw [take_addr, h.addr]
  · exact h.joined.take h.nodup hf
  · intro j hj
    rcases mem_append.1 hj with hj | hj
    · exact lt_succ_of_lt (h.before j hj)
    · rw [mem_singleton.1 hj]
      exact lt_succ_self _
  · intro j hj hj32
    rw [mem_append, mem_singleton]
    rcases Nat.lt_or_eq_of_le (le_of_lt_succ hj) with hlt | rfl
    · exact (h.seen j hlt hj32).imp_right .inl
    · exact .inr (.inr rfl)

theorem Scan.finish (ht : ¬t'.taken i) : let u := t'.take found.getLast? i
    let u := u.set i { u.desc i with next := END_OF_NEXT_FLAG, f_next := false, f_write := false }
    Fresh S t u (found ++ [i]) ∧ Linked u.desc (found ++ [i]) := by
  have htake := h.take ht
  have hi := (h.lt ht).2.2
  intro u v
  have hother : ∀ j, j ≠ i → v.desc j = u.desc j := fun j hj => update_of_ne hj _ _
  have hself : v.desc i = { u.desc i with next := END_OF_NEXT_FLAG, f_next := false, f_write := false } := update_self _ _ _
  refine ⟨⟨htake.bits, htake.free, htake.nodup, fun j hj => ?_, fun j => ?_⟩, ?_⟩
  · rw [hother j fun h => hj (mem_append_right _ (mem_singleton.2 h))]
    exact htake.others j hj
  · have haddr : (v.desc j).addr = (u.desc j).addr := set_addr rfl
    exact haddr.trans (htake.addr j)
  · refine Joined.linked ?_ (by rw [hself])
    have hj := htake.joined
    refine isChain_append.2 ⟨?_, .singleton _, ?_⟩
    · refine (isChain_append.1 hj).1.imp_of_mem_imp fun a b ha hb hab => ?_
      rw [hother a (ne_of_mem_of_not_mem ha hi)]
      exact hab
    · intro p hp q hq
      rw [hother p (ne_of_mem_of_not_mem (mem_of_getLast? hp) hi)]
      exact (isChain_append.1 hj).2.2 p hp q hq

theorem allocLoop_spec {m : Nat} (hn : found.length < n) :
    (∃ u is, allocLoop n (range' i m) t' found = (u, is) ∧ is.length = n ∧ Fresh S t u is ∧ Linked u.desc is) ∨
      ∃ u is, allocLoop n (range' i m) t' found = (u, is) ∧ is.length < n ∧ Fresh S t u is := by
  induction m generalizing i t' found with
  | zero => exact .inr ⟨t', found, rfl, hn, h.toFresh⟩
  | succ m ih =>
    rw [range'_succ, allocLoop]
    split_ifs with ht hlast
    · exact ih (h.skip ht) hn
    · obtain ⟨hfresh, hlinked⟩ := h.finish ht
      exact .inl ⟨_, _, rfl, by rw [length_append, length_singleton, hlast], hfresh, hlinked⟩
    · exact ih (h.take ht) (by rw [length_append, length_singleton]; omega)

end

theorem allocDesc_spec (hn : 0 < n) (hb : Bits t.free_desc_bit_map S) :
    (∃ u i is, allocDesc n t = (u, some i) ∧ (i :: is).length = n ∧ Fresh S t u (i :: is) ∧ Linked u.desc (i :: is)) ∨
      ∃ u, ∃ is : List Nat, allocDesc n t = (u, none) ∧ Bits u.free_desc_bit_map S ∧ (∀ j ∈ is, ¬S j) ∧
        (∀ j, j ∉ is → u.desc j = t.desc j) ∧ ∀ j, (u.desc j).addr = (t.desc j).addr := by
  unfold allocDesc
  split_ifs with hbig
  · exact .inr ⟨t, [], rfl, hb, fun _ h => (not_mem_nil h).elim, fun _ _ => rfl, fun _ => rfl⟩
  have hstart : Scan S t 0 t [] :=
    ⟨⟨hb.congr fun j _ => by simp, fun _ h => (not_mem_nil h).elim, nodup_nil, fun _ _ => rfl, fun _ => rfl⟩,
      .nil, fun _ h => (not_mem_nil h).elim, fun j hj _ => by omega⟩
  rw [range_eq_range']
  rcases allocLoop_spec (m := QUEUE_SIZE) hstart hn with ⟨u, is, hr, hlen, hfresh, hlinked⟩ | ⟨u, is, hr, hlen, hfresh⟩
  · rw [hr]
    dsimp only
    rw [if_pos hlen]
    cases is with
    | nil => exact hlinked.elim
    | cons i is => exact .inl ⟨u, i, is, rfl, hlen, hfresh, hlinked⟩
  · rw [hr]
    dsimp only
    rw [if_neg (by omega)]
    exact .inr ⟨_, is, rfl, foldl_drop_bits hfresh.bits hfresh.nodup hfresh.free, fun j hj => (hfresh.free j hj).2,
      fun j hj => by rw [foldl_drop_desc hj, hfresh.others j hj], fun j => by rw [foldl_drop_addr, hfresh.addr]⟩

end Take

end Disk
