import Loeux.Lib.Linked
import Loeux.Lib.Runs
import Loeux.User.Malloc
import Mathlib.Data.List.Chain
import Mathlib.Data.Set.Lattice
import Mathlib.Order.Interval.Set.Basic
/-!
# The blocks of the user heap

The block list as a list of blocks in address order, what each operation does to it,
and what holds along every program that uses the heap.
-/

namespace User

open Lib Bytes List Nat

/-! ## Headers -/

namespace Heap

variable {h h' : Heap} {a b v : Nat}

def Apart (a b : Nat) : Prop := a + BLK_HDR ≤ b ∨ b + BLK_HDR ≤ a

theorem Apart.symm (h : Apart a b) : Apart b a := Or.symm h

theorem block_congr (hm : ∀ i, b ≤ i → i < b + BLK_HDR → h'.mem i = h.mem i) : h'.block b = h.block b := by
  have hg : ∀ n o, o + n ≤ BLK_HDR → Bytes.get n (b + o) h'.mem = Bytes.get n (b + o) h.mem :=
    fun n o hn => get_congr fun i h1 h2 => hm i (by omega) (by omega)
  have h0 := hg 8 0 (by decide)
  simp only [Nat.add_zero] at h0
  simp only [block, h0, hg 4 8 (by decide), hg 8 16 (by decide), hg 8 24 (by decide)]

theorem block_put_of_apart {n o : Nat} (hn : o + n ≤ 32) (hab : Apart a b) (v : Nat) :
    block { h with mem := Bytes.put n (b + o) v h.mem } a = h.block a := by
  refine block_congr fun i h1 h2 => put_of_ne _ ?_
  unfold Apart BLK_HDR at *
  omega

theorem block_setSize_of_apart (hab : Apart a b) : (h.setSize b v).block a = h.block a :=
  block_put_of_apart (o := 0) (by decide) hab v

theorem block_setFree_of_apart (hab : Apart a b) : (h.setFree b v).block a = h.block a :=
  block_put_of_apart (by decide) hab v

theorem block_setNext_of_apart (hab : Apart a b) : (h.setNext b v).block a = h.block a :=
  block_put_of_apart (by decide) hab v

theorem block_setPrev_of_apart (hab : Apart a b) : (h.setPrev b v).block a = h.block a :=
  block_put_of_apart (by decide) hab v

@[simp] theorem block_setSize : (h.setSize b v).block b = { h.block b with size := v % 2 ^ 64 } := by
  simp only [setSize, block, get_put]
  rw [get_put_of_disjoint _ _ (by omega), get_put_of_disjoint _ _ (by omega), get_put_of_disjoint _ _ (by omega)]
  rfl

@[simp] theorem block_setFree : (h.setFree b v).block b = { h.block b with free := v % 2 ^ 32 != 0 } := by
  simp only [setFree, block, get_put]
  rw [get_put_of_disjoint _ _ (by omega), get_put_of_disjoint _ _ (by omega), get_put_of_disjoint _ _ (by omega)]
  rfl

@[simp] theorem block_setNext : (h.setNext b v).block b = { h.block b with next := v % 2 ^ 64 } := by
  simp only [setNext, block, get_put]
  rw [get_put_of_disjoint _ _ (by omega), get_put_of_disjoint _ _ (by omega), get_put_of_disjoint _ _ (by omega)]
  rfl

@[simp] theorem block_setPrev : (h.setPrev b v).block b = { h.block b with prev := v % 2 ^ 64 } := by
  simp only [setPrev, block, get_put]
  rw [get_put_of_disjoint _ _ (by omega), get_put_of_disjoint _ _ (by omega), get_put_of_disjoint _ _ (by omega)]
  rfl

theorem block_next_lt : (h.block b).next < 2 ^ 64 := get_lt 8 (b + 16) h.mem

end Heap

open Heap

section
variable {h : Heap} {a b x : Nat}

theorem absorb_ends : (absorb a b h).heap_head = h.heap_head ∧ (absorb a b h).heap_tail = h.heap_tail ∧
    (absorb a b h).brk = h.brk := by
  unfold absorb
  dsimp only
  split <;> exact ⟨rfl, rfl, rfl⟩

theorem absorb_eq (hab : Apart b a) : absorb a b h = if (h.block b).next ≠ 0 then
      ((h.setSize a ((h.block a).size + (BLK_HDR + (h.block b).size))).setNext a (h.block b).next).setPrev
        (h.block b).next a
    else (h.setSize a ((h.block a).size + (BLK_HDR + (h.block b).size))).setNext a (h.block b).next := by
  unfold absorb
  dsimp only
  rw [block_setSize_of_apart hab, block_setNext, mod_eq_of_lt block_next_lt]

theorem put_of_outside {i o n : Nat} (m : Bytes) (v : Nat) (ho : o + n ≤ 32) (hx : i < x ∨ x + BLK_HDR ≤ i) :
    Bytes.put n (x + o) v m i = m i :=
  put_of_ne _ (by unfold BLK_HDR at hx; omega)

theorem mem_setFree {v i : Nat} (ha : i < a ∨ a + BLK_HDR ≤ i) : (h.setFree a v).mem i = h.mem i :=
  put_of_outside _ _ (by omega) ha

theorem mem_absorb (hab : Apart b a) {i : Nat} (ha : i < a ∨ a + BLK_HDR ≤ i)
    (hn : (h.block b).next ≠ 0 → i < (h.block b).next ∨ (h.block b).next + BLK_HDR ≤ i) :
    (absorb a b h).mem i = h.mem i := by
  have h1 : ((h.setSize a ((h.block a).size + (BLK_HDR + (h.block b).size))).setNext a (h.block b).next).mem i = h.mem i :=
    (@put_of_outside a i 16 8 _ _ (by omega) ha).trans (@put_of_outside a i 0 8 _ _ (by omega) ha)
  rw [absorb_eq hab]
  split
  · rename_i h0
    exact (put_of_outside _ _ (by omega) (hn h0)).trans h1
  · exact h1

theorem block_absorb_self (hab : Apart b a) (hn : (h.block b).next ≠ 0 → Apart a (h.block b).next) :
    (absorb a b h).block a = { h.block a with
      size := ((h.block a).size + (BLK_HDR + (h.block b).size)) % 2 ^ 64
      next := (h.block b).next } := by
  have hlt : (h.block b).next % 2 ^ 64 = (h.block b).next := mod_eq_of_lt block_next_lt
  rw [absorb_eq hab]
  split
  · rename_i h0
    rw [block_setPrev_of_apart (hn h0), block_setNext, block_setSize, hlt]
  · rw [block_setNext, block_setSize, hlt]

theorem block_absorb_next (hab : Apart b a) (h0 : (h.block b).next ≠ 0) (hn : Apart (h.block b).next a) :
    (absorb a b h).block (h.block b).next = { h.block (h.block b).next with prev := a % 2 ^ 64 } := by
  rw [absorb_eq hab, if_pos h0, block_setPrev, block_setNext_of_apart hn, block_setSize_of_apart hn]

theorem block_absorb_of_apart (hab : Apart b a) (hx : Apart x a)
    (hn : (h.block b).next ≠ 0 → Apart x (h.block b).next) : (absorb a b h).block x = h.block x := by
  rw [absorb_eq hab]
  split
  · rename_i h0
    rw [block_setPrev_of_apart (hn h0), block_setNext_of_apart hx, block_setSize_of_apart hx]
  · rw [block_setNext_of_apart hx, block_setSize_of_apart hx]

end

/-! ## The block list -/

structure Blk where
  addr : Nat
  size : Nat
  free : Bool

def Blk.stop (b : Blk) : Nat := b.addr + BLK_HDR + b.size

/-- The header list from `heap_head` on is `bs`, linked in both directions. -/
structure Chain (h : Heap) (bs : List Blk) : Prop where
  head : h.heap_head = (bs.map Blk.addr).headD 0
  links : DSeg (fun a => (h.block a).next) (fun a => (h.block a).prev) 0 (bs.map Blk.addr) 0
  fields : ∀ b ∈ bs, (h.block b.addr).size = b.size ∧ (h.block b.addr).free = b.free

/-- `heap_tail` is the last block as well. -/
structure Rep (h : Heap) (bs : List Blk) : Prop extends Chain h bs where
  tail : h.heap_tail = (bs.map Blk.addr).getLastD 0

/-- The blocks lie in address order between `base` and the break, clear of each other
and of the regions `rs`. -/
structure Laid (base brk : Nat) (rs : List (Nat × Nat)) (bs : List Blk) : Prop where
  low : ∀ b ∈ bs, base ≤ b.addr
  order : bs.Pairwise fun x y => x.stop ≤ y.addr
  high : ∀ b ∈ bs, b.stop ≤ brk
  clear : ∀ r ∈ rs, 0 < r.2 ∧ ∀ b ∈ bs, r.1 + r.2 ≤ b.addr ∨ b.stop ≤ r.1

section
variable {h : Heap} {base brk : Nat} {rs : List (Nat × Nat)} {bs pre post : List Blk} {a b : Blk}

theorem Laid.pos (hl : Laid base brk rs bs) (h0 : 0 < base) (hb : b ∈ bs) : b.addr ≠ 0 := by
  have := hl.low b hb
  omega

theorem Laid.apart (hl : Laid base brk rs (pre ++ b :: post)) {x : Blk} (hx : x ∈ pre ∨ x ∈ post) :
    Apart x.addr b.addr := by
  have ho := hl.order
  simp only [pairwise_append, pairwise_cons, mem_cons] at ho
  obtain ⟨-, ⟨h1, -⟩, h2⟩ := ho
  unfold Apart
  rcases hx with hx | hx
  · have := h2 x hx b (.inl rfl)
    unfold Blk.stop at this
    omega
  · have := h1 x hx
    unfold Blk.stop at this
    omega

theorem Laid.flag (hl : Laid base brk rs (pre ++ b :: post)) (f : Bool) :
    Laid base brk rs (pre ++ { b with free := f } :: post) := by
  obtain ⟨h1, h2, h3, h4⟩ := hl
  simp only [forall_mem_append, forall_mem_cons, pairwise_append, pairwise_cons] at h1 h2 h3 h4
  constructor
  all_goals simp only [forall_mem_append, forall_mem_cons, pairwise_append, pairwise_cons]
  exacts [h1, h2, h3, h4]

/-- The block `y` may be joined to `x`: they adjoin, or no region lies anywhere. -/
def Joined (rs : List (Nat × Nat)) (x y : Blk) : Prop := rs = [] ∨ x.stop = y.addr

theorem Laid.stop_le_next (hl : Laid base brk rs (pre ++ a :: b :: post)) : a.stop ≤ b.addr := by
  have ho := hl.order
  simp only [pairwise_append, pairwise_cons, mem_cons] at ho
  exact ho.2.1.1 b (.inl rfl)

theorem Laid.merge (hl : Laid base brk rs (pre ++ a :: b :: post)) (hab : Joined rs a b) :
    Laid base brk rs (pre ++ { a with size := a.size + (BLK_HDR + b.size) } :: post) := by
  have hle := hl.stop_le_next
  have hs : Blk.stop { a with size := a.size + (BLK_HDR + b.size) } ≤ b.stop := by
    unfold Blk.stop at *
    dsimp only
    omega
  obtain ⟨h1, h2, h3, h4⟩ := hl
  simp only [forall_mem_append, forall_mem_cons, pairwise_append, pairwise_cons] at h1 h2 h3 h4
  constructor
  · simp only [forall_mem_append, forall_mem_cons]
    exact ⟨h1.1, h1.2.1, h1.2.2.2⟩
  · simp only [forall_mem_cons, pairwise_append, pairwise_cons]
    obtain ⟨p1, ⟨⟨-, -⟩, p2, p3⟩, p4⟩ := h2
    exact ⟨p1, ⟨fun y hy => hs.trans (p2 y hy), p3⟩, fun x hx => ⟨(p4 x hx).1, (p4 x hx).2.2⟩⟩
  · simp only [forall_mem_append, forall_mem_cons]
    exact ⟨h3.1, hs.trans h3.2.2.1, h3.2.2.2⟩
  · simp only [forall_mem_append, forall_mem_cons]
    intro r hr
    obtain ⟨q0, q1, q2, q3, q4⟩ := h4 r hr
    refine ⟨q0, q1, ?_, q4⟩
    rcases hab with rfl | hab
    · cases hr
    · unfold Blk.stop at *
      dsimp only at *
      omega

theorem Laid.grow (hl : Laid base brk rs bs) (hr : ∀ r ∈ rs, r.1 + r.2 ≤ brk) (hb : base ≤ brk) (n : Nat) (f : Bool) :
    Laid base (brk + BLK_HDR + n) rs (bs ++ [⟨brk, n, f⟩]) := by
  obtain ⟨h1, h2, h3, h4⟩ := hl
  constructor
  · simp only [forall_mem_append, forall_mem_singleton]
    exact ⟨h1, hb⟩
  · simp only [pairwise_append, pairwise_cons, forall_mem_singleton]
    exact ⟨h2, ⟨fun x hx => absurd hx not_mem_nil, .nil⟩, h3⟩
  · simp only [forall_mem_append, forall_mem_singleton]
    exact ⟨fun b hb => by have := h3 b hb; omega, le_refl _⟩
  · simp only [forall_mem_append, forall_mem_singleton]
    exact fun r hr' => ⟨(h4 r hr').1, (h4 r hr').2, .inl (hr r hr')⟩

theorem Chain.congr {h' : Heap} (hc : Chain h bs) (hh : h'.heap_head = h.heap_head)
    (hb : ∀ b ∈ bs, h'.block b.addr = h.block b.addr) : Chain h' bs := by
  have hb' : ∀ a ∈ bs.map Blk.addr, h'.block a = h.block a := by
    intro a ha
    obtain ⟨b, hm, rfl⟩ := mem_map.1 ha
    exact hb b hm
  refine ⟨hh.trans hc.head, hc.links.congr (fun a ha => ?_) (fun a ha => ?_), fun b hm => ?_⟩
  · rw [hb' a ha]
  · rw [hb' a ha]
  · rw [hb b hm]
    exact hc.fields b hm

theorem Chain.setTail (hc : Chain h bs) (t : Nat) : Chain { h with heap_tail := t } bs :=
  hc.congr rfl fun _ _ => rfl

theorem Chain.setFree (hc : Chain h (pre ++ b :: post)) (hl : Laid base brk rs (pre ++ b :: post)) (v : Nat) :
    Chain (h.setFree b.addr v) (pre ++ { b with free := v % 2 ^ 32 != 0 } :: post) := by
  have hother : ∀ x, x ∈ pre ∨ x ∈ post → (h.setFree b.addr v).block x.addr = h.block x.addr :=
    fun x hx => block_setFree_of_apart (hl.apart hx)
  have hlinks : ∀ x ∈ (pre ++ b :: post).map Blk.addr, ((h.setFree b.addr v).block x).next = (h.block x).next ∧
      ((h.setFree b.addr v).block x).prev = (h.block x).prev := by
    simp only [forall_mem_map, forall_mem_append, forall_mem_cons, block_setFree, and_self, true_and]
    exact ⟨fun x hx => by rw [hother x (.inl hx)]; exact ⟨rfl, rfl⟩,
      fun x hx => by rw [hother x (.inr hx)]; exact ⟨rfl, rfl⟩⟩
  have hmap : (pre ++ { b with free := v % 2 ^ 32 != 0 } :: post).map Blk.addr = (pre ++ b :: post).map Blk.addr := by
    simp only [map_append, map_cons]
  have hf := hc.fields
  simp only [forall_mem_append, forall_mem_cons] at hf
  constructor
  · rw [hmap]
    exact hc.head
  · rw [hmap]
    exact hc.links.congr (fun x hx => (hlinks x hx).1) fun x hx => (hlinks x hx).2
  · simp only [forall_mem_append, forall_mem_cons, block_setFree]
    refine ⟨fun x hx => ?_, ⟨hf.2.1.1, trivial⟩, fun x hx => ?_⟩
    · rw [hother x (.inl hx)]
      exact hf.1 x hx
    · rw [hother x (.inr hx)]
      exact hf.2.2 x hx

theorem Chain.absorb (hc : Chain h (pre ++ a :: b :: post)) (hl : Laid base brk rs (pre ++ a :: b :: post))
    (h0 : 0 < base) (hbrk : brk < 2 ^ 64) :
    Chain (absorb a.addr b.addr h) (pre ++ { a with size := a.size + (BLK_HDR + b.size) } :: post) := by
  have hf := hc.fields
  simp only [forall_mem_append, forall_mem_cons] at hf
  obtain ⟨hpre, ⟨hsa, hfa⟩, ⟨hsb, -⟩, hpost⟩ := hf
  have hlk := hc.links
  simp only [map_append, map_cons] at hlk
  rw [dseg_mid] at hlk
  obtain ⟨l1, l2, -, -, l3, l4⟩ := hlk
  dsimp only at l3
  have hba : Apart b.addr a.addr := hl.apart (.inr mem_cons_self)
  have hxa : ∀ x, x ∈ pre ∨ x ∈ post → Apart x.addr a.addr :=
    fun x hx => hl.apart (hx.imp id (mem_cons_of_mem _))
  have hhigh := hl.high b (by simp)
  have hle := hl.stop_le_next
  have haddr : a.addr % 2 ^ 64 = a.addr := by
    refine mod_eq_of_lt ?_
    unfold Blk.stop at *
    omega
  have hsize : (a.size + (BLK_HDR + b.size)) % 2 ^ 64 = a.size + (BLK_HDR + b.size) := by
    refine mod_eq_of_lt ?_
    unfold Blk.stop at *
    omega
  -- the block after `b` gets the back pointer; it is apart from every other one
  have hn : ∀ x, x ∈ pre ∨ x = a ∨ x ∈ post.tail → (h.block b.addr).next ≠ 0 → Apart x.addr (h.block b.addr).next := by
    intro x hx hne
    rw [l3] at hne ⊢
    cases post with
    | nil => exact absurd rfl hne
    | cons c post =>
      have hl' : Laid base brk rs ((pre ++ [a, b]) ++ c :: post) := by simpa using hl
      refine hl'.apart ?_
      rcases hx with hx | rfl | hx
      · exact .inl (mem_append_left _ hx)
      · exact .inl (mem_append_right _ mem_cons_self)
      · exact .inr hx
  have hself := block_absorb_self hba (hn a (.inr (.inl rfl)))
  have hother : ∀ x, x ∈ pre ∨ x ∈ post.tail → (User.absorb a.addr b.addr h).block x.addr = h.block x.addr :=
    fun x hx => block_absorb_of_apart hba (hxa x (hx.imp id mem_of_mem_tail)) (hn x (hx.imp id .inr))
  refine ⟨?_, ?_, ?_⟩
  · rw [absorb_ends.1, hc.head]
    cases pre <;> rfl
  · simp only [map_append, map_cons]
    rw [dseg_mid, hself]
    refine ⟨?_, l2, l3, ?_⟩
    · refine l1.congr ?_ ?_ <;>
      · simp only [forall_mem_map]
        intro x hx
        rw [hother x (.inl hx)]
    · cases post with
      | nil => exact trivial
      | cons c post =>
        have hne : c.addr ≠ 0 := hl.pos h0 (by simp)
        simp only [map_cons, headD_cons] at l3 l4 ⊢
        have hc' := block_absorb_next hba (l3 ▸ hne) (l3 ▸ hxa c (.inr mem_cons_self))
        rw [l3] at hc'
        refine ⟨?_, ?_, ?_⟩
        · dsimp only
          rw [hc', haddr]
        · dsimp only
          rw [hc']
          exact l4.2.1
        · refine l4.2.2.congr ?_ ?_ <;>
          · simp only [forall_mem_map]
            intro x hx
            rw [hother x (.inr hx)]
  · simp only [forall_mem_append, forall_mem_cons]
    refine ⟨fun x hx => ?_, ?_, fun x hx => ?_⟩
    · rw [hother x (.inl hx)]
      exact hpre x hx
    · rw [hself]
      refine ⟨?_, hfa⟩
      dsimp only
      rw [hsa, hsb, hsize]
    · cases post with
      | nil => cases hx
      | cons c post =>
        rcases mem_cons.1 hx with rfl | hx
        · have hne : x.addr ≠ 0 := hl.pos h0 (by simp)
          simp only [map_cons, headD_cons] at l3
          have hc' := block_absorb_next hba (l3 ▸ hne) (l3 ▸ hxa x (.inr mem_cons_self))
          rw [l3] at hc'
          rw [hc']
          exact hpost x mem_cons_self
        · rw [hother x (.inr hx)]
          exact hpost x (mem_cons_of_mem _ hx)

def used (bs : List Blk) : List Blk := bs.filter fun b => !b.free

def Settled (bs : List Blk) : Prop := bs.IsChain fun x y => ¬(x.free = true ∧ y.free = true)

theorem used_append (l l' : List Blk) : used (l ++ l') = used l ++ used l' := filter_append ..

theorem used_eq_nil {l : List Blk} (hf : ∀ b ∈ l, b.free = true) : used l = [] := by
  refine filter_eq_nil_iff.2 fun b hb => ?_
  simp [hf b hb]

theorem Laid.length_lt (hl : Laid base brk rs bs) (hbrk : brk < 2 ^ 64) : bs.length < rounds := by
  have key : ∀ l : List Blk, l.Pairwise (fun x y => x.stop ≤ y.addr) → (∀ b ∈ l, b.stop ≤ brk) → ∀ lo,
      (∀ b ∈ l, lo ≤ b.addr) → lo ≤ brk → lo + l.length ≤ brk := by
    intro l
    induction l with
    | nil => intro _ _ lo _ h; exact h
    | cons b l ih =>
      intro ho hh lo hlo _
      have hb := hlo b mem_cons_self
      have hs := hh b mem_cons_self
      have := ih (List.Pairwise.of_cons ho) (fun x hx => hh x (mem_cons_of_mem _ hx)) b.stop
        (fun x hx => rel_of_pairwise_cons ho hx) hs
      rw [length_cons]
      unfold Blk.stop BLK_HDR at *
      omega
  unfold rounds
  have := key bs hl.order hl.high 0 (fun _ _ => Nat.zero_le _) (Nat.zero_le _)
  omega

/-! ## Coalescing -/

theorem Chain.next_eq (hc : Chain h (pre ++ a :: post)) : (h.block a.addr).next = (post.map Blk.addr).headD 0 := by
  have hl := hc.links
  simp only [map_append, map_cons] at hl
  exact (dseg_mid.1 hl).2.2.1

theorem Chain.prev_eq (hc : Chain h (pre ++ a :: post)) : (h.block a.addr).prev = (pre.map Blk.addr).getLastD 0 := by
  have hl := hc.links
  simp only [map_append, map_cons] at hl
  exact (dseg_mid.1 hl).2.1

/-- Nothing is written outside the headers of the blocks `bs`. -/
def Framed (bs : List Blk) (h h' : Heap) : Prop :=
  ∀ i, (∀ b ∈ bs, i < b.addr ∨ b.addr + BLK_HDR ≤ i) → h'.mem i = h.mem i

theorem Chain.framed_absorb (hc : Chain h (pre ++ a :: b :: post)) (hl : Laid base brk rs (pre ++ a :: b :: post)) :
    Framed (pre ++ a :: b :: post) h (User.absorb a.addr b.addr h) := by
  intro i hi
  have hn : (h.block b.addr).next = (post.map Blk.addr).headD 0 := by
    have hc' : Chain h ((pre ++ [a]) ++ b :: post) := by simpa using hc
    exact hc'.next_eq
  refine mem_absorb (hl.apart (.inr mem_cons_self)) (hi a (by simp)) fun h0 => ?_
  cases post with
  | nil => exact absurd hn h0
  | cons c post =>
    rw [hn]
    exact hi c (by simp)

/-- The headers of `bs'` are headers of `bs`, or new ones from `brk` on. -/
def Placed (brk : Nat) (bs bs' : List Blk) : Prop := ∀ b ∈ bs', (∃ a ∈ bs, a.addr = b.addr) ∨ brk ≤ b.addr

theorem Placed.refl (brk : Nat) (bs : List Blk) : Placed brk bs bs := fun b hb => .inl ⟨b, hb, rfl⟩

theorem Placed.trans {brk brk' : Nat} {bs bs' bs'' : List Blk} (h : Placed brk bs bs') (h' : Placed brk' bs' bs'')
    (hle : brk ≤ brk') : Placed brk bs bs'' := by
  intro b hb
  rcases h' b hb with ⟨a, ha, hab⟩ | hb'
  · rw [← hab]
    exact h a ha
  · exact .inr (hle.trans hb')

theorem mergeNext_stop (hc : Chain h (pre ++ a :: post)) (hf : ∀ y ∈ post.head?, y.free = false) (k : Nat) :
    mergeNext a.addr (k + 1) h = some h := by
  have hn := hc.next_eq
  rw [mergeNext]
  refine if_neg ?_
  rintro ⟨hne, hfree⟩
  cases post with
  | nil => exact hne hn
  | cons c post =>
    rw [map_cons, headD_cons] at hn
    rw [hn, (hc.fields c (by simp)).2, hf c rfl] at hfree
    cases hfree

theorem mergeNext_spec (hc : Chain h (pre ++ a :: post)) (hl : Laid base brk rs (pre ++ a :: post))
    (h0 : 0 < base) (hbrk : brk < 2 ^ 64) (hs : Settled post)
    (hj : ∀ y ∈ post.head?, y.free = true → Joined rs a y) (k : Nat) :
    ∃ h' a' mid post', mergeNext a.addr (k + 2) h = some h' ∧ post = mid ++ post' ∧ (∀ m ∈ mid, m.free = true) ∧
      Chain h' (pre ++ a' :: post') ∧ Laid base brk rs (pre ++ a' :: post') ∧ a'.addr = a.addr ∧ a'.free = a.free ∧
      (∀ y ∈ post'.head?, y.free = false) ∧ h'.heap_tail = h.heap_tail ∧ h'.brk = h.brk ∧
      Framed (pre ++ a :: post) h h' := by
  by_cases hf : ∀ y ∈ post.head?, y.free = false
  · exact ⟨h, a, [], post, mergeNext_stop hc hf _, rfl, fun _ hm => absurd hm not_mem_nil, hc, hl, rfl, rfl, hf,
      rfl, rfl, fun _ _ => rfl⟩
  · cases post with
    | nil => exact absurd (fun y hy => by cases hy) hf
    | cons c post =>
      have hcf : c.free = true := by
        by_contra hne
        refine hf fun y hy => ?_
        cases hy
        exact Bool.eq_false_of_not_eq_true hne
      have hn : (h.block a.addr).next = c.addr := hc.next_eq
      have hc' := hc.absorb hl h0 hbrk
      have hf' : ∀ y ∈ post.head?, y.free = false := by
        intro y hy
        refine Bool.eq_false_of_not_eq_true fun hy' => ?_
        cases post with
        | nil => cases hy
        | cons d post =>
          cases hy
          exact (isChain_cons_cons.1 hs).1 ⟨hcf, hy'⟩
      obtain ⟨-, e2, e3⟩ := absorb_ends (a := a.addr) (b := c.addr) (h := h)
      refine ⟨absorb a.addr c.addr h, _, [c], post, ?_, rfl, ?_, hc', hl.merge (hj c rfl hcf), rfl, rfl, hf', e2, e3,
        hc.framed_absorb hl⟩
      · rw [mergeNext, hn, if_pos ⟨hl.pos h0 (by simp), by rw [(hc.fields c (by simp)).2, hcf]⟩]
        exact mergeNext_stop hc' hf' k
      · intro m hm
        rw [mem_singleton.1 hm, hcf]

theorem mergePrev_spec (hc : Chain h (pre ++ a :: post)) (hl : Laid base brk rs (pre ++ a :: post))
    (h0 : 0 < base) (hbrk : brk < 2 ^ 64) (hs : Settled pre) (hfa : a.free = true)
    (hj : ∀ x ∈ pre.getLast?, x.free = true → Joined rs x a) :
    ∃ b h' a' pre' mid, mergePrev a.addr h = (b, h') ∧ pre = pre' ++ mid ∧ (∀ m ∈ mid, m.free = true) ∧
      Chain h' (pre' ++ a' :: post) ∧ Laid base brk rs (pre' ++ a' :: post) ∧ a'.addr = b ∧ a'.free = true ∧
      (∀ x ∈ pre'.getLast?, x.free = false) ∧ (post ≠ [] → h'.heap_tail = h.heap_tail) ∧ h'.brk = h.brk ∧
      Framed (pre ++ a :: post) h h' ∧ (b = a.addr ∨ ∃ z ∈ pre, z.addr = b) := by
  have hp := hc.prev_eq
  rcases eq_nil_or_concat pre with rfl | ⟨pre', z, rfl⟩
  · refine ⟨a.addr, h, a, [], [], ?_, rfl, fun _ hm => absurd hm not_mem_nil, hc, hl, rfl, hfa,
      fun x hx => absurd hx (Option.not_mem_none x), fun _ => rfl, rfl, fun _ _ => rfl, .inl rfl⟩
    rw [mergePrev]
    exact if_neg fun hne => hne.1 hp
  · simp only [concat_eq_append] at *
    rw [map_append, map_singleton, getLastD_concat] at hp
    rw [getLast?_concat] at hj
    have hzf : (h.block z.addr).free = z.free := (hc.fields z (by simp)).2
    by_cases hz : z.free = true
    · have hc2 : Chain h (pre' ++ z :: a :: post) := by simpa using hc
      have hl2 : Laid base brk rs (pre' ++ z :: a :: post) := by simpa using hl
      have hc' := hc2.absorb hl2 h0 hbrk
      have hfr := hc2.framed_absorb hl2
      have hn := hc'.next_eq
      have hm : mergePrev a.addr h = (z.addr, if ((absorb z.addr a.addr h).block z.addr).next ≠ 0
          then absorb z.addr a.addr h else { absorb z.addr a.addr h with heap_tail := z.addr }) := by
        rw [mergePrev, hp, if_pos ⟨hl2.pos h0 (by simp), by rw [hzf, hz]⟩]
      obtain ⟨-, e2, e3⟩ := absorb_ends (a := z.addr) (b := a.addr) (h := h)
      generalize absorb z.addr a.addr h = g at *
      have hf' : ∀ x ∈ pre'.getLast?, x.free = false := by
        intro x hx
        refine Bool.eq_false_of_not_eq_true fun hx' => ?_
        exact (isChain_append.1 hs).2.2 x hx z rfl ⟨hx', hz⟩
      refine ⟨z.addr, _, _, pre', [z], hm, rfl, ?_, ?_, hl2.merge (hj z rfl hz), rfl, hz, hf', ?_, ?_, ?_,
        .inr ⟨z, by simp, rfl⟩⟩
      · intro m hm
        rw [mem_singleton.1 hm, hz]
      · split
        · exact hc'
        · exact hc'.setTail _
      · intro hpost
        obtain ⟨c, post, rfl⟩ := exists_cons_of_ne_nil hpost
        have hne : c.addr ≠ 0 := hl.pos h0 (by simp)
        rw [if_pos (hn ▸ hne)]
        exact e2
      · split <;> exact e3
      · intro i hi
        have := hfr i (by simpa using hi)
        split <;> exact this
    · refine ⟨a.addr, h, a, pre' ++ [z], [], ?_, by simp, fun _ hm => absurd hm not_mem_nil, hc, hl, rfl, hfa, ?_,
        fun _ => rfl, rfl, fun _ _ => rfl, .inl rfl⟩
      · rw [mergePrev, hp]
        refine if_neg fun hne => hz ?_
        rw [← hzf]
        exact hne.2
      · intro x hx
        rw [getLast?_concat] at hx
        cases hx
        exact Bool.eq_false_of_not_eq_true hz

theorem free_spec (hr : Rep h (pre ++ a :: post)) (hl : Laid base h.brk rs (pre ++ a :: post)) (h0 : 0 < base)
    (hbrk : h.brk < 2 ^ 64) (hs : Settled (pre ++ a :: post))
    (hnext : ∀ y ∈ post.head?, y.free = true → Joined rs a y)
    (hprev : ∀ x ∈ pre.getLast?, x.free = true → Joined rs x a) :
    ∃ h' bs', free (a.addr + BLK_HDR) h = some h' ∧ Rep h' bs' ∧ Laid base h'.brk rs bs' ∧ Settled bs' ∧
      used bs' = used pre ++ used post ∧ h'.brk = h.brk ∧ Framed (pre ++ a :: post) h h' ∧
      Placed h.brk (pre ++ a :: post) bs' := by
  have hs' := isChain_append.1 hs
  have ha : blockOf (a.addr + BLK_HDR) = a.addr := by
    have := hl.high a (by simp)
    unfold blockOf
    unfold Blk.stop BLK_HDR at *
    omega
  obtain ⟨h1, a1, mid, post', e1, rfl, m1, c1, l1, p1, f1, n1, t1, b1, r1⟩ :=
    mergeNext_spec (hr.toChain.setFree hl 1) (hl.flag _) h0 hbrk (List.IsChain.of_cons hs'.2.1) hnext (2 ^ 64 - 2)
  obtain ⟨b, h2, a2, pre', mid', e2, rfl, m2, c2, l2, p2, f2, n2, t2, b2, r2, w2⟩ :=
    mergePrev_spec c1 l1 h0 hbrk hs'.1 f1 fun x hx hf => (hprev x hx hf).imp id fun e => e.trans p1.symm
  have hfree : free (a.addr + BLK_HDR) h = some (if (h2.block b).next = 0 then { h2 with heap_tail := b } else h2) := by
    have e1' : mergeNext a.addr rounds (h.setFree a.addr 1) = some h1 := e1
    have e2' : mergePrev a.addr h1 = (b, h2) := p1 ▸ e2
    have hne : a.addr + BLK_HDR ≠ 0 := succ_ne_zero _
    rw [free, if_neg hne, ha, e1', Option.map_some, e2']
  have hn : (h2.block b).next = (post'.map Blk.addr).headD 0 := p2 ▸ c2.next_eq
  have hb : h2.brk = h.brk := b2.trans b1
  have hset : Settled (pre' ++ a2 :: post') := by
    have hpost : Settled post' := (isChain_append.1 (List.IsChain.of_cons hs'.2.1)).2.1
    refine (isChain_append.1 hs'.1).1.append (hpost.cons fun y hy hf => ?_) fun x hx y hy hf => ?_
    · rw [n1 y hy] at hf
      cases hf.2
    · rw [n2 x hx] at hf
      cases hf.1
  have hused : used (pre' ++ a2 :: post') = used (pre' ++ mid') ++ used (mid ++ post') := by
    have ha2 : used (a2 :: post') = used post' := by
      unfold used
      rw [filter_cons_of_neg (by simp [f2])]
    rw [used_append, used_append, used_append, used_eq_nil m1, used_eq_nil m2, ha2, append_nil, nil_append]
  refine ⟨_, pre' ++ a2 :: post', hfree, ?_, ?_, hset, hused, ?_, ?_, fun x hx => .inl ?_⟩
  · cases post' with
    | nil =>
      rw [if_pos (show (h2.block b).next = 0 from hn)]
      refine ⟨c2.setTail b, ?_⟩
      simp [p2]
    | cons c post =>
      have hne : c.addr ≠ 0 := l2.pos h0 (by simp)
      rw [if_neg (hn ▸ hne)]
      have hlast : ∀ l : List Blk, ((l ++ c :: post).map Blk.addr).getLastD 0 = ((c :: post).map Blk.addr).getLastD 0 := by
        intro l
        simp only [map_append, map_cons, getLastD_eq_getLast?, getLast?_append_cons]
      refine ⟨c2, (t2 (cons_ne_nil _ _)).trans (t1.trans (hr.tail.trans ?_))⟩
      have hold := hlast (pre' ++ mid' ++ a :: mid)
      have hnew := hlast (pre' ++ [a2])
      simp only [append_assoc, cons_append, nil_append] at hold hnew ⊢
      exact hold.trans hnew.symm
  · have hb' : Heap.brk (if (h2.block b).next = 0 then { h2 with heap_tail := b } else h2) = h.brk := by
      split <;> exact hb
    rw [hb']
    exact l2
  · split <;> exact hb
  · intro i hi
    have hflag : (h.setFree a.addr 1).mem i = h.mem i := mem_setFree (hi a (by simp))
    have h1 : h1.mem i = h.mem i := (r1 i fun x hx => ?_).trans hflag
    have h2 : h2.mem i = h.mem i := (r2 i fun x hx => ?_).trans h1
    · split <;> exact h2
    · rcases mem_append.1 hx with hx | hx
      · exact hi x (mem_append_left _ hx)
      · rcases mem_cons.1 hx with rfl | hx
        · rw [p1]
          exact hi a (by simp)
        · exact hi x (mem_append_right _ (mem_cons_of_mem _ (mem_append_right _ hx)))
    · rcases mem_append.1 hx with hx | hx
      · exact hi x (mem_append_left _ hx)
      · rcases mem_cons.1 hx with rfl | hx
        · exact hi a (by simp)
        · exact hi x (mem_append_right _ (mem_cons_of_mem _ hx))
  · rcases mem_append.1 hx with hx | hx
    · exact ⟨x, by simp [hx], rfl⟩
    · rcases mem_cons.1 hx with rfl | hx
      · rw [p2]
        rcases w2 with rfl | ⟨z, hz, rfl⟩
        · exact ⟨a, by simp, p1.symm⟩
        · exact ⟨z, mem_append_left _ hz, rfl⟩
      · exact ⟨x, by simp [hx], rfl⟩

/-! ## New blocks -/

def header (p m : Nat) (h : Heap) : Heap := (((h.setSize p m).setFree p 1).setNext p 0).setPrev p h.heap_tail

theorem block_header {p m : Nat} (ht : h.heap_tail < 2 ^ 64) :
    (header p m h).block p = ⟨m % 2 ^ 64, true, 0, h.heap_tail⟩ := by
  rw [header, block_setPrev, block_setNext, block_setFree, block_setSize, mod_eq_of_lt ht]
  rfl

theorem block_header_of_apart {p m x : Nat} (hx : Apart x p) : (header p m h).block x = h.block x := by
  rw [header, block_setPrev_of_apart hx, block_setNext_of_apart hx, block_setFree_of_apart hx,
    block_setSize_of_apart hx]

theorem mem_linkBlock {p m i : Nat} (hp : i < p ∨ p + BLK_HDR ≤ i)
    (ht : h.heap_tail ≠ 0 → i < h.heap_tail ∨ h.heap_tail + BLK_HDR ≤ i) : (linkBlock p m h).mem i = h.mem i := by
  have hh : (header p m h).mem i = h.mem i :=
    (put_of_outside _ _ (by omega) hp).trans ((put_of_outside _ _ (by omega) hp).trans
      ((put_of_outside _ _ (by omega) hp).trans (@put_of_outside p i 0 8 _ _ (by omega) hp)))
  show Heap.mem (if h.heap_tail ≠ 0 then (header p m h).setNext h.heap_tail p else { header p m h with heap_head := p }) i = _
  split
  · rename_i h0
    exact (put_of_outside _ _ (by omega) (ht h0)).trans hh
  · exact hh

theorem Rep.tail_mem (hr : Rep h bs) (ht : h.heap_tail ≠ 0) : ∃ z ∈ bs, z.addr = h.heap_tail := by
  rw [hr.tail] at ht ⊢
  rcases eq_nil_or_concat bs with rfl | ⟨pre, z, rfl⟩
  · exact absurd rfl ht
  · exact ⟨z, by simp, by simp⟩

theorem Rep.link (hr : Rep h bs) {p m : Nat} (hl : Laid base p rs bs) (h0 : 0 < base) (hp : p < 2 ^ 64) :
    Rep (linkBlock p m h) (bs ++ [⟨p, m % 2 ^ 64, true⟩]) := by
  show Rep { (if h.heap_tail ≠ 0 then (header p m h).setNext h.heap_tail p else { header p m h with heap_head := p })
    with heap_tail := p } _
  have hmod : p % 2 ^ 64 = p := mod_eq_of_lt hp
  have hx : ∀ x ∈ bs, Apart x.addr p := by
    intro x hx
    have := hl.high x hx
    unfold Blk.stop at this
    exact .inl (by omega)
  have hold : ∀ x ∈ bs, (header p m h).block x.addr = h.block x.addr := fun x hm => block_header_of_apart (hx x hm)
  have htail := hr.tail
  rcases eq_nil_or_concat bs with rfl | ⟨pre, z, rfl⟩
  · have ht : h.heap_tail = 0 := htail
    have hblk : Heap.block { header p m h with heap_head := p, heap_tail := p } p = ⟨m % 2 ^ 64, true, 0, 0⟩ := by
      have := block_header (h := h) (p := p) (m := m) (by rw [ht]; decide)
      rw [ht] at this
      exact this
    rw [if_neg (not_not.2 ht)]
    refine ⟨⟨rfl, ⟨?_, ?_, trivial⟩, ?_⟩, rfl⟩
    · dsimp only
      rw [hblk]
    · dsimp only
      rw [hblk]
      rfl
    · simp only [nil_append, forall_mem_singleton, hblk, and_self]
  · simp only [concat_eq_append] at *
    rw [map_append, map_singleton, getLastD_concat] at htail
    have hz : z.addr ≠ 0 := hl.pos h0 (by simp)
    have hzp : Apart z.addr p := hx z (by simp)
    have hz64 : h.heap_tail < 2 ^ 64 := by
      have := hl.high z (by simp)
      rw [htail]
      unfold Blk.stop at this
      omega
    rw [htail, if_pos hz]
    have hpz : ∀ x ∈ pre, Apart x.addr z.addr := fun x hm => hl.apart (.inl hm)
    have b1 : ((header p m h).setNext z.addr p).block p = ⟨m % 2 ^ 64, true, 0, z.addr⟩ := by
      rw [block_setNext_of_apart hzp.symm, block_header hz64, htail]
    have b2 : ((header p m h).setNext z.addr p).block z.addr = { h.block z.addr with next := p } := by
      rw [block_setNext, hold z (by simp), hmod]
    have b3 : ∀ x ∈ pre, ((header p m h).setNext z.addr p).block x.addr = h.block x.addr := by
      intro x hm
      rw [block_setNext_of_apart (hpz x hm), hold x (by simp [hm])]
    have hhead : ((header p m h).setNext z.addr p).heap_head = h.heap_head := rfl
    generalize (header p m h).setNext z.addr p = g at *
    have hlk := hr.links
    simp only [map_append, map_singleton] at hlk
    obtain ⟨l1, l2, -⟩ := dseg_mid.1 hlk
    have hf := hr.fields
    simp only [forall_mem_append, forall_mem_singleton] at hf
    refine ⟨Chain.setTail ⟨?_, ?_, ?_⟩ p, ?_⟩
    · rw [hhead, hr.head]
      cases pre <;> rfl
    · simp only [append_assoc, singleton_append, map_append, map_cons, map_nil]
      rw [dseg_mid]
      refine ⟨?_, ?_, ?_, ?_, ?_, trivial⟩
      · refine l1.congr ?_ ?_ <;>
        · simp only [forall_mem_map]
          intro x hm
          rw [b3 x hm]
      · rw [b2]
        exact l2
      · rw [b2]
        rfl
      · dsimp only
        rw [b1]
      · dsimp only
        rw [b1]
        rfl
    · simp only [forall_mem_append, forall_mem_singleton, b1, b2, and_self, and_true]
      exact ⟨fun x hm => by rw [b3 x hm]; exact hf.1 x hm, hf.2⟩
    · simp

theorem ALIGN_UP_eq {n : Nat} (hn : n ≤ 2 ^ 63 - 64) : ALIGN_UP n = (n + 15) / 16 * 16 := by
  unfold ALIGN_UP ALIGN
  rw [mod_eq_of_lt (by omega)]

theorem sbrk_spec {inc : Nat} (hinc : inc < 2 ^ 63) (grant : Bool) : sbrk grant inc h = (FAILED, h) ∨
    sbrk grant inc h = (h.brk, { h with brk := h.brk + inc }) ∧ h.brk + inc < 2 ^ 64 := by
  have hint : int64 inc = inc := if_pos hinc
  unfold sbrk
  rw [hint]
  dsimp only
  split
  · rename_i hg
    obtain ⟨-, -, hlt⟩ := hg
    right
    refine ⟨?_, by exact_mod_cast hlt⟩
    rw [show ((h.brk : Int) + inc).toNat = h.brk + inc from Int.toNat_natCast (h.brk + inc)]
  · exact .inl rfl

theorem growHeap_spec (hr : Rep h bs) (hl : Laid base h.brk rs bs) (h0 : 0 < base) {n : Nat} (hn : n ≤ 2 ^ 63 - 64)
    (grant : Bool) : growHeap grant (ALIGN_UP n) h = (0, h) ∨
      ∃ h', growHeap grant (ALIGN_UP n) h = (h.brk, h') ∧ Rep h' (bs ++ [⟨h.brk, ALIGN_UP n, true⟩]) ∧
        h'.brk = h.brk + BLK_HDR + ALIGN_UP n ∧ h'.brk < 2 ^ 64 ∧
        ∀ i, i < h.brk → (∀ b ∈ bs, i < b.addr ∨ b.addr + BLK_HDR ≤ i) → h'.mem i = h.mem i := by
  have hm := ALIGN_UP_eq hn
  have htotal : ALIGN_UP ((ALIGN_UP n + BLK_HDR) % 2 ^ 64) = ALIGN_UP n + BLK_HDR := by
    rw [hm]
    unfold ALIGN_UP ALIGN BLK_HDR
    omega
  have hsize : (ALIGN_UP n + BLK_HDR + (2 ^ 64 - BLK_HDR)) % 2 ^ 64 = ALIGN_UP n := by
    rw [hm]
    unfold BLK_HDR
    omega
  have hsmall : ALIGN_UP n + BLK_HDR < 2 ^ 63 := by
    rw [hm]
    unfold BLK_HDR
    omega
  unfold growHeap growHeapWith
  rw [htotal]
  dsimp only
  rcases sbrk_spec hsmall grant (h := h) with hs | ⟨hs, hlt⟩
  · left
    rw [hs]
    exact if_pos rfl
  · right
    have hne : h.brk ≠ FAILED := by
      unfold FAILED
      unfold BLK_HDR at hlt
      omega
    rw [hs]
    dsimp only
    rw [if_neg hne]
    have hr' : Rep { h with brk := h.brk + (ALIGN_UP n + BLK_HDR) } bs := ⟨hr.toChain.congr rfl fun _ _ => rfl, hr.tail⟩
    have hlink := hr'.link (p := h.brk) (m := ALIGN_UP n + BLK_HDR + (2 ^ 64 - BLK_HDR)) hl h0 (by omega)
    rw [hsize] at hlink
    have hb : ∀ p m (h : Heap), (linkBlock p m h).brk = h.brk := by
      intro p m h
      unfold linkBlock
      dsimp only
      split <;> rfl
    refine ⟨_, rfl, hlink, ?_, ?_, fun i h1 h2 => ?_⟩
    · rw [hb]
      dsimp only
      omega
    · rw [hb]
      exact hlt
    · refine mem_linkBlock (.inl h1) fun ht => ?_
      obtain ⟨z, hz, e⟩ := hr'.tail_mem ht
      exact e ▸ h2 z hz

/-- First fit, on the list from some block on. -/
theorem firstFit_eq {n : Nat} (hc : Chain h (pre ++ post)) (hp : ∀ b ∈ post, b.addr ≠ 0) {k : Nat}
    (hk : post.length < k) : firstFit n h k ((post.map Blk.addr).headD 0) =
      some (((post.find? fun b => b.free && decide (n ≤ b.size)).map Blk.addr).getD 0) := by
  induction post generalizing pre k with
  | nil =>
    obtain ⟨k, rfl⟩ := Nat.exists_eq_add_of_lt hk
    rfl
  | cons b post ih =>
    obtain ⟨k, rfl⟩ : ∃ j, k = j + 1 := ⟨k - 1, by omega⟩
    have hb : b.addr ≠ 0 := hp b mem_cons_self
    obtain ⟨hs, hf⟩ := hc.fields b (by simp)
    have hn := hc.next_eq
    simp only [map_cons, headD_cons]
    rw [firstFit, if_neg hb, hs, hf, hn]
    by_cases hfit : b.free = true ∧ n ≤ b.size
    · rw [if_pos hfit, find?_cons_of_pos (by simp [hfit])]
      rfl
    · rw [if_neg hfit, find?_cons_of_neg (by simpa using hfit)]
      have hc' : Chain h ((pre ++ [b]) ++ post) := by simpa using hc
      refine ih hc' (fun x hx => hp x (mem_cons_of_mem _ hx)) ?_
      rw [length_cons] at hk
      omega

/-- What `malloc` hands out: nothing, a free block of the list, or a new block at its end. -/
inductive Handed (n : Nat) (bs : List Blk) : Nat → List Blk → Prop
  | refused : Handed n bs 0 bs
  | reused {pre post : List Blk} {b : Blk} : bs = pre ++ b :: post → b.free = true → n ≤ b.size →
    Handed n bs (b.addr + BLK_HDR) (pre ++ { b with free := false } :: post)
  | fresh {p m : Nat} : n ≤ m → (∀ b ∈ bs, b.addr ≠ p) → Handed n bs (p + BLK_HDR) (bs ++ [⟨p, m, false⟩])

theorem Handed.used {n r : Nat} {bs' : List Blk} (hh : Handed n bs r bs') : r = 0 ∧ bs' = bs ∨
    ∃ b ∈ bs', b.free = false ∧ r = b.addr + BLK_HDR ∧ n ≤ b.size ∧ (used bs').Perm (b :: used bs) := by
  cases hh with
  | refused => exact .inl ⟨rfl, rfl⟩
  | @reused pre post b hbs hf hn =>
    subst hbs
    refine .inr ⟨{ b with free := false }, by simp, rfl, rfl, hn, ?_⟩
    have h1 : User.used (b :: post) = User.used post := filter_cons_of_neg (by simp [hf])
    have h2 : User.used ({ b with free := false } :: post) = { b with free := false } :: User.used post :=
      filter_cons_of_pos (by simp)
    rw [used_append, used_append, h1, h2]
    exact perm_middle
  | @fresh p m hm hp =>
    refine .inr ⟨⟨p, m, false⟩, by simp, rfl, rfl, hm, ?_⟩
    rw [used_append]
    exact perm_append_singleton _ _

theorem Handed.isChain {n r : Nat} {bs' : List Blk} {R : Blk → Blk → Prop} (hh : Handed n bs r bs')
    (hc : bs.IsChain R) (h1 : ∀ b y, R b y → R { b with free := false } y)
    (h2 : ∀ x b, R x b → R x { b with free := false })
    (h3 : ∀ x ∈ bs, ∀ p m, (∀ b ∈ bs, b.addr ≠ p) → R x ⟨p, m, false⟩) : bs'.IsChain R := by
  cases hh with
  | refused => exact hc
  | @reused pre post b hbs hf hn =>
    subst hbs
    obtain ⟨c1, c2, c3⟩ := isChain_append.1 hc
    obtain ⟨c4, c5⟩ := isChain_cons.1 c2
    refine c1.append (c5.cons fun y hy => h1 _ _ (c4 y hy)) fun x hx y hy => ?_
    cases hy
    exact h2 _ _ (c3 x hx b rfl)
  | @fresh p m hm hp =>
    refine hc.append (.singleton _) fun x hx y hy => ?_
    cases hy
    exact h3 x (mem_of_getLast? hx) p m hp

theorem Handed.settled {n r : Nat} {bs' : List Blk} (hh : Handed n bs r bs') (hs : Settled bs) : Settled bs' := by
  refine hh.isChain hs ?_ ?_ ?_
  · rintro b y - ⟨hf, -⟩
    cases hf
  · rintro x b - ⟨-, hf⟩
    cases hf
  · rintro x - p m - ⟨-, hf⟩
    cases hf

theorem claim_eq (hl : Laid base h.brk rs bs) (hbrk : h.brk < 2 ^ 64) (hb : b ∈ bs) :
    claim b.addr h = (b.addr + BLK_HDR, h.setFree b.addr 0) := by
  have := hl.high b hb
  unfold claim
  rw [mod_eq_of_lt (by unfold Blk.stop at this; omega)]

theorem Rep.claim (hr : Rep h (pre ++ b :: post)) (hl : Laid base brk rs (pre ++ b :: post)) :
    Rep (h.setFree b.addr 0) (pre ++ { b with free := false } :: post) := by
  refine ⟨hr.toChain.setFree hl 0, hr.tail.trans ?_⟩
  simp only [map_append, map_cons]

theorem malloc_spec (hr : Rep h bs) (hl : Laid base h.brk rs bs) (h0 : 0 < base) (hb : base ≤ h.brk)
    (hbrk : h.brk < 2 ^ 64) (hrs : ∀ r ∈ rs, r.1 + r.2 ≤ h.brk) {n : Nat} (hn : n ≤ 2 ^ 63 - 64) (grant : Bool) :
    ∃ r h' bs', malloc grant n h = some (r, h') ∧ Rep h' bs' ∧ Laid base h'.brk rs bs' ∧ h.brk ≤ h'.brk ∧
      h'.brk < 2 ^ 64 ∧ Handed n bs r bs' ∧ Placed h.brk bs bs' ∧
      ∀ i, i < h.brk → (∀ b ∈ bs, i < b.addr ∨ b.addr + BLK_HDR ≤ i) → h'.mem i = h.mem i := by
  by_cases hz : n = 0
  · exact ⟨0, h, bs, if_pos hz, hr, hl, le_refl _, hbrk, .refused, .refl _ _, fun _ _ _ => rfl⟩
  have hge : n ≤ ALIGN_UP n := by
    rw [ALIGN_UP_eq hn]
    omega
  have hc : Chain h ([] ++ bs) := hr.toChain
  have hfit := firstFit_eq (n := ALIGN_UP n) hc (fun b hb => hl.pos h0 hb) (hl.length_lt hbrk)
  rw [← hr.head] at hfit
  unfold malloc mallocWith
  rw [if_neg hz, hfit, Option.map_some]
  cases hfind : bs.find? (fun b => b.free && decide (ALIGN_UP n ≤ b.size)) with
  | some b =>
    have hmem := mem_of_find?_eq_some hfind
    have hprop := find?_some hfind
    simp only [Bool.and_eq_true, decide_eq_true_eq] at hprop
    obtain ⟨pre, post, rfl⟩ := append_of_mem hmem
    rw [Option.map_some, Option.getD_some, if_pos (hl.pos h0 hmem), claim_eq hl hbrk hmem]
    refine ⟨_, _, _, rfl, hr.claim hl, hl.flag _, le_refl _, hbrk, .reused rfl hprop.1 (hge.trans hprop.2), ?_,
      fun i _ hi => mem_setFree (hi b hmem)⟩
    intro x hx
    rcases mem_append.1 hx with hx | hx
    · exact .inl ⟨x, by simp [hx], rfl⟩
    · rcases mem_cons.1 hx with rfl | hx
      · exact .inl ⟨b, hmem, rfl⟩
      · exact .inl ⟨x, by simp [hx], rfl⟩
  | none =>
    rw [Option.map_none, Option.getD_none, if_neg (not_not.2 rfl)]
    rw [← growHeap]
    rcases growHeap_spec hr hl h0 hn grant with hg | ⟨h', hg, hr', hb', hlt, hfr⟩
    · rw [hg]
      exact ⟨0, h, bs, rfl, hr, hl, le_refl _, hbrk, .refused, .refl _ _, fun _ _ _ => rfl⟩
    · rw [hg]
      have hl' := hl.grow hrs hb (ALIGN_UP n) true
      rw [← hb'] at hl'
      have hne : h.brk ≠ 0 := by omega
      have hcl := claim_eq (b := ⟨h.brk, ALIGN_UP n, true⟩) hl' hlt (by simp)
      dsimp only at hcl ⊢
      rw [if_neg hne, hcl]
      refine ⟨_, _, _, rfl, hr'.claim hl', hl'.flag _, ?_, hlt, .fresh hge ?_, ?_, fun i h1 h2 =>
        (mem_setFree (.inl h1)).trans (hfr i h1 h2)⟩
      · show h.brk ≤ h'.brk
        omega
      · intro b hbm heq
        have := hl.high b hbm
        unfold Blk.stop BLK_HDR at this
        omega
      · intro x hx
        rcases mem_append.1 hx with hx | hx
        · exact .inl ⟨x, hx, rfl⟩
        · rw [mem_singleton.1 hx]
          exact .inr (le_refl _)

end

end User
