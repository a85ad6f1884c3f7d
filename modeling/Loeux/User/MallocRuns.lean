import Mathlib
import Loeux.User.MallocSpec
/-!
# Programs that use the user heap

A program calls the allocator and `sbrk` in any order and writes to the memory it was
given. As long as freed blocks are merged only with blocks that adjoin them, and no
request wraps, live blocks, headers and the program's own regions stay apart.
-/

namespace User

open Lib Heap Function List Nat

/-! ## Programs -/

inductive Op
  | malloc (n : Nat)
  | calloc (nmemb size : Nat)
  | realloc (ptr n : Nat)
  | free (ptr : Nat)
  | sbrk (inc : Nat)
  | store (a : Nat) (v : UInt8)

def Op.run (grant : Bool) (h : Heap) : Op → Option (Nat × Heap)
  | .malloc n => User.malloc grant n h
  | .calloc nmemb size => User.calloc grant nmemb size h
  | .realloc ptr n => User.realloc grant ptr n h
  | .free ptr => (User.free ptr h).map fun h => (0, h)
  | .sbrk inc => some (User.sbrk grant inc h)
  | .store a v => some (0, { h with mem := Function.update h.mem a v })

/-- A program with what it holds: the live pointers, and the regions of its own `sbrk`s
as address and length. `base` is where the heap began. -/
structure Prog where
  heap : Heap
  base : Nat
  live : List Nat
  regions : List (Nat × Nat)

def Heap.payload (h : Heap) (p : Nat) : Set Nat := Set.Ico p (p + (h.block (blockOf p)).size)

def headerBytes (b : Nat) : Set Nat := Set.Ico b (b + BLK_HDR)

def regionBytes (r : Nat × Nat) : Set Nat := Set.Ico r.1 (r.1 + r.2)

/-- What a program may do: free and resize live pointers, grow the break, and write to
its own memory. -/
def Op.Allowed (s : Prog) : Op → Prop
  | .malloc _ | .calloc _ _ => True
  | .realloc ptr _ | .free ptr => ptr = 0 ∨ ptr ∈ s.live
  | .sbrk inc => 0 < inc ∧ inc < 2 ^ 63
  | .store a _ => a < s.base ∨ (∃ p ∈ s.live, a ∈ s.heap.payload p) ∨ ∃ r ∈ s.regions, a ∈ regionBytes r

def Prog.next (s : Prog) (r : Nat) (h : Heap) : Op → Prog
  | .malloc _ | .calloc _ _ => { s with heap := h, live := if r = 0 then s.live else r :: s.live }
  | .realloc ptr n => { s with
      heap := h
      live := if r ≠ 0 then r :: s.live.erase ptr else if n = 0 then s.live.erase ptr else s.live }
  | .free ptr => { s with heap := h, live := s.live.erase ptr }
  | .sbrk inc => { s with heap := h, regions := if r = FAILED then s.regions else (r, inc) :: s.regions }
  | .store _ _ => { s with heap := h }

instance (s : Prog) : (op : Op) → Decidable (op.Allowed s)
  | .malloc _ | .calloc _ _ => inferInstanceAs (Decidable True)
  | .realloc ptr _ | .free ptr => inferInstanceAs (Decidable (ptr = 0 ∨ ptr ∈ s.live))
  | .sbrk inc => inferInstanceAs (Decidable (0 < inc ∧ inc < 2 ^ 63))
  | .store a _ => inferInstanceAs (Decidable (a < s.base ∨
      (∃ p ∈ s.live, p ≤ a ∧ a < p + (s.heap.block (blockOf p)).size) ∨ ∃ r ∈ s.regions, r.1 ≤ a ∧ a < r.1 + r.2))

structure Event where
  op : Op
  grant : Bool
  answer : Nat

def Step (s : Prog) (e : Event) (s' : Prog) : Prop :=
  e.op.Allowed s ∧ ∃ h, e.op.run e.grant s.heap = some (e.answer, h) ∧ s' = s.next e.answer h e.op

structure Start (s : Prog) : Prop where
  head : s.heap.heap_head = 0
  tail : s.heap.heap_tail = 0
  brk : s.heap.brk = s.base
  pos : 0 < s.base
  lt : s.base < 2 ^ 64
  live : s.live = []
  regions : s.regions = []

/-- The free neighbours in the list of the block at `b` adjoin it. -/
def Adjoins (h : Heap) (b : Nat) : Prop :=
  ((h.block b).next ≠ 0 → (h.block (h.block b).next).free = true → b + BLK_HDR + (h.block b).size = (h.block b).next) ∧
  ((h.block b).prev ≠ 0 → (h.block (h.block b).prev).free = true →
    (h.block b).prev + BLK_HDR + (h.block (h.block b).prev).size = b)

/-- Sizes that do not wrap, and freed blocks that adjoin their free neighbours. -/
def Fair (s : Prog) (e : Event) : Prop :=
  match e.op with
  | .malloc n => n ≤ 2 ^ 63 - 64
  | .calloc nmemb size => nmemb * size % 2 ^ 64 ≤ 2 ^ 63 - 64
  | .realloc ptr n => n ≤ 2 ^ 63 - 64 ∧
    (ptr ≠ 0 → (n = 0 ∨ (s.heap.block (blockOf ptr)).size < n) → Adjoins s.heap (blockOf ptr))
  | .free ptr => ptr ≠ 0 → Adjoins s.heap (blockOf ptr)
  | .sbrk _ | .store _ _ => True

instance (h : Heap) (b : Nat) : Decidable (Adjoins h b) := inferInstanceAs (Decidable (_ ∧ _))

instance decidableFair (s : Prog) : (e : Event) → Decidable (Fair s e)
  | ⟨.malloc n, _, _⟩ => inferInstanceAs (Decidable (n ≤ 2 ^ 63 - 64))
  | ⟨.calloc nmemb size, _, _⟩ => inferInstanceAs (Decidable (nmemb * size % 2 ^ 64 ≤ 2 ^ 63 - 64))
  | ⟨.realloc ptr n, _, _⟩ => inferInstanceAs (Decidable (n ≤ 2 ^ 63 - 64 ∧
      (ptr ≠ 0 → (n = 0 ∨ (s.heap.block (blockOf ptr)).size < n) → Adjoins s.heap (blockOf ptr))))
  | ⟨.free ptr, _, _⟩ => inferInstanceAs (Decidable (ptr ≠ 0 → Adjoins s.heap (blockOf ptr)))
  | ⟨.sbrk _, _, _⟩ | ⟨.store _ _, _, _⟩ => inferInstanceAs (Decidable True)

/-! ## The invariant -/

structure Inv (s : Prog) (bs : List Blk) : Prop where
  rep : Rep s.heap bs
  laid : Laid s.base s.heap.brk s.regions bs
  settled : Settled bs
  pos : 0 < s.base
  le : s.base ≤ s.heap.brk
  lt : s.heap.brk < 2 ^ 64
  regions : ∀ r ∈ s.regions, s.base ≤ r.1 ∧ r.1 + r.2 ≤ s.heap.brk
  live : s.live.Perm ((used bs).map fun b => b.addr + BLK_HDR)

variable {s : Prog} {h h' : Heap} {base brk : Nat} {rs : List (Nat × Nat)} {bs bs' : List Blk} {b : Blk} {p n : Nat}

theorem Laid.blockOf_payload (hl : Laid base brk rs bs) (hbrk : brk < 2 ^ 64) (hb : b ∈ bs) :
    blockOf (b.addr + BLK_HDR) = b.addr := by
  have := hl.high b hb
  unfold blockOf
  unfold Blk.stop BLK_HDR at *
  omega

theorem Inv.block_of_live (hi : Inv s bs) (hp : p ∈ s.live) :
    ∃ b ∈ bs, b.free = false ∧ p = b.addr + BLK_HDR ∧ blockOf p = b.addr ∧ (s.heap.block (blockOf p)).size = b.size := by
  obtain ⟨b, hb, rfl⟩ := mem_map.1 (hi.live.mem_iff.1 hp)
  obtain ⟨hb, hf⟩ := mem_filter.1 hb
  have hbo := hi.laid.blockOf_payload hi.lt hb
  refine ⟨b, hb, by simpa using hf, rfl, hbo, ?_⟩
  rw [hbo]
  exact (hi.rep.fields b hb).1

theorem Rep.write (hr : Rep h bs) (hh : h'.heap_head = h.heap_head) (ht : h'.heap_tail = h.heap_tail)
    (hm : ∀ b ∈ bs, ∀ i, b.addr ≤ i → i < b.addr + BLK_HDR → h'.mem i = h.mem i) : Rep h' bs :=
  ⟨hr.toChain.congr hh fun b hb => block_congr (hm b hb), ht.trans hr.tail⟩

theorem Laid.stop_le (hl : Laid base brk rs bs) {b c : Blk} (hb : b ∈ bs) (hc : c ∈ bs) (hne : b ≠ c) :
    b.stop ≤ c.addr ∨ c.stop ≤ b.addr := by
  have : Std.Symm fun x y : Blk => x.stop ≤ y.addr ∨ y.stop ≤ x.addr := ⟨fun _ _ => Or.symm⟩
  have ho : bs.Pairwise fun x y => x.stop ≤ y.addr ∨ y.stop ≤ x.addr := hl.order.imp .inl
  exact ho.forall hb hc hne

theorem Laid.outside (hl : Laid base brk rs bs) {b x : Blk} (hb : b ∈ bs) (hx : x ∈ bs) {i : Nat}
    (h1 : b.addr + BLK_HDR ≤ i) (h2 : i < b.stop) : i < x.addr ∨ x.addr + BLK_HDR ≤ i := by
  by_cases heq : b = x
  · exact heq ▸ .inr h1
  · have := hl.stop_le hb hx heq
    unfold Blk.stop at *
    omega

section

variable (hi : Inv s bs)

include hi

theorem Inv.write {m : Bytes}
    (hm : ∀ b ∈ bs, ∀ i, b.addr ≤ i → i < b.addr + BLK_HDR → m i = s.heap.mem i) :
    Inv { s with heap := { s.heap with mem := m } } bs :=
  { hi with rep := hi.rep.write rfl rfl hm }

theorem Inv.handed {r : Nat} (hr : Rep h' bs') (hl : Laid s.base h'.brk s.regions bs')
    (hle : s.heap.brk ≤ h'.brk) (hlt : h'.brk < 2 ^ 64) (hh : Handed n bs r bs') :
    Inv { s with heap := h', live := if r = 0 then s.live else r :: s.live } bs' where
  rep := hr
  laid := hl
  settled := hh.settled hi.settled
  pos := hi.pos
  le := hi.le.trans hle
  lt := hlt
  regions r hr := ⟨(hi.regions r hr).1, (hi.regions r hr).2.trans hle⟩
  live := by
    rcases hh.used with ⟨rfl, rfl⟩ | ⟨b, -, -, rfl, -, hp⟩
    · exact hi.live
    · have hne : b.addr + BLK_HDR ≠ 0 := succ_ne_zero _
      dsimp only
      rw [if_neg hne]
      exact (hi.live.cons _).trans (hp.map fun b : Blk => b.addr + BLK_HDR).symm

omit hi in
/-- The break does not go back, and headers stay where they are or are new. -/
def Onward (h : Heap) (bs : List Blk) (h' : Heap) (bs' : List Blk) : Prop := h.brk ≤ h'.brk ∧ Placed h.brk bs bs'

theorem Inv.malloc (hn : n ≤ 2 ^ 63 - 64) (grant : Bool) :
    ∃ r h' bs', User.malloc grant n s.heap = some (r, h') ∧ Handed n bs r bs' ∧
      Inv { s with heap := h', live := if r = 0 then s.live else r :: s.live } bs' ∧ Onward s.heap bs h' bs' ∧
      ∀ i, i < s.heap.brk → (∀ b ∈ bs, i < b.addr ∨ b.addr + BLK_HDR ≤ i) → h'.mem i = s.heap.mem i := by
  obtain ⟨r, h', bs', e, hr, hl, hle, hlt, hh, hp, hfr⟩ :=
    malloc_spec hi.rep hi.laid hi.pos hi.le hi.lt (fun r hr => (hi.regions r hr).2) hn grant
  exact ⟨r, h', bs', e, hh, hi.handed hr hl hle hlt hh, ⟨hle, hp⟩, hfr⟩

omit hi in
/-- The block at `r` has room for `n` bytes. -/
def Room (bs : List Blk) (r n : Nat) : Prop := ∃ b ∈ bs, r = b.addr + BLK_HDR ∧ n ≤ b.size

theorem Inv.calloc {nmemb size : Nat} (hn : nmemb * size % 2 ^ 64 ≤ 2 ^ 63 - 64) (grant : Bool) :
    ∃ r h' bs', User.calloc grant nmemb size s.heap = some (r, h') ∧
      Inv { s with heap := h', live := if r = 0 then s.live else r :: s.live } bs' ∧ Onward s.heap bs h' bs' ∧
      (r ≠ 0 → Room bs' r (nmemb * size % 2 ^ 64) ∧ ∀ i, i < nmemb * size % 2 ^ 64 → h'.mem (r + i) = 0) := by
  obtain ⟨r, h', bs', e, hh, hi', hon, -⟩ := hi.malloc hn grant
  unfold User.calloc callocWith
  rw [← User.malloc, e, Option.map_some]
  rcases hh.used with ⟨rfl, -⟩ | ⟨b, hb, -, rfl, hsz, -⟩
  · exact ⟨0, h', bs', rfl, hi', hon, fun h0 => absurd rfl h0⟩
  · have hne : b.addr + BLK_HDR ≠ 0 := succ_ne_zero _
    dsimp only
    rw [if_neg hne]
    refine ⟨_, _, bs', rfl, hi'.write fun x hx i h1 h2 => Bytes.copy_of_ne _ _ ?_, hon, fun _ => ⟨⟨b, hb, rfl, hsz⟩,
      fun i hlt => ?_⟩⟩
    · by_contra hin
      have := hi'.laid.outside hb hx (i := i) (by omega) (by unfold Blk.stop; omega)
      omega
    · show Bytes.copy _ _ _ _ _ = _
      unfold Bytes.copy
      rw [if_pos (by omega)]
      rfl

omit hi in
/-- The neighbours of the block at `c` may be joined to it where one of them is free. -/
def Meets (rs : List (Nat × Nat)) (c : Nat) (x y : Blk) : Prop :=
  (x.addr = c ∧ y.free = true ∨ y.addr = c ∧ x.free = true) → Joined rs x y

omit hi in
theorem meets_nil (c : Nat) (bs : List Blk) : bs.IsChain (Meets [] c) :=
  isChain_iff_forall_rel_of_append_cons_cons.2 fun _ _ _ _ _ _ => .inl rfl

omit hi in
theorem Handed.meets {r c : Nat} (hh : Handed n bs r bs') (hc : ∃ b ∈ bs, b.addr = c) (hm : bs.IsChain (Meets rs c)) :
    bs'.IsChain (Meets rs c) := by
  refine hh.isChain hm ?_ ?_ ?_
  · rintro b y hR (⟨hx, hf⟩ | ⟨-, hf⟩)
    · exact hR (.inl ⟨hx, hf⟩)
    · cases hf
  · rintro x b hR (⟨-, hf⟩ | ⟨hx, hf⟩)
    · cases hf
    · exact hR (.inr ⟨hx, hf⟩)
  · rintro x - p m hp (⟨-, hf⟩ | ⟨rfl, -⟩)
    · cases hf
    · obtain ⟨b, hb, rfl⟩ := hc
      exact absurd rfl (hp b hb)

theorem Inv.meets (hb : b ∈ bs) (ha : Adjoins s.heap b.addr) : bs.IsChain (Meets rs b.addr) := by
  obtain ⟨pre, post, rfl⟩ := append_of_mem hb
  have hsb := (hi.rep.fields b hb).1
  have hne : ∀ x, x ∈ pre ∨ x ∈ post → x.addr ≠ b.addr := by
    intro x hx heq
    have := hi.laid.apart hx
    unfold Apart BLK_HDR at this
    omega
  have hoff : ∀ x y : Blk, x.addr ≠ b.addr → y.addr ≠ b.addr → Meets rs b.addr x y := by
    rintro x y hx hy (⟨h, -⟩ | ⟨h, -⟩)
    · exact absurd h hx
    · exact absurd h hy
  have hpre : pre.IsChain (Meets rs b.addr) :=
    (isChain_iff_forall_rel_of_append_cons_cons.2 fun x y l l' e => hoff x y
      (hne x (.inl (by simp [e]))) (hne y (.inl (by simp [e]))))
  have hpost : post.IsChain (Meets rs b.addr) :=
    (isChain_iff_forall_rel_of_append_cons_cons.2 fun x y l l' e => hoff x y
      (hne x (.inr (by simp [e]))) (hne y (.inr (by simp [e]))))
  refine hpre.append (hpost.cons fun y hy hm => ?_) fun x hx y hy hm => ?_
  · have hmem : y ∈ post := mem_of_mem_head? hy
    obtain ⟨-, hf⟩ | ⟨he, -⟩ := hm
    · have hn : (s.heap.block b.addr).next = y.addr := by
        rw [hi.rep.next_eq]
        obtain ⟨l, rfl⟩ : ∃ l, post = y :: l := by
          cases post with
          | nil => cases hy
          | cons z l => cases hy; exact ⟨l, rfl⟩
        rfl
      have hfy := (hi.rep.fields y (by simp [hmem])).2
      have := ha.1 (hn ▸ hi.laid.pos hi.pos (by simp [hmem])) (by rw [hn, hfy, hf])
      rw [hn, hsb] at this
      exact .inr this
    · exact absurd he (hne y (.inr hmem))
  · cases hy
    have hmem : x ∈ pre := mem_of_getLast? hx
    obtain ⟨he, -⟩ | ⟨-, hf⟩ := hm
    · exact absurd he (hne x (.inl hmem))
    · have hn : (s.heap.block b.addr).prev = x.addr := by
        rw [hi.rep.prev_eq, getLastD_eq_getLast?, getLast?_map, hx]
        rfl
      obtain ⟨hsx, hfx⟩ := hi.rep.fields x (by simp [hmem])
      have := ha.2 (hn ▸ hi.laid.pos hi.pos (by simp [hmem])) (by rw [hn, hfx, hf])
      rw [hn, hsx] at this
      exact .inr this

theorem Inv.free (hp : p ∈ s.live) (hm : bs.IsChain (Meets s.regions (blockOf p))) :
    ∃ h' bs', User.free p s.heap = some h' ∧ Inv { s with heap := h', live := s.live.erase p } bs' ∧
      Onward s.heap bs h' bs' ∧ (∀ c ∈ used bs, c.addr + BLK_HDR ≠ p → c ∈ used bs') ∧ Framed bs s.heap h' := by
  obtain ⟨b, hb, hf, rfl, hbo, -⟩ := hi.block_of_live hp
  rw [hbo] at hm
  obtain ⟨pre, post, rfl⟩ := append_of_mem hb
  obtain ⟨-, m1, m2⟩ := isChain_append.1 hm
  obtain ⟨m3, -⟩ := isChain_cons.1 m1
  obtain ⟨h', bs', e, hr, hl, hs, hu, hbrk, hfr, hplaced⟩ := free_spec hi.rep hi.laid hi.pos hi.lt hi.settled
    (fun y hy hf => m3 y hy (.inl ⟨rfl, hf⟩)) (fun x hx hf => m2 x hx b rfl (.inr ⟨rfl, hf⟩))
  have hub : used (b :: post) = b :: used post := filter_cons_of_pos (by simp [hf])
  refine ⟨h', bs', e, ⟨hr, hl, hs, hi.pos, ?_, ?_, ?_, ?_⟩, ⟨hbrk.ge, hplaced⟩, fun c hc hne => ?_, hfr⟩
  · rw [hbrk]; exact hi.le
  · rw [hbrk]; exact hi.lt
  · rw [hbrk]; exact hi.regions
  · have hlive := hi.live
    rw [used_append, hub] at hlive
    have := (hlive.trans (perm_middle.map _)).erase (b.addr + BLK_HDR)
    rw [map_cons, erase_cons_head] at this
    dsimp only
    rw [hu]
    exact this
  · rw [used_append, hub] at hc
    rw [hu]
    rcases mem_append.1 hc with hc | hc
    · exact mem_append_left _ hc
    · rcases mem_cons.1 hc with rfl | hc
      · exact absurd rfl hne
      · exact mem_append_right _ hc

theorem Inv.nodup : s.live.Nodup := by
  rw [hi.live.nodup_iff]
  refine pairwise_map.2 ((hi.laid.order.filter _).imp fun hxy heq => ?_)
  unfold Blk.stop BLK_HDR at *
  omega

theorem Inv.perm {l : List Nat} (hl : l.Perm s.live) : Inv { s with live := l } bs :=
  { hi with live := hl.trans hi.live }

omit hi in
theorem copyBytes_spec (src dst n : Nat) (h : Heap) :
    ∃ m, copyBytes src dst n h = { h with mem := m } ∧ (∀ i, i < dst ∨ dst + n ≤ i → m i = h.mem i) ∧
      (src + n ≤ dst ∨ dst + n ≤ src → ∀ i, i < n → m (dst + i) = h.mem (src + i)) := by
  induction n with
  | zero => exact ⟨h.mem, rfl, fun _ _ => rfl, fun _ i hi => absurd hi (Nat.not_lt_zero i)⟩
  | succ n ih =>
    obtain ⟨m, e, hm, hcopy⟩ := ih
    rw [copyBytes, e]
    refine ⟨_, rfl, fun i hi => ?_, fun hd i hi => ?_⟩
    · rw [update_of_ne (by omega)]
      exact hm i (by omega)
    · rcases Nat.lt_succ_iff_lt_or_eq.1 hi with hlt | rfl
      · rw [update_of_ne (by omega)]
        exact hcopy (by omega) i hlt
      · rw [update_self]
        exact hm _ (by omega)

theorem Inv.realloc (hp : p ∈ s.live) (hn : (s.heap.block (blockOf p)).size < n → n ≤ 2 ^ 63 - 64)
    (ha : n = 0 ∨ (s.heap.block (blockOf p)).size < n → bs.IsChain (Meets s.regions (blockOf p))) (grant : Bool) :
    ∃ r h' bs', User.realloc grant p n s.heap = some (r, h') ∧
      Inv { s with heap := h', live := if r ≠ 0 then r :: s.live.erase p else if n = 0 then s.live.erase p else s.live }
        bs' ∧ Onward s.heap bs h' bs' ∧
      (r ≠ 0 → Room bs' r n ∧
        ∀ i, i < min (s.heap.block (blockOf p)).size n → h'.mem (r + i) = s.heap.mem (p + i)) := by
  obtain ⟨b, hb, hf, hpb, hbo, hsz⟩ := hi.block_of_live hp
  have hp0 : p ≠ 0 := by rw [hpb]; exact succ_ne_zero _
  unfold User.realloc reallocWith
  rw [if_neg hp0]
  by_cases hz : n = 0
  · obtain ⟨h', bs', e, hi', hon, -⟩ := hi.free hp (ha (.inl hz))
    rw [if_pos hz, e]
    exact ⟨0, h', bs', rfl, by rwa [if_neg (not_not.2 rfl), if_pos hz], hon, fun h0 => absurd rfl h0⟩
  rw [if_neg hz]
  by_cases hfits : n ≤ (s.heap.block (blockOf p)).size
  · rw [if_pos hfits]
    refine ⟨p, s.heap, bs, rfl, ?_, ⟨le_refl _, .refl _ _⟩, fun _ => ⟨⟨b, hb, hpb, hsz ▸ hfits⟩, fun _ _ => rfl⟩⟩
    rw [if_pos hp0]
    exact hi.perm (perm_cons_erase hp).symm
  rw [if_neg hfits]
  have hm := ha (.inr (by omega))
  rw [hbo] at hm
  obtain ⟨r, h', bs', e, hh, hi', hon, hfr⟩ := hi.malloc (hn (by omega)) grant
  rw [← User.malloc, e, Option.bind_some]
  rcases hh.used with ⟨rfl, rfl⟩ | ⟨c, hc, hcf, rfl, hcn, hperm⟩
  · exact ⟨0, h', bs', rfl, by rw [if_neg (not_not.2 rfl), if_neg hz]; exact hi', hon, fun h0 => absurd rfl h0⟩
  have hr0 : c.addr + BLK_HDR ≠ 0 := succ_ne_zero _
  dsimp only
  rw [if_neg hr0]
  rw [if_neg hr0] at hi'
  have hp' : p ∈ (c.addr + BLK_HDR) :: s.live := mem_cons_of_mem _ hp
  have hne : c.addr + BLK_HDR ≠ p := fun heq => (nodup_cons.1 hi'.nodup).1 (heq ▸ hp)
  have hbu : b ∈ used bs' := hperm.mem_iff.2 (mem_cons_of_mem _ (mem_filter.2 ⟨hb, by simp [hf]⟩))
  have hb' := (mem_filter.1 hbu).1
  have hsz' : (h'.block (blockOf p)).size = b.size := by
    rw [hbo]
    exact (hi'.rep.fields b hb').1
  obtain ⟨m, hcopy, hout, hsame⟩ := copyBytes_spec p (c.addr + BLK_HDR) (h'.block (blockOf p)).size h'
  have hpay : ∀ i, c.addr + BLK_HDR ≤ i → i < c.addr + BLK_HDR + n → ∀ x ∈ bs', i < x.addr ∨ x.addr + BLK_HDR ≤ i :=
    fun i h1 h2 x hx => hi'.laid.outside hc hx h1 (by unfold Blk.stop; omega)
  have hi2 := hi'.write (m := m) fun x hx i h1 h2 => hout i (by
    by_contra hin
    have := hpay i (by omega) (by omega) x hx
    omega)
  obtain ⟨h2, bs2, e2, hi3, hon2, hu, hfr2⟩ := hi2.free hp' (by
    rw [hbo]
    exact hh.meets ⟨b, hb, rfl⟩ hm)
  rw [hcopy, e2]
  have hcu : c ∈ used bs2 := hu c (mem_filter.2 ⟨hc, by simp [hcf]⟩) hne
  refine ⟨_, h2, bs2, rfl, ?_, ⟨hon.1.trans hon2.1, hon.2.trans hon2.2 hon.1⟩, fun _ => ⟨⟨c, (mem_filter.1 hcu).1, rfl, hcn⟩, fun i hlt => ?_⟩⟩
  · rw [if_pos hr0]
    dsimp only at hi3
    rwa [erase_cons_tail (by simpa using hne)] at hi3
  · -- the copy ran between two blocks that do not meet, and what it read is what the program had there
    have hbc := hi'.laid.stop_le hb' hc fun heq => hne (heq ▸ hpb.symm)
    rw [hfr2 _ (hpay _ (by omega) (by omega))]
    dsimp only
    rw [hsame (by unfold Blk.stop at hbc; omega) i (by omega)]
    refine hfr _ ?_ fun x hx => hi.laid.outside hb hx (by omega) (by unfold Blk.stop; omega)
    have := hi.laid.high b hb
    unfold Blk.stop at this
    omega

theorem Inv.sbrk {inc : Nat} (h0 : 0 < inc) (hinc : inc < 2 ^ 63) (grant : Bool) :
    Inv { s with
      heap := (User.sbrk grant inc s.heap).2
      regions := if (User.sbrk grant inc s.heap).1 = FAILED then s.regions
        else ((User.sbrk grant inc s.heap).1, inc) :: s.regions } bs := by
  rcases sbrk_spec hinc grant (h := s.heap) with hs | ⟨hs, hlt⟩
  · rw [hs]
    dsimp only
    rw [if_pos rfl]
    exact hi
  · have hne : s.heap.brk ≠ FAILED := by
      unfold FAILED
      omega
    rw [hs]
    dsimp only
    rw [if_neg hne]
    refine { hi with
      rep := ⟨hi.rep.toChain.congr rfl fun _ _ => rfl, hi.rep.tail⟩
      laid := ⟨hi.laid.low, hi.laid.order, ?_, ?_⟩
      le := ?_
      lt := hlt
      regions := ?_ }
    · intro b hb
      have := hi.laid.high b hb
      dsimp only
      omega
    · simp only [forall_mem_cons]
      exact ⟨⟨h0, fun b hb => .inr (hi.laid.high b hb)⟩, hi.laid.clear⟩
    · have := hi.le
      dsimp only
      omega
    · simp only [forall_mem_cons]
      refine ⟨⟨hi.le, le_refl _⟩, fun r hr => ⟨(hi.regions r hr).1, ?_⟩⟩
      have := (hi.regions r hr).2
      omega

theorem Inv.store {a : Nat} (v : UInt8) (ha : Op.Allowed s (.store a v)) :
    Inv { s with heap := { s.heap with mem := Function.update s.heap.mem a v } } bs := by
  refine hi.write fun x hx i h1 h2 => update_of_ne ?_ v s.heap.mem
  rintro rfl
  rcases ha with hlow | ⟨p, hp, hpa⟩ | ⟨r, hr, hra⟩
  · have := hi.laid.low x hx
    omega
  · obtain ⟨b, hb, -, rfl, -, hsz⟩ := hi.block_of_live hp
    obtain ⟨h3, h4⟩ := hpa
    have := hi.laid.outside hb hx h3 (by unfold Blk.stop; omega)
    omega
  · obtain ⟨h3, h4⟩ := hra
    have := (hi.laid.clear r hr).2 x hx
    unfold Blk.stop at this
    omega

theorem Inv.serve (op : Op) (grant : Bool) (ha : op.Allowed s) (hf : Fair s ⟨op, grant, n⟩) :
    ∃ r h' bs', op.run grant s.heap = some (r, h') ∧ Inv (s.next r h' op) bs' := by
  cases op with
  | malloc n =>
    obtain ⟨r, h', bs', e, -, hi', -⟩ := hi.malloc hf grant
    exact ⟨r, h', bs', e, hi'⟩
  | calloc nmemb size =>
    obtain ⟨r, h', bs', e, hi', -⟩ := hi.calloc hf grant
    exact ⟨r, h', bs', e, hi'⟩
  | realloc ptr n =>
    have hzero : 0 ∉ s.live := by
      intro h0
      obtain ⟨b, -, -, hb, -⟩ := hi.block_of_live h0
      unfold BLK_HDR at hb
      omega
    rcases ha with rfl | hp
    · obtain ⟨r, h', bs', e, -, hi', -⟩ := hi.malloc hf.1 grant
      refine ⟨r, h', bs', e, ?_⟩
      simp only [Prog.next, erase_of_not_mem hzero, ite_self, ite_not]
      exact hi'
    · obtain ⟨b, hb, -, -, hbo, -⟩ := hi.block_of_live hp
      have ha := hf.2 fun h0 => hzero (h0 ▸ hp)
      rw [hbo] at ha
      obtain ⟨r, h', bs', e, hi', -⟩ := hi.realloc hp (fun _ => hf.1) (hbo ▸ fun h => hi.meets hb (ha h)) grant
      exact ⟨r, h', bs', e, hi'⟩
  | free ptr =>
    rcases ha with rfl | hp
    · refine ⟨0, s.heap, bs, rfl, ?_⟩
      have hzero : s.live.erase 0 = s.live := by
        refine erase_of_not_mem fun h0 => ?_
        obtain ⟨b, -, -, hb, -⟩ := hi.block_of_live h0
        unfold BLK_HDR at hb
        omega
      simp only [Prog.next, hzero]
      exact hi
    · obtain ⟨b, hb, -, hpb, hbo, -⟩ := hi.block_of_live hp
      have hm : bs.IsChain (Meets s.regions b.addr) := hi.meets hb (hbo ▸ hf (by rw [hpb]; exact succ_ne_zero _))
      rw [← hbo] at hm
      obtain ⟨h', bs', e, hi', -⟩ := hi.free hp hm
      exact ⟨0, h', bs', by rw [Op.run, e]; rfl, hi'⟩
  | sbrk inc => exact ⟨_, _, bs, rfl, hi.sbrk ha.1 ha.2 grant⟩
  | store a v => exact ⟨0, _, bs, rfl, hi.store v ha⟩

/-! ## Live blocks stay apart -/

omit hi in
/-- The block list is a doubly linked list in address order that ends at `heap_tail`, and
the payload of each live block is apart from the other payloads, the headers and the
program's own regions. -/
structure Kept (s : Prog) : Prop where
  list : ∃ l : List Nat, s.heap.heap_head = l.headD 0 ∧ s.heap.heap_tail = l.getLastD 0 ∧
    DSeg (fun a => (s.heap.block a).next) (fun a => (s.heap.block a).prev) 0 l 0 ∧ l.Pairwise (· < ·) ∧ 0 ∉ l ∧
    ∀ p ∈ s.live, blockOf p ∈ l ∧ ∀ b ∈ l, Disjoint (s.heap.payload p) (headerBytes b)
  once : s.live.Nodup
  payloads : ∀ p ∈ s.live, ∀ q ∈ s.live, p ≠ q → Disjoint (s.heap.payload p) (s.heap.payload q)
  regions : ∀ p ∈ s.live, ∀ r ∈ s.regions, Disjoint (s.heap.payload p) (regionBytes r)

theorem Inv.kept : Kept s := by
  have hpay : ∀ p ∈ s.live, ∃ b ∈ bs, p = b.addr + BLK_HDR ∧ blockOf p = b.addr ∧
      s.heap.payload p = Set.Ico (b.addr + BLK_HDR) b.stop := by
    intro p hp
    obtain ⟨b, hb, -, rfl, hbo, hsz⟩ := hi.block_of_live hp
    refine ⟨b, hb, rfl, hbo, ?_⟩
    rw [Heap.payload, hsz]
    rfl
  have hdis : ∀ {a b c d : Nat}, b ≤ c ∨ d ≤ a → Disjoint (Set.Ico a b) (Set.Ico c d) := by
    intro a b c d h
    rw [Set.Ico_disjoint_Ico]
    omega
  refine ⟨⟨bs.map Blk.addr, hi.rep.head, hi.rep.tail, hi.rep.links, ?_, ?_, ?_⟩, hi.nodup, ?_, ?_⟩
  · refine pairwise_map.2 (hi.laid.order.imp fun hxy => ?_)
    unfold Blk.stop BLK_HDR at hxy
    omega
  · intro h0
    obtain ⟨b, hb, hb0⟩ := mem_map.1 h0
    exact hi.laid.pos hi.pos hb hb0
  · intro p hp
    obtain ⟨b, hb, rfl, hbo, hpl⟩ := hpay p hp
    rw [hbo, hpl]
    refine ⟨mem_map_of_mem hb, ?_⟩
    simp only [forall_mem_map]
    intro x hx
    rw [headerBytes, Set.disjoint_left]
    rintro i ⟨h1, h2⟩ ⟨h3, h4⟩
    have := hi.laid.outside hb hx h1 h2
    omega
  · intro p hp q hq hne
    obtain ⟨b, hb, rfl, -, hpl⟩ := hpay p hp
    obtain ⟨c, hc, rfl, -, hql⟩ := hpay q hq
    rw [hpl, hql]
    refine hdis ?_
    have := hi.laid.stop_le hb hc fun heq => hne (by rw [heq])
    omega
  · intro p hp r hr
    obtain ⟨b, hb, rfl, -, hpl⟩ := hpay p hp
    rw [hpl]
    refine hdis ?_
    rcases (hi.laid.clear r hr).2 b hb with h | h <;> omega

omit hi in
theorem Start.inv (h : Start s) : Inv s [] where
  rep := ⟨⟨h.head, trivial, fun _ hb => absurd hb not_mem_nil⟩, h.tail⟩
  laid := ⟨fun _ hb => absurd hb not_mem_nil, .nil, fun _ hb => absurd hb not_mem_nil,
    fun _ hr => absurd hr (h.regions ▸ not_mem_nil)⟩
  settled := .nil
  pos := h.pos
  le := h.brk.ge
  lt := h.brk.trans_lt h.lt
  regions _ hr := absurd hr (h.regions ▸ not_mem_nil)
  live := by rw [h.live]; exact .nil

theorem Inv.step {s' : Prog} {e : Event} (hf : Fair s e) (hs : Step s e s') : ∃ bs', Inv s' bs' := by
  obtain ⟨ha, h, he, rfl⟩ := hs
  obtain ⟨r, h', bs', he', hi'⟩ := hi.serve e.op e.grant ha (n := e.answer) hf
  rw [he] at he'
  cases he'
  exact ⟨bs', hi'⟩

end

/-- Along every program whose calls are fair, live blocks, headers and regions are kept
apart, and every fair call is answered. -/
theorem live_blocks_apart {s' : Prog} {es : List Event} (h0 : Start s) (hr : Run (Guarded Fair Step) s es s') :
    Kept s' ∧ ∀ op grant, op.Allowed s' → Fair s' ⟨op, grant, 0⟩ →
      ∃ r s'', Step s' ⟨op, grant, r⟩ s'' ∧ Kept s'' := by
  have hinv : ∃ bs, Inv s' bs :=
    Run.inv (fun s => ∃ bs, Inv s bs) (fun s e s' ⟨_, hi⟩ hf hs => hi.step hf hs) hr ⟨[], h0.inv⟩
  obtain ⟨bs, hi⟩ := hinv
  refine ⟨hi.kept, fun op grant ha hf => ?_⟩
  obtain ⟨r, h', bs', e, hi'⟩ := hi.serve op grant ha hf
  exact ⟨r, _, ⟨ha, h', e, rfl⟩, hi'.kept⟩

/-! ## A region between two blocks -/

namespace Sample

/-- The step of the event, if it can happen. -/
def step? (s : Prog) (e : Event) : Option Prog :=
  if e.op.Allowed s then
    (e.op.run e.grant s.heap).bind fun (r, h) => if r = e.answer then some (s.next r h e.op) else none
  else none

theorem step_of_step? (s : Prog) (e : Event) (s' : Prog) (h : step? s e = some s') : Step s e s' := by
  unfold step? at h
  split at h
  · rename_i ha
    obtain ⟨⟨r, g⟩, h1, h2⟩ := Option.bind_eq_some_iff.1 h
    dsimp only at h2
    split at h2
    · rename_i hr
      subst hr
      exact ⟨ha, g, h1, (Option.some.inj h2).symm⟩
    · cases h2
  · cases h

def empty : Prog := ⟨⟨Bytes.zero, 0, 0, 4096⟩, 4096, [], []⟩

theorem empty_start : Start empty := ⟨rfl, rfl, rfl, by decide, by decide, rfl, rfl⟩

/-- The program takes 16 bytes of its own between two blocks and frees the blocks. They
are merged to one block of 80 bytes, which the next `malloc` hands out. -/
def straddled : List Event :=
  [⟨.malloc 16, true, 4144⟩, ⟨.sbrk 16, true, 4160⟩, ⟨.malloc 16, true, 4224⟩, ⟨.free 4144, true, 0⟩,
    ⟨.free 4224, true, 0⟩, ⟨.malloc 80, true, 4144⟩]

/-- The block covers the program's own bytes. -/
theorem merged_over_region : Start empty ∧ ∃ s, Run Step empty straddled s ∧ 4144 ∈ s.live ∧ (4160, 16) ∈ s.regions ∧
    4160 ∈ s.heap.payload 4144 ∧ 4160 ∈ regionBytes (4160, 16) ∧ ¬Kept s := by
  have hs : ((exec step? empty straddled).map fun s => (s.live, s.regions, (s.heap.block 4096).size)) =
      some ([4144], [(4160, 16)], 80) := by decide
  obtain ⟨s, he, hf⟩ := Option.map_eq_some_iff.1 hs
  simp only [Prod.mk.injEq] at hf
  obtain ⟨hlive, hreg, hsize⟩ := hf
  have h1 : 4144 ∈ s.live := by rw [hlive]; exact mem_cons_self
  have h2 : (4160, 16) ∈ s.regions := by rw [hreg]; exact mem_cons_self
  have h3 : 4160 ∈ s.heap.payload 4144 := by
    rw [Heap.payload, show blockOf 4144 = 4096 from rfl, hsize]
    exact ⟨by decide, by decide⟩
  have h4 : 4160 ∈ regionBytes (4160, 16) := ⟨by decide, by decide⟩
  exact ⟨empty_start, s, run_of_exec step_of_step? he, h1, h2, h3, h4,
    fun hk => Set.disjoint_left.1 (hk.regions _ h1 _ h2) h3 h4⟩

/-- As `straddled`, but only the first block is freed, and handed out again. -/
def reused : List Event :=
  [⟨.malloc 16, true, 4144⟩, ⟨.sbrk 16, true, 4160⟩, ⟨.malloc 16, true, 4224⟩, ⟨.free 4144, true, 0⟩,
    ⟨.malloc 8, true, 4144⟩]

theorem reused_apart : Start empty ∧ ∃ s, Run (Guarded Fair Step) empty reused s ∧ s.live = [4144, 4224] ∧
    s.regions = [(4160, 16)] ∧ Kept s ∧
      ∀ op grant, op.Allowed s → Fair s ⟨op, grant, 0⟩ → ∃ r s'', Step s ⟨op, grant, r⟩ s'' ∧ Kept s'' := by
  have h : (exec (fun s e => if Fair s e then step? s e else none) empty reused).map (fun s => (s.live, s.regions)) =
      some ([4144, 4224], [(4160, 16)]) := by decide
  obtain ⟨s, hs, hl⟩ := Option.map_eq_some_iff.1 h
  have hr : Run (Guarded Fair Step) empty reused s := guarded_of_exec step_of_step? hs
  exact ⟨empty_start, s, hr, congrArg Prod.fst hl, congrArg Prod.snd hl, live_blocks_apart empty_start hr⟩

end Sample

end User
