import Loeux.Lib.Linked
import Loeux.Lib.Runs
import Loeux.Mm.Memory
/-!
# The chain of free pages

`alloc_page` and `free_page` of `mm/memory.c` on the array of page descriptors. A
descriptor is named by its place in the array; `init_memory` gives descriptor `i` the
address of the `i`-th page of the memory bank. What each function does under
`memory_lock` and the clearing of the page that follows are definitions of their own.
-/

namespace Pages

open Lib Mm Function List

def MEMORY_START : Nat := 0x80000000

def PG_FLAG_FREE : Nat := 0

def PG_FLAG_RESERVED : Nat := 1 <<< 0

def PG_FLAG_USED : Nat := 1 <<< 1

/-- `struct page`, apart from its address. -/
structure Page where
  refcount : Int
  flags : Nat
  slab : Nat
  prev : Option Nat
  next : Option Nat

def paddr (i : Nat) : Nat := MEMORY_START + PG_4K_SIZE * i

def PHY_TO_PAGE (phys : Nat) : Nat := (phys - MEMORY_START) / PG_4K_SIZE

/-- The descriptors, the ends of the chain, the pages between which the allocator works,
and the bytes of each page. -/
structure Pool where
  page : Nat → Page
  free_head : Option Nat
  free_tail : Option Nat
  first : Nat
  last : Nat
  mem : Nat → Bytes

namespace Pool

def free_start_at (s : Pool) : Nat := paddr s.first

def free_end_at (s : Pool) : Nat := paddr s.last

def setPage (s : Pool) (i : Nat) (p : Page) : Pool := { s with page := Function.update s.page i p }

@[simp] theorem setPage_page (s : Pool) (i j : Nat) (p : Page) :
    (s.setPage i p).page j = if j = i then p else s.page j := update_apply ..

/-- `memset(pg->paddr, 0, PG_4K_SIZE)`. -/
def clear (s : Pool) (i : Nat) : Pool := { s with mem := Function.update s.mem i Bytes.zero }

/-- What `alloc_page` does under the lock: the page at the head is taken off. -/
def takeHead (s : Pool) : Option Nat × Pool :=
  match s.free_head with
  | none => (none, s)
  | some i =>
    let pg := s.page i
    (some i, { s.setPage i { pg with
        next := none
        prev := none
        flags := PG_FLAG_USED
        refcount := pg.refcount + 1
        slab := 0 } with
      free_head := pg.next
      free_tail := if pg.next = none then none else s.free_tail })

/-- The page returned to the end of the chain. -/
def linkTail (s : Pool) (i : Nat) : Pool :=
  let s := s.setPage i { s.page i with flags := PG_FLAG_FREE, next := none, prev := s.free_tail }
  match s.free_tail with
  | some z => { s.setPage z { s.page z with next := some i } with free_tail := some i }
  | none => { s with free_head := some i, free_tail := some i }

/-- What `free_page` does under the lock, and whether the page goes back to the chain. -/
def putBack (s : Pool) (i : Nat) : Except Halt (Bool × Pool) :=
  if (s.page i).flags &&& PG_FLAG_RESERVED ≠ 0 then .error (.panic "free_page: freeing reserved page %p!\n")
  else if (s.page i).flags &&& PG_FLAG_USED = 0 then .error (.panic "free_page: double free %p!\n")
  else
    let refcount := if (s.page i).refcount > 0 then (s.page i).refcount - 1 else (s.page i).refcount
    let s := s.setPage i { s.page i with refcount := refcount }
    if refcount > 0 then .ok (false, s) else .ok (true, s.linkTail i)

def allocPage (s : Pool) : Nat × Pool :=
  match s.takeHead with
  | (none, s) => (0, s)
  | (some i, s) => (paddr i, s.clear i)

def freePage (s : Pool) (pa : Nat) : Except Halt (Bool × Pool) :=
  if pa = 0 then .error (.panic "free_page: NULL pointer!\n")
  else if pa % PG_4K_SIZE ≠ 0 ∨ pa < s.free_start_at ∨ s.free_end_at < pa then
    .error (.panic "free_page: bad address %p!\n")
  else (s.putBack (PHY_TO_PAGE pa)).map fun (freed, s) => (freed, if freed then s.clear (PHY_TO_PAGE pa) else s)

/-! ## The chain -/

/-- The pages that the allocator works with. -/
def Managed (s : Pool) (i : Nat) : Prop := s.first ≤ i ∧ i ≤ s.last

/-- A page that is neither reserved nor in use. -/
def Free (s : Pool) (i : Nat) : Prop :=
  s.Managed i ∧ (s.page i).flags &&& PG_FLAG_RESERVED = 0 ∧ (s.page i).flags &&& PG_FLAG_USED = 0

def Allocated (s : Pool) (i : Nat) : Prop :=
  s.Managed i ∧ (s.page i).flags &&& PG_FLAG_RESERVED = 0 ∧ (s.page i).flags &&& PG_FLAG_USED ≠ 0

/-- The chain from `free_head` visits the free pages, each once, and ends at `free_tail`. -/
structure Chain (s : Pool) (l : List Nat) : Prop where
  seg : Seg (fun i => (s.page i).next) s.free_head l none
  tail : s.free_tail = l.getLast?
  nodup : l.Nodup
  exact : ∀ i, i ∈ l ↔ s.Free i

section

variable {s s' : Pool} {l : List Nat} {i j : Nat}

theorem Chain.congr (h : s.Chain l) (hp : ∀ i, (s'.page i).next = (s.page i).next ∧ (s'.page i).flags = (s.page i).flags)
    (he : s'.free_head = s.free_head ∧ s'.free_tail = s.free_tail) (hr : s'.first = s.first ∧ s'.last = s.last) :
    s'.Chain l := by
  refine ⟨?_, he.2.trans h.tail, h.nodup, fun i => ?_⟩
  · rw [he.1]
    exact h.seg.congr fun i _ => (hp i).1
  · rw [h.exact i, Free, Free, Managed, Managed, (hp i).2, hr.1, hr.2]

theorem Chain.clear (h : s.Chain l) : (s.clear i).Chain l := h.congr (fun _ => ⟨rfl, rfl⟩) ⟨rfl, rfl⟩ ⟨rfl, rfl⟩

theorem not_free_of_allocated (h : s.Allocated i) : ¬s.Free i := fun hf => h.2.2 hf.2.2

theorem Allocated.congr (h : s.Allocated i) (hf : (s'.page i).flags = (s.page i).flags)
    (hr : s'.first = s.first ∧ s'.last = s.last) : s'.Allocated i := by
  rw [Allocated, Managed, hf, hr.1, hr.2]
  exact h

theorem Chain.takeHead_nil (h : s.Chain []) : s.takeHead = (none, s) := by
  rw [takeHead, show s.free_head = none from h.seg]

theorem Chain.takeHead_cons (h : s.Chain (i :: l)) :
    ∃ s', s.takeHead = (some i, s') ∧ s'.Chain l ∧ s'.mem = s.mem ∧ s'.Allocated i ∧
      (∀ j, j ≠ i → s'.page j = s.page j) ∧ (s'.page i).refcount = (s.page i).refcount + 1 ∧
      s'.first = s.first ∧ s'.last = s.last := by
  obtain ⟨hhead, hseg⟩ := h.seg
  obtain ⟨hi, hl⟩ := nodup_cons.1 h.nodup
  rw [takeHead, hhead]
  have hother : ∀ (p : Page) j, j ≠ i → update s.page i p j = s.page j := fun p j hj => update_of_ne hj ..
  refine ⟨_, rfl, ⟨?_, ?_, hl, fun j => ?_⟩, rfl, ?_, hother _, ?_, rfl, rfl⟩
  · refine hseg.congr fun j hj => ?_
    have hji : j ≠ i := fun e => hi (e ▸ hj)
    exact congrArg Page.next (hother _ j hji)
  · show (if (s.page i).next = none then none else s.free_tail) = _
    cases l with
    | nil => rw [if_pos (show (s.page i).next = none from hseg)]; rfl
    | cons j l =>
      have hne : (s.page i).next ≠ none := by
        rw [show (s.page i).next = some j from hseg.1]
        exact Option.some_ne_none j
      rw [if_neg hne, h.tail, getLast?_cons_cons]
  · by_cases e : j = i
    · subst e
      refine ⟨fun hm => (hi hm).elim, fun hf => ?_⟩
      have := hf.2.2
      simp only [setPage, update_self] at this
      exact absurd this (by decide)
    · have hiff := h.exact j
      rw [mem_cons, or_iff_right e] at hiff
      rw [hiff, Free, Free, Managed, Managed]
      simp only [setPage, hother _ j e]
  · have hm := ((h.exact i).1 mem_cons_self).1
    refine ⟨hm, ?_, ?_⟩
    · simp only [setPage, update_self]
      decide
    · simp only [setPage, update_self]
      decide
  · simp only [setPage, update_self]

theorem linkTail_flags : ((s.linkTail i).page j).flags = if j = i then PG_FLAG_FREE else (s.page j).flags := by
  unfold Pool.linkTail setPage
  cases s.free_tail with
  | none => simp only [update_apply]; split <;> rfl
  | some z =>
    simp only [update_apply]
    by_cases hz : j = z
    · subst hz
      rw [if_pos rfl]
      split <;> rfl
    · rw [if_neg hz]
      split <;> rfl

theorem linkTail_refcount : ((s.linkTail i).page j).refcount = (s.page j).refcount := by
  unfold Pool.linkTail setPage
  cases s.free_tail with
  | none =>
    simp only [update_apply]
    split
    · next e => rw [e]
    · rfl
  | some z =>
    simp only [update_apply]
    split
    · next e =>
      subst e
      split
      · next e => rw [e]
      · rfl
    · split
      · next e => rw [e]
      · rfl

theorem linkTail_next (hi : s.free_tail ≠ some i) : ((s.linkTail i).page j).next =
      if s.free_tail = some j then some i else if j = i then none else (s.page j).next := by
  unfold Pool.linkTail setPage
  cases ht : s.free_tail with
  | none => simp only [update_apply, reduceCtorEq, if_false]; split <;> rfl
  | some z =>
    simp only [update_apply, Option.some.injEq]
    by_cases hz : j = z
    · rw [if_pos hz, if_pos hz.symm]
    · rw [if_neg hz, if_neg (Ne.symm hz)]
      split <;> rfl

theorem linkTail_ends : (s.linkTail i).free_tail = some i ∧
    (s.linkTail i).free_head = (if s.free_tail = none then some i else s.free_head) ∧
    (s.linkTail i).first = s.first ∧ (s.linkTail i).last = s.last ∧ (s.linkTail i).mem = s.mem := by
  unfold Pool.linkTail setPage
  cases s.free_tail <;> exact ⟨rfl, rfl, rfl, rfl, rfl⟩

theorem Chain.linkTail (h : s.Chain l) (hi : s.Managed i) (hl : i ∉ l) : (s.linkTail i).Chain (l ++ [i]) := by
  obtain ⟨htail, hhead, h1, h2, -⟩ := @linkTail_ends s i
  have hne : s.free_tail ≠ some i := fun e => hl (mem_of_getLast? (h.tail ▸ e))
  have hnext : ∀ j, ((s.linkTail i).page j).next =
      if s.free_tail = some j then some i else if j = i then none else (s.page j).next := fun j => linkTail_next hne
  refine ⟨?_, ?_, ?_, fun j => ?_⟩
  · rw [hhead]
    refine Seg.snoc (x := i) ?_ (by rw [hnext, if_neg hne, if_pos rfl])
    rcases eq_nil_or_concat l with rfl | ⟨l, z, rfl⟩
    · rw [if_pos (show s.free_tail = none from h.tail)]
      rfl
    · rw [concat_eq_append] at h hl ⊢
      have ht : s.free_tail = some z := h.tail.trans getLast?_concat
      rw [if_neg (by rw [ht]; exact Option.some_ne_none z)]
      have hseg := @Seg.redirect _ _ (fun j => ((s.linkTail i).page j).next) _ _ _ _ h.seg fun j hj => ?_
      · rwa [hnext, if_pos ht] at hseg
      · -- a page before the last one keeps its pointer
        have hjz : s.free_tail ≠ some j := fun e => by
          rw [ht] at e
          cases e
          exact (nodup_append.1 h.nodup).2.2 z hj z (mem_singleton_self z) rfl
        have hji : j ≠ i := fun e => hl (e ▸ mem_append_left _ hj)
        rw [hnext, if_neg hjz, if_neg hji]
  · rw [htail, getLast?_concat]
  · refine nodup_append.2 ⟨h.nodup, nodup_singleton i, fun a ha b hb => ?_⟩
    rw [mem_singleton.1 hb]
    exact fun e => hl (e ▸ ha)
  · rw [mem_append, mem_singleton, h.exact j, Free, Free, Managed, Managed, h1, h2, linkTail_flags]
    by_cases e : j = i
    · subst e
      rw [if_pos rfl]
      exact ⟨fun _ => ⟨hi, by decide, by decide⟩, fun _ => .inr rfl⟩
    · rw [if_neg e, or_iff_left e]

theorem Chain.putBack (h : s.Chain l) (hi : s.Allocated i) :
    ∃ b s', s.putBack i = .ok (b, s') ∧ s'.Chain (if b then l ++ [i] else l) ∧ s'.mem = s.mem ∧
      (b = false → s'.Allocated i) ∧ (∀ j, j ≠ i → (s'.page j).flags = (s.page j).flags) ∧
      s'.first = s.first ∧ s'.last = s.last := by
  have hl : i ∉ l := fun hm => not_free_of_allocated hi ((h.exact i).1 hm)
  unfold Pool.putBack
  rw [if_neg (not_not.2 hi.2.1), if_neg hi.2.2]
  generalize (if (s.page i).refcount > 0 then (s.page i).refcount - 1 else (s.page i).refcount) = r
  -- the count alone changes nothing in the chain
  have hsame : ∀ j, ((s.setPage i { s.page i with refcount := r }).page j).next = (s.page j).next ∧
      ((s.setPage i { s.page i with refcount := r }).page j).flags = (s.page j).flags := fun j => by
    rw [setPage_page]
    split
    · next e => exact e ▸ ⟨rfl, rfl⟩
    · exact ⟨rfl, rfl⟩
  have hc : (s.setPage i { s.page i with refcount := r }).Chain l := h.congr hsame ⟨rfl, rfl⟩ ⟨rfl, rfl⟩
  by_cases hr : r > 0
  · refine ⟨false, _, if_pos hr, hc, rfl, fun _ => ?_, fun j _ => (hsame j).2, rfl, rfl⟩
    rw [Allocated, (hsame i).2]
    exact hi
  · obtain ⟨-, -, h1, h2, h3⟩ := @linkTail_ends (s.setPage i { s.page i with refcount := r }) i
    refine ⟨true, _, if_neg hr, hc.linkTail hi.1 hl, h3, fun hb => Bool.noConfusion hb, fun j hj => ?_, h1, h2⟩
    rw [linkTail_flags, if_neg hj, (hsame j).2]

/-- The count after one reference is given up. -/
def dropped (refs : Int) : Int := if refs > 0 then refs - 1 else refs

theorem putBack_refcount {b : Bool} (hi : s.Allocated i) (h : s.putBack i = .ok (b, s')) :
    b = decide (dropped (s.page i).refcount ≤ 0) ∧
      ∀ j, (s'.page j).refcount = if j = i then dropped (s.page i).refcount else (s.page j).refcount := by
  unfold Pool.putBack at h
  rw [if_neg (not_not.2 hi.2.1), if_neg hi.2.2] at h
  change (if dropped (s.page i).refcount > 0 then _ else _) = _ at h
  have hset : ∀ j, ((s.setPage i { s.page i with refcount := dropped (s.page i).refcount }).page j).refcount =
      if j = i then dropped (s.page i).refcount else (s.page j).refcount := fun j => by
    rw [setPage_page]
    split <;> rfl
  by_cases hpos : dropped (s.page i).refcount > 0
  · rw [if_pos hpos] at h
    cases h
    exact ⟨(decide_eq_false (not_le.2 hpos)).symm, hset⟩
  · rw [if_neg hpos] at h
    cases h
    exact ⟨(decide_eq_true (not_lt.1 hpos)).symm, fun j => linkTail_refcount.trans (hset j)⟩

end

/-! ## Addresses -/

section

variable {s s' : Pool} {l : List Nat} {i j : Nat}

theorem paddr_ne_zero (i : Nat) : paddr i ≠ 0 := by
  unfold paddr MEMORY_START
  omega

theorem paddr_aligned (i : Nat) : paddr i % PG_4K_SIZE = 0 := by
  unfold paddr MEMORY_START PG_4K_SIZE
  omega

theorem paddr_inj (h : paddr i = paddr j) : i = j := by
  unfold paddr PG_4K_SIZE at h
  omega

theorem PHY_TO_PAGE_paddr (i : Nat) : PHY_TO_PAGE (paddr i) = i := by
  unfold PHY_TO_PAGE paddr
  rw [Nat.add_sub_cancel_left, Nat.mul_div_cancel_left _ (by decide)]

theorem paddr_le (h : i ≤ j) : paddr i ≤ paddr j := Nat.add_le_add_left (Nat.mul_le_mul_left _ h) _

theorem Allocated.freePage (h : s.Allocated i) : s.freePage (paddr i) =
    (s.putBack i).map fun (freed, s) => (freed, if freed then s.clear i else s) := by
  have h1 := paddr_le h.1.1
  have h2 := paddr_le h.1.2
  have h3 := paddr_aligned i
  unfold Pool.freePage free_start_at free_end_at
  rw [if_neg (paddr_ne_zero i), if_neg (by omega), PHY_TO_PAGE_paddr]

end

/-! ## Calls -/

/-- A call of `alloc_page` with its result, or of `free_page`: the page goes back to the
chain, or other references keep it. -/
inductive Event
  | alloc (r : Nat)
  | freed (pa : Nat)
  | kept (pa : Nat)

/-- Calls of the allocator, `free_page` on pages in use only. -/
def Step (s : Pool) (e : Event) (s' : Pool) : Prop :=
  match e with
  | .alloc r => s.allocPage = (r, s')
  | .freed pa => ∃ i, pa = paddr i ∧ s.Allocated i ∧ s.freePage pa = .ok (true, s')
  | .kept pa => ∃ i, pa = paddr i ∧ s.Allocated i ∧ s.freePage pa = .ok (false, s')

/-- What a call does to the chain: pages leave it at the head and join it at the end. -/
def Moves (l : List Nat) (e : Event) (l' : List Nat) : Prop :=
  match e with
  | .alloc r => r = 0 ∧ l = [] ∧ l' = [] ∨ ∃ i, r = paddr i ∧ l = i :: l'
  | .freed pa => ∃ i, pa = paddr i ∧ i ∉ l ∧ l' = l ++ [i]
  | .kept _ => l' = l

section

variable {s s' : Pool} {l l' : List Nat} {e : Event} {i p q : Nat}

theorem Chain.step (h : s.Chain l) (hs : s.Step e s') : ∃ l', Moves l e l' ∧ s'.Chain l' := by
  cases e with
  | alloc r =>
    simp only [Step, allocPage] at hs
    cases l with
    | nil =>
      rw [h.takeHead_nil] at hs
      cases hs
      exact ⟨[], .inl ⟨rfl, rfl, rfl⟩, h⟩
    | cons i l =>
      obtain ⟨s1, ht, hc, -⟩ := h.takeHead_cons
      rw [ht] at hs
      cases hs
      exact ⟨l, .inr ⟨i, rfl, rfl⟩, hc.clear⟩
  | freed pa =>
    obtain ⟨i, rfl, hi, hf⟩ := hs
    obtain ⟨b, s1, hp, hc, -⟩ := h.putBack hi
    rw [hi.freePage, hp] at hf
    cases hf
    exact ⟨l ++ [i], ⟨i, rfl, fun hm => not_free_of_allocated hi ((h.exact i).1 hm), rfl⟩, hc.clear⟩
  | kept pa =>
    obtain ⟨i, rfl, hi, hf⟩ := hs
    obtain ⟨b, s1, hp, hc, -⟩ := h.putBack hi
    rw [hi.freePage, hp] at hf
    cases hf
    exact ⟨l, rfl, hc⟩

theorem Moves.nodup (h : Moves l e l') (hl : l.Nodup) : l'.Nodup := by
  cases e with
  | alloc r =>
    rcases h with ⟨-, -, rfl⟩ | ⟨i, -, rfl⟩
    · exact .nil
    · exact (nodup_cons.1 hl).2
  | freed pa =>
    obtain ⟨i, -, hi, rfl⟩ := h
    refine nodup_append.2 ⟨hl, nodup_singleton i, fun a ha b hb => ?_⟩
    rw [mem_singleton.1 hb]
    exact fun e => hi (e ▸ ha)
  | kept pa => exact h ▸ hl

theorem Moves.mem (h : Moves l e l') (hp : p ∈ l) (he : e ≠ .alloc (paddr p)) : p ∈ l' := by
  cases e with
  | alloc r =>
    rcases h with ⟨-, rfl, -⟩ | ⟨i, rfl, rfl⟩
    · cases hp
    · rcases mem_cons.1 hp with rfl | hp
      · exact (he rfl).elim
      · exact hp
  | freed pa =>
    obtain ⟨i, -, -, rfl⟩ := h
    exact mem_append_left _ hp
  | kept pa => exact h ▸ hp

/-- `q` stands behind `p`. -/
def Behind (l : List Nat) (p q : Nat) : Prop := ∃ l₁ l₂, l = l₁ ++ p :: l₂ ∧ q ∈ l₂

theorem Moves.behind (h : Moves l e l') (hb : Behind l p q) (hl : l.Nodup) (he : e ≠ .alloc (paddr p)) :
    Behind l' p q ∧ e ≠ .alloc (paddr q) := by
  obtain ⟨l1, l2, rfl, hq⟩ := hb
  cases e with
  | alloc r =>
    rcases h with ⟨-, hnil, -⟩ | ⟨i, rfl, hi⟩
    · cases l1 <;> cases hnil
    · cases l1 with
      | nil =>
        cases hi
        exact (he rfl).elim
      | cons j l1 =>
        cases hi
        refine ⟨⟨l1, l2, rfl, hq⟩, fun hc => ?_⟩
        have hiq := paddr_inj (Event.alloc.inj hc)
        subst hiq
        exact (nodup_cons.1 hl).1 (mem_append_right _ (mem_cons_of_mem _ hq))
  | freed pa =>
    obtain ⟨i, -, -, rfl⟩ := h
    refine ⟨⟨l1, l2 ++ [i], by simp, mem_append_left _ hq⟩, fun hc => by cases hc⟩
  | kept pa =>
    obtain rfl : l' = _ := h
    exact ⟨⟨l1, l2, rfl, hq⟩, fun hc => by cases hc⟩

variable {es : List Event}

theorem moves_nodup (h : Run Moves l es l') (hl : l.Nodup) : l'.Nodup := by
  induction h with
  | nil => exact hl
  | cons h _ ih => exact ih (h.nodup hl)

theorem moves_mem (h : Run Moves l es l') (hp : p ∈ l) (he : .alloc (paddr p) ∉ es) : p ∈ l' := by
  induction h with
  | nil => exact hp
  | cons h _ ih =>
    rw [mem_cons, not_or] at he
    exact ih (h.mem hp (Ne.symm he.1)) he.2

theorem moves_behind (h : Run Moves l es l') (hb : Behind l p q) (hl : l.Nodup)
    (he : .alloc (paddr p) ∉ es) : Behind l' p q := by
  induction h with
  | nil => exact hb
  | cons h _ ih =>
    rw [mem_cons, not_or] at he
    exact ih (h.behind hb hl (Ne.symm he.1)).1 (h.nodup hl) he.2

theorem moves_fifo {a b c d : List Event} {pa qa : Nat}
    (h : Run Moves l (a ++ .freed pa :: (b ++ .freed qa :: (c ++ .alloc qa :: d))) l') (hl : l.Nodup) :
    .alloc pa ∈ b ++ c := by
  by_contra hc
  rw [mem_append, not_or] at hc
  obtain ⟨l1, ha, h⟩ := run_append.1 h
  have hn1 := moves_nodup ha hl
  cases h with
  | cons h1 h =>
    have hn2 := h1.nodup hn1
    obtain ⟨p, rfl, -, rfl⟩ := h1
    obtain ⟨l2, hb, h⟩ := run_append.1 h
    have hp := moves_mem hb (mem_append_right _ (mem_singleton_self p)) hc.1
    have hn3 := moves_nodup hb hn2
    cases h with
    | cons h2 h =>
      have hn4 := h2.nodup hn3
      obtain ⟨q, rfl, hq, rfl⟩ := h2
      obtain ⟨l3, hc', h⟩ := run_append.1 h
      have hbeh : Behind (l2 ++ [q]) p q := by
        obtain ⟨x, y, rfl⟩ := append_of_mem hp
        exact ⟨x, y ++ [q], by simp, by simp⟩
      have hbeh' := moves_behind hc' hbeh hn4 hc.2
      cases h with
      | cons h3 _ =>
        refine (h3.behind hbeh' (moves_nodup hc' hn4) fun e => ?_).2 rfl
        -- the page freed last is not the one that is still in the chain
        rw [paddr_inj (Event.alloc.inj e)] at hq
        exact hq hp

/-! ## The calls by themselves -/

/-- A page that the allocator may hand out. -/
def Usable (s : Pool) (i : Nat) : Prop := s.Managed i ∧ (s.page i).flags &&& PG_FLAG_RESERVED = 0

/-- The addresses that are out, and how many references there are to each. -/
structure Ledger where
  out : Nat → Prop
  refs : Nat → Int

namespace Ledger

def start (s : Pool) : Ledger where
  out pa := ∃ i, pa = paddr i ∧ s.Allocated i
  refs pa := (s.page (PHY_TO_PAGE pa)).refcount

/-- The books are kept by what the callers asked for and got, not by the descriptors. -/
def book (L : Ledger) : Event → Ledger
  | .alloc r =>
    if r = 0 then L else { out := fun pa => pa = r ∨ L.out pa, refs := Function.update L.refs r (L.refs r + 1) }
  | .freed pa =>
    { out := fun x => x ≠ pa ∧ L.out x, refs := Function.update L.refs pa (dropped (L.refs pa)) }
  | .kept pa => { L with refs := Function.update L.refs pa (dropped (L.refs pa)) }

end Ledger

def ledger (s : Pool) (es : List Event) : Ledger := es.foldl Ledger.book (.start s)

/-- The descriptors say what the books say. -/
structure Booked (s₀ : Pool) (L : Ledger) (s : Pool) : Prop where
  out : ∀ i, s.Allocated i ↔ L.out (paddr i)
  refs : ∀ i, (s.page i).refcount = L.refs (paddr i)
  usable : ∀ i, s.Usable i ↔ s₀.Usable i

section

variable {s₀ : Pool} {L : Ledger}

theorem booked_start : Booked s₀ (.start s₀) s₀ where
  out i := by
    constructor
    · exact fun h => ⟨i, rfl, h⟩
    · rintro ⟨j, e, h⟩
      rwa [paddr_inj e]
  refs i := by
    show _ = (s₀.page (PHY_TO_PAGE (paddr i))).refcount
    rw [PHY_TO_PAGE_paddr]
  usable _ := Iff.rfl

theorem free_iff_usable : s.Free i ↔ s.Usable i ∧ ¬s.Allocated i := by
  unfold Free Allocated Usable
  tauto

theorem Booked.free_iff (h : Booked s₀ L s) : s.Free i ↔ s₀.Usable i ∧ ¬L.out (paddr i) := by
  rw [free_iff_usable, h.usable, h.out]

theorem usable_of_allocated (h : s.Allocated i) : s.Usable i := ⟨h.1, h.2.1⟩

/-- A call that changes nothing but the page `i` and the chain. -/
theorem Booked.step (h : Booked s₀ L s) {L' : Ledger} (hr : s'.first = s.first ∧ s'.last = s.last)
    (hflags : ∀ j, j ≠ i → (s'.page j).flags = (s.page j).flags) (hu : s.Usable i) (hu' : s'.Usable i)
    (hout : s'.Allocated i ↔ L'.out (paddr i)) (hother : ∀ j, j ≠ i → (L'.out (paddr j) ↔ L.out (paddr j)))
    (hrefs : ∀ j, (s'.page j).refcount = L'.refs (paddr j)) : Booked s₀ L' s' := by
  refine ⟨fun j => ?_, hrefs, fun j => ?_⟩
  · by_cases e : j = i
    · rw [e]
      exact hout
    · rw [hother j e, ← h.out, Allocated, Allocated, Managed, Managed, hflags j e, hr.1, hr.2]
  · rw [← h.usable]
    by_cases e : j = i
    · rw [e]
      exact iff_of_true hu' hu
    · rw [Usable, Usable, Managed, Managed, hflags j e, hr.1, hr.2]

theorem update_refs {refs : Nat → Int} {r : Int} {j : Nat} :
    Function.update refs (paddr i) r (paddr j) = if j = i then r else refs (paddr j) := by
  rw [update_apply]
  by_cases e : j = i
  · rw [if_pos e, if_pos (congrArg paddr e)]
  · rw [if_neg e, if_neg fun h => e (paddr_inj h)]

theorem Booked.alloc (h : Booked s₀ L s) (hc : s.Chain (i :: l)) {s1 : Pool} (ht : s.takeHead = (some i, s1)) :
    Booked s₀ (L.book (.alloc (paddr i))) (s1.clear i) := by
  obtain ⟨s2, ht', -, -, hal, hpage, hrefs, hr⟩ := hc.takeHead_cons
  rw [ht'] at ht
  cases ht
  rw [Ledger.book, if_neg (paddr_ne_zero i)]
  refine h.step hr (fun j hj => congrArg Page.flags (hpage j hj)) (free_iff_usable.1 ((hc.exact i).1 mem_cons_self)).1
    (usable_of_allocated hal) (iff_of_true hal (.inl rfl)) (fun j hj => ?_) fun j => ?_
  · exact or_iff_right fun e => hj (paddr_inj e)
  · dsimp only
    rw [update_refs]
    by_cases e : j = i
    · rw [if_pos e, e, ← h.refs]
      exact hrefs
    · rw [if_neg e, ← h.refs]
      exact congrArg Page.refcount (hpage j e)

/-- `free_page` gives the page back exactly with the last reference. -/
theorem Booked.free (h : Booked s₀ L s) (hc : s.Chain l) (hi : s.Allocated i) : ∃ s',
    s.freePage (paddr i) = .ok (decide (dropped (L.refs (paddr i)) ≤ 0), s') ∧
      Booked s₀ (L.book (if dropped (L.refs (paddr i)) ≤ 0 then .freed (paddr i) else .kept (paddr i))) s' := by
  obtain ⟨b, s1, hp, hc1, -, hkept, hflags, hr⟩ := hc.putBack hi
  obtain ⟨hb, hrefs⟩ := putBack_refcount hi hp
  rw [h.refs] at hb
  subst hb
  have hrefs' : ∀ j, (s1.page j).refcount =
      Function.update L.refs (paddr i) (dropped (L.refs (paddr i))) (paddr j) := fun j => by
    rw [update_refs, hrefs, h.refs, h.refs]
  rw [hi.freePage, hp]
  refine ⟨_, rfl, ?_⟩
  by_cases hlast : dropped (L.refs (paddr i)) ≤ 0
  · simp only [decide_eq_true hlast, if_true] at hc1 ⊢
    rw [if_pos hlast]
    have hf := free_iff_usable.1 ((hc1.exact i).1 (mem_append_right _ (mem_singleton_self i)))
    refine h.step hr hflags (usable_of_allocated hi) hf.1 (iff_of_false hf.2 fun e => e.1 rfl) (fun j hj => ?_) hrefs'
    exact and_iff_right fun e => hj (paddr_inj e)
  · simp only [decide_eq_false hlast] at hc1 hkept ⊢
    rw [if_neg hlast]
    have hal := hkept trivial
    exact h.step hr hflags (usable_of_allocated hi) (usable_of_allocated hal) (iff_of_true hal ((h.out i).1 hi))
      (fun _ _ => Iff.rfl) hrefs'

theorem Booked.next (h : Booked s₀ L s) (hc : s.Chain l) (hs : s.Step e s') : Booked s₀ (L.book e) s' := by
  cases e with
  | alloc r =>
    simp only [Step, allocPage] at hs
    cases l with
    | nil =>
      rw [hc.takeHead_nil] at hs
      cases hs
      exact h
    | cons i l =>
      obtain ⟨s1, ht, -⟩ := hc.takeHead_cons
      rw [ht] at hs
      cases hs
      exact h.alloc hc ht
  | freed pa =>
    obtain ⟨i, rfl, hi, hf⟩ := hs
    obtain ⟨s1, hf', hb⟩ := h.free hc hi
    rw [hf'] at hf
    obtain ⟨hlast, rfl⟩ := Prod.mk.inj (Except.ok.inj hf)
    rwa [if_pos (of_decide_eq_true hlast)] at hb
  | kept pa =>
    obtain ⟨i, rfl, hi, hf⟩ := hs
    obtain ⟨s1, hf', hb⟩ := h.free hc hi
    rw [hf'] at hf
    obtain ⟨hlast, rfl⟩ := Prod.mk.inj (Except.ok.inj hf)
    rwa [if_neg (of_decide_eq_false hlast)] at hb

theorem booked_run (hc : s.Chain l) (h : Booked s₀ L s) (hr : Run Step s es s') : Booked s₀ (es.foldl Ledger.book L) s' := by
  induction hr generalizing L l with
  | nil => exact h
  | cons hs _ ih =>
    obtain ⟨l', -, hc'⟩ := hc.step hs
    exact ih hc' (h.next hc hs)

/-- The chain property holds after every sequence of calls, and the pages in use are those that
were in use at first or have been handed out, and have not been given back. Then `alloc_page`
fails exactly if all usable pages are out, and a page that it returns is aligned, zeroed, not
reserved and not out; `free_page` on a page that is out returns, and gives it back exactly with
its last reference. Pages are handed out in the order in which they were freed. -/
theorem page_allocator {l₀ : List Nat} (h₀ : s₀.Chain l₀) (hr : Run Step s₀ es s) :
    (∃ l, s.Chain l) ∧
      (∀ i, (s.Allocated i ↔ (ledger s₀ es).out (paddr i)) ∧
        (s.Free i ↔ s₀.Usable i ∧ ¬(ledger s₀ es).out (paddr i))) ∧
      (∀ r s', s.allocPage = (r, s') → (r = 0 ↔ ∀ i, s₀.Usable i → (ledger s₀ es).out (paddr i)) ∧
        (r ≠ 0 → r % PG_4K_SIZE = 0 ∧ ¬(ledger s₀ es).out r ∧ ∃ i, r = paddr i ∧ s₀.Usable i ∧ s'.mem i = Bytes.zero)) ∧
      (∀ i, (ledger s₀ es).out (paddr i) →
        ∃ s', s.freePage (paddr i) = .ok (decide (dropped ((ledger s₀ es).refs (paddr i)) ≤ 0), s')) ∧
      ∀ a b c d pa qa, es = a ++ .freed pa :: (b ++ .freed qa :: (c ++ .alloc qa :: d)) → .alloc pa ∈ b ++ c := by
  obtain ⟨l, hm, h⟩ := hr.refine (fun s l => s.Chain l) (fun s l e s' h hs => h.step hs) h₀
  have hb : Booked s₀ (ledger s₀ es) s := booked_run h₀ booked_start hr
  refine ⟨⟨l, h⟩, fun i => ⟨hb.out i, hb.free_iff⟩, fun r s' ha => ?_, fun i hi => ?_, fun a b c d pa qa he => ?_⟩
  · unfold allocPage at ha
    cases l with
    | nil =>
      rw [h.takeHead_nil] at ha
      cases ha
      refine ⟨iff_of_true rfl fun i hu => ?_, fun hc => (hc rfl).elim⟩
      by_contra hout
      exact not_mem_nil ((h.exact i).2 (hb.free_iff.2 ⟨hu, hout⟩))
    | cons i l =>
      obtain ⟨hu, hout⟩ := hb.free_iff.1 ((h.exact i).1 mem_cons_self)
      obtain ⟨s1, ht, -⟩ := h.takeHead_cons
      rw [ht] at ha
      cases ha
      exact ⟨iff_of_false (paddr_ne_zero i) fun hn => hout (hn i hu),
        fun _ => ⟨paddr_aligned i, hout, i, rfl, hu, update_self ..⟩⟩
  · obtain ⟨s1, hf, -⟩ := hb.free h ((hb.out i).2 hi)
    exact ⟨s1, hf⟩
  · subst he
    exact moves_fifo hm h₀.nodup

end

end

/-! ## Two pages -/

namespace Sample

def two : Pool where
  page := fun i => ⟨0, PG_FLAG_FREE, 0, if i = 2 then some 1 else none, if i = 1 then some 2 else none⟩
  free_head := some 1
  free_tail := some 2
  first := 1
  last := 2
  mem := fun _ _ => 7

theorem two_chain : two.Chain [1, 2] := by
  refine ⟨⟨rfl, rfl, rfl⟩, rfl, by decide, fun i => ?_⟩
  simp only [mem_cons, not_mem_nil, or_false]
  constructor
  · rintro (rfl | rfl)
    · exact ⟨⟨by decide, by decide⟩, rfl, rfl⟩
    · exact ⟨⟨by decide, by decide⟩, rfl, rfl⟩
  · rintro ⟨⟨h1, h2⟩, -⟩
    have h1 : 1 ≤ i := h1
    have h2 : i ≤ 2 := h2
    omega

/-- One of them is allocated and given back; the next call hands out the other one. -/
def calls : List Event := [.alloc (paddr 1), .freed (paddr 1), .alloc (paddr 2)]

theorem calls_run : ∃ s, Run Step two calls s := by
  have h1 : Step two (.alloc (paddr 1)) two.allocPage.2 := rfl
  have hal : two.allocPage.2.Allocated 1 := ⟨⟨by decide, by decide⟩, by decide, by decide⟩
  obtain ⟨s, hf, ha⟩ : ∃ s, two.allocPage.2.freePage (paddr 1) = .ok (true, s) ∧ s.allocPage.1 = paddr 2 := ⟨_, rfl, rfl⟩
  exact ⟨_, .cons h1 (.cons ⟨1, rfl, hal, hf⟩ (.one (Prod.ext ha rfl)))⟩

theorem two_allocated : ∃ s, Run Step two calls s ∧ s.Allocated 2 ∧ s.Free 1 := by
  obtain ⟨s, hr⟩ := calls_run
  have h := (page_allocator two_chain hr).2.1
  refine ⟨s, hr, (h 2).1.2 (.inl rfl), (h 1).2.2 ⟨⟨⟨by decide, by decide⟩, by decide⟩, ?_⟩⟩
  rintro (e | ⟨e, -⟩)
  · exact absurd e (by decide)
  · exact e rfl

end Sample

end Pool

end Pages
