import Loeux.Mm.Tables
/-!
# Mapping and unmapping

What `mappages` and `pg_unmap` do to the translation of every address space, page
by page and for whole ranges, and to the pages of the allocator.
-/

namespace Mm

open Lib Lib.Forest List Stop Nat

/-! ## Page loops -/

section Loops

variable {β : Type} {G : Gmd} {E : Halt → Prop} {start limit n : Nat} {body : Nat → M (Option β)}
  {Q : Option β → Mem → Prop}

theorem wp_forPages (I : Nat → Mem → Prop) (hlt : ∀ i, i < n → start + 4096 * i < limit)
    (hlim : limit ≤ start + 4096 * n) (hwrap : start + 4096 * n < 2 ^ 64) (hr : n < G.rounds ∨ E .endless)
    (hbody : ∀ i m, i < n → I i m → Stop.wp E (body (start + 4096 * i)) (fun r m' => match r with
        | none => I (i + 1) m'
        | some b => Q (some b) m') m)
    (hend : ∀ m, I n m → Q none m) {m : Mem} (h0 : I 0 m) : Stop.wp E (forPages G start limit body) Q m := by
  refine wp_loop (fun k a m => ∃ i, i ≤ n ∧ k = n - i ∧ a = start + 4096 * i ∧ I i m) ?_ hr
    ⟨0, Nat.zero_le _, rfl, rfl, h0⟩
  rintro k a m ⟨i, hi, rfl, rfl, hI⟩
  by_cases he : i < n
  · rw [if_pos (hlt i he), wp_bind]
    refine wp_mono (hbody i m he hI) fun r m' hr => ?_
    cases r with
    | none =>
      refine ⟨n - (i + 1), by omega, i + 1, he, rfl, ?_, hr⟩
      rw [add, PG_4K_SIZE, mod_eq_of_lt (by omega)]
      ring
    | some b => exact hr
  · obtain rfl : i = n := by omega
    rw [if_neg (by omega)]
    exact hend m hI

end Loops

def unmapRounds (va npages : Nat) : Nat := (add va (mul npages PG_4K_SIZE) - va) / 4096

theorem unmapRounds_spec {va npages : Nat} (halign : va % PG_4K_SIZE = 0) (hva : va < 2 ^ 64) :
    add va (mul npages PG_4K_SIZE) ≤ va + 4096 * unmapRounds va npages ∧
      (∀ i, i < unmapRounds va npages → va + 4096 * i < add va (mul npages PG_4K_SIZE)) ∧
      va + 4096 * unmapRounds va npages < 2 ^ 64 := by
  have hlim : add va (mul npages PG_4K_SIZE) % 4096 = 0 ∧ add va (mul npages PG_4K_SIZE) < 2 ^ 64 := by
    simp only [add, mul, PG_4K_SIZE] at halign ⊢
    omega
  have halign : va % 4096 = 0 := halign
  unfold unmapRounds
  generalize add va (mul npages PG_4K_SIZE) = limit at hlim ⊢
  refine ⟨?_, fun i hi => ?_, ?_⟩ <;> omega

theorem path_ne {a b : Nat} (ha : a < 2 ^ 39) (hb : b < 2 ^ 39) (hne : a / 4096 ≠ b / 4096) : path a ≠ path b := by
  intro e
  have := path_inj e
  omega

section Spaces

variable {G : Gmd} {ρ : Type} [DecidableEq ρ] {root : ρ → Nat} {L : ρ → Nat → Prop} {m : Mem} {r : ρ}
  {va pa perm : Nat} {E : Halt → Prop}

/-! ## Mapping -/

theorem wp_mapRound {Q : (Nat × Nat) ⊕ Bool → Mem → Prop} {last : Nat} (h : Owned G root L m) (hr : root r ≠ 0)
    (hva : va ≤ MAX_VA) (hremap : isV (m.leaf (root r) va) = true → E (.panic "mappages: remap\n"))
    (hfail : ∀ m' taken, Grown G root L r m m' taken → m'.free = [] → Q (.inr false) m')
    (hok : isV (m.leaf (root r) va) = false → ∀ m' taken, Grown G root L r m m' taken → m'.last (root r) va ≠ 0 →
      Q (if va = last then .inr true else .inl (add va PG_4K_SIZE, add pa PG_4K_SIZE))
        (m'.setPte (m'.last (root r) va) (PX 0 va) (PA2PTE pa ||| perm ||| PTE_V))) :
    Stop.wp E (mapRound (root r) last perm (va, pa)) Q m := by
  unfold mapRound
  rw [wp_bind]
  refine wp_pteWalk_create h hr hva fun m' taken hg => ⟨fun hl => ?_, hfail m' taken hg⟩
  have hleaf : m.leaf (root r) va = m'.pte (m'.last (root r) va) (PX 0 va) := by
    rw [← hg.leaf, Mem.leaf, if_neg hl]
  dsimp only
  rw [wp_bind]
  apply wp_readPte (hg.owned.last_used hl)
  by_cases hv : isV (m.leaf (root r) va) = true
  · rw [← hleaf, if_pos hv]
    exact hremap hv
  · rw [← hleaf, if_neg hv, wp_bind]
    apply wp_writePte (hg.owned.last_used hl)
    have hQ := hok (by simpa using hv) m' taken hg hl
    by_cases he : va = last
    · rw [if_pos he] at hQ ⊢
      exact hQ
    · rw [if_neg he] at hQ ⊢
      exact hQ

theorem wp_mappages_one {Q : Bool → Mem → Prop} (h : Owned G root L m) (hr : root r ≠ 0)
    (halign : va % PG_4K_SIZE = 0) (hva : va ≤ MAX_VA) (hrounds : 0 < G.rounds ∨ E .endless)
    (hremap : isV (m.leaf (root r) va) = true → E (.panic "mappages: remap\n"))
    (hfail : ∀ m' taken, Grown G root L r m m' taken → m'.free = [] → Q false m')
    (hok : isV (m.leaf (root r) va) = false → ∀ m' taken, Grown G root L r m m' taken → m'.last (root r) va ≠ 0 →
      Q true (m'.setPte (m'.last (root r) va) (PX 0 va) (PA2PTE pa ||| perm ||| PTE_V))) :
    Stop.wp E (mappages G (root r) va PG_4K_SIZE pa perm) Q m := by
  have hlast : sub (add va PG_4K_SIZE) PG_4K_SIZE = va := by
    simp only [add, sub, PG_4K_SIZE, MAX_VA] at *
    omega
  unfold mappages
  rw [if_neg (by rw [halign]; decide), if_neg (by decide), if_neg (by decide), hlast]
  refine wp_loop (fun k x m' => x = (va, pa) ∧ m' = m) ?_ hrounds ⟨rfl, rfl⟩
  rintro k x m' ⟨rfl, rfl⟩
  refine wp_mapRound h hr hva hremap hfail fun hv m'' taken hg hl => ?_
  rw [if_pos rfl]
  exact hok hv m'' taken hg hl

/-- The pages from `va` on were mapped to those from `pa` on, the first `k` of them. -/
structure Mapped (G : Gmd) (root : ρ → Nat) (L : ρ → Nat → Prop) (r : ρ) (va pa perm k : Nat) (m m' : Mem)
    (taken : List Nat) : Prop where
  owned : Owned G root L m'
  inside : ∀ j, j < k → m'.leaf (root r) (va + 4096 * j) = PA2PTE (add pa (4096 * j)) ||| perm ||| PTE_V
  outside : ∀ r' vb, (r' ≠ r ∨ ∀ j, j < k → path vb ≠ path (va + 4096 * j)) →
    m'.leaf (root r') vb = m.leaf (root r') vb
  page : ∀ f, m.used f = true → ¬IsTable root m f → m'.page f = m.page f
  free : m.free = taken ++ m'.free
  used : ∀ f, m'.used f = true ↔ m.used f = true ∨ f ∈ taken
  table : ∀ f, f ≠ 0 → (IsTable root m' f ↔ IsTable root m f ∨ f ∈ taken)
  apart : Apart root r m m'
  stale : m'.stale = m.stale

omit [DecidableEq ρ] in
theorem Mapped.zero (h : Owned G root L m) : Mapped G root L r va pa perm 0 m m [] :=
  ⟨h, fun _ hj => absurd hj (Nat.not_lt_zero _), fun _ _ _ => rfl, fun _ _ _ => rfl, rfl, by simp, by simp,
    .refl root r m, rfl⟩

variable {k : Nat}

omit [DecidableEq ρ] in
theorem Mapped.grown {m' m'' : Mem} {l l' : List Nat} (ho : Owned G root L m)
    (h : Mapped G root L r va pa perm k m m' l) (hg : Grown G root L r m' m'' l') :
    Mapped G root L r va pa perm k m m'' (l ++ l') where
  owned := hg.owned
  inside j hj := by rw [hg.leaf, h.inside j hj]
  outside r' vb hne := by rw [hg.leaf, h.outside r' vb hne]
  page f hf ht := by
    have hl : f ∉ l := fun hl => ho.sound.not_mem hf (by rw [h.free]; exact mem_append_left _ hl)
    have hf0 : f ≠ 0 := (ho.sound.used f hf).pos
    rw [hg.page f (h.owned.sound.held ((h.used f).2 (.inl hf))) fun ht' => ((h.table f hf0).1 ht').elim ht hl, h.page f hf ht]
  free := by rw [h.free, hg.free, append_assoc]
  used f := by rw [hg.used, h.used, mem_append, or_assoc]
  table f hf := by rw [hg.table f hf, h.table f hf, mem_append, or_assoc]
  apart := h.apart.trans hg.apart
  stale := by rw [hg.stale, h.stale]

theorem Mapped.stored {m' m'' : Mem} {l : List Nat} (ho : Owned G root L m)
    (h : Mapped G root L r va pa perm k m m' l) (hend : va + 4096 * (k + 1) ≤ MAX_VA)
    (hl : m'.last (root r) (va + 4096 * k) ≠ 0) (hown : Owned G root L m'')
    (hs : Stored root r (va + 4096 * k) (PA2PTE (add pa (4096 * k)) ||| perm ||| PTE_V) m' m'') :
    Mapped G root L r va pa perm (k + 1) m m'' l where
  owned := hown
  inside j hj := by
    rw [hs.leaf]
    by_cases e : j = k
    · subst e
      rw [if_pos ⟨rfl, rfl⟩]
    · rw [if_neg, h.inside j (by omega)]
      rintro ⟨-, e'⟩
      refine path_ne ?_ ?_ ?_ e' <;> simp only [MAX_VA] at hend <;> omega
  outside r' vb hne := by
    rw [hs.leaf, if_neg, h.outside r' vb (hne.imp_right fun hne j hj => hne j (by omega))]
    rintro ⟨e1, e2⟩
    exact hne.elim (fun hne => hne e1) fun hne => hne k (by omega) e2
  page f hf ht := by
    rw [hs.page, h.page f hf ht]
    rintro rfl
    have htab : IsTable root m' (m'.last (root r) (va + 4096 * k)) :=
      ⟨r, _, le_rfl, (isSlot_last (L := L) r _).index, rfl⟩
    rcases (h.table _ hl).1 htab with h' | h'
    · exact ht h'
    · exact ho.sound.not_mem hf (by rw [h.free]; exact mem_append_left _ h')
  free := by rw [hs.free, h.free]
  used f := by rw [hs.used, h.used]
  table f hf := by rw [hs.isTable, h.table f hf]
  apart := h.apart.trans fun r' p _ => hs.table r' p
  stale := by rw [hs.stale, h.stale]

theorem wp_mappages {Q : Bool → Mem → Prop} {n : Nat} (h : Owned G root L m) (hr : root r ≠ 0)
    (halign : va % PG_4K_SIZE = 0) (hn : 0 < n) (hend : va + 4096 * n ≤ MAX_VA) (hpa : pa < 2 ^ 64)
    (hperm : perm < 1024) (hL : ∀ j vb, j < n → path vb = path (va + 4096 * j) → ¬L r vb)
    (hfree : ∀ j, j < n → isV (m.leaf (root r) (va + 4096 * j)) = false) (hrounds : n ≤ G.rounds ∨ E .endless)
    (hfail : ∀ k m' taken, k < n → Mapped G root L r va pa perm k m m' taken → m'.free = [] → Q false m')
    (hok : ∀ m' taken, Mapped G root L r va pa perm n m m' taken → Q true m') :
    Stop.wp E (mappages G (root r) va (4096 * n) pa perm) Q m := by
  have hbig : MAX_VA = 274877906944 := rfl
  have hlast : sub (add va (4096 * n)) PG_4K_SIZE = va + 4096 * (n - 1) := by
    simp only [add, sub, PG_4K_SIZE]
    omega
  unfold mappages
  rw [if_neg (by rw [halign]; decide), if_neg (by simp [PG_4K_SIZE]), if_neg (by omega), hlast]
  refine wp_loop (fun k x m' => ∃ i taken, i < n ∧ k = n - 1 - i ∧ x = (va + 4096 * i, add pa (4096 * i)) ∧
    Mapped G root L r va pa perm i m m' taken) ?_ (k := n - 1) (hrounds.imp_left fun h => by omega)
    ⟨0, [], hn, rfl, by rw [add, Nat.mul_zero, Nat.add_zero, Nat.add_zero, mod_eq_of_lt hpa], .zero h⟩
  rintro k x m' ⟨i, taken, hi, rfl, rfl, hm⟩
  have hadd : add pa (4096 * i) < 2 ^ 64 := mod_lt _ (by decide)
  refine wp_mapRound hm.owned hr (by omega) (fun hv => ?_) (fun m'' l hg hf => ?_) fun hv m'' l hg hl => ?_
  · rw [hm.outside, hfree i hi] at hv
    · cases hv
    · refine .inr fun j hj => path_ne ?_ ?_ ?_ <;> omega
  · exact hfail i m'' _ hi (hm.grown h hg) hf
  · have hown := hg.owned.store hl (entry_lt hadd hperm) fun vb hvb hLvb => absurd hLvb (hL i vb hi hvb)
    have hst := (hm.grown h hg).stored h (by omega) hl hown (hg.owned.stored hl (entry_lt hadd hperm))
    by_cases he : va + 4096 * i = va + 4096 * (n - 1)
    · rw [if_pos he]
      obtain rfl : n = i + 1 := by omega
      exact hok _ _ hst
    · rw [if_neg he]
      refine ⟨n - 1 - (i + 1), by omega, i + 1, _, by omega, rfl, ?_, hst⟩
      simp only [add, PG_4K_SIZE, Prod.mk.injEq]
      constructor <;> omega

/-! ## Unmapping -/

theorem wp_unmapPage {Q : Option Unit → Mem → Prop} {do_free : Bool} (h : Owned G root L m) (hr : root r ≠ 0)
    (hnull : isV (m.leaf (root r) va) = true → do_free = true → PTE2PA (m.leaf (root r) va) = 0 →
      E (.panic "free_page: NULL pointer!\n"))
    (hfree : va ≤ MAX_VA → isV (m.leaf (root r) va) = true → do_free = true → PTE2PA (m.leaf (root r) va) ≠ 0 →
      m.used (PTE2PA (m.leaf (root r) va)) = true ∧
      ∀ x, IsSlot L x → x ≠ (r, path va) → ptr root m.tab x ≠ PTE2PA (m.leaf (root r) va))
    (hskip : va ≤ MAX_VA → isV (m.leaf (root r) va) = false → Q none m) (hfar : MAX_VA < va → Q none m)
    (hdone : va ≤ MAX_VA → isV (m.leaf (root r) va) = true → ∀ m', Stored root r va 0 m m' → Owned G root L m' →
      (do_free = false → Q none m') ∧
      (do_free = true → PTE2PA (m.leaf (root r) va) ≠ 0 → Owned G root L (m'.give (PTE2PA (m.leaf (root r) va))) →
        Q none (m'.give (PTE2PA (m.leaf (root r) va))))) :
    Stop.wp E (unmapPage G (root r) do_free va) Q m := by
  unfold unmapPage
  rw [wp_bind]
  by_cases hva : MAX_VA < va
  · unfold pteWalk
    rw [if_pos hva]
    exact hfar hva
  rw [Nat.not_lt] at hva
  refine wp_pteWalk_find h hr hva (fun hl => ?_) fun hl => ?_
  · have hleaf : m.leaf (root r) va = m.pte (m.last (root r) va) (PX 0 va) := by rw [Mem.leaf, if_neg hl]
    dsimp only
    rw [wp_bind]
    apply wp_readPte (h.last_used hl)
    rw [← hleaf]
    by_cases hv : isV (m.leaf (root r) va) = true
    · rw [if_neg (by rw [hv]; decide)]
      have hst : Owned G root L (m.setPte (m.last (root r) va) (PX 0 va) 0) :=
        h.store hl (by decide) fun _ _ _ h0 => by cases h0
      obtain ⟨hd, hg⟩ := hdone hva hv _ (h.stored hl (by decide)) hst
      cases do_free with
      | false =>
        rw [if_neg (by decide), wp_bind]
        apply wp_writePte (h.last_used hl)
        exact hd rfl
      | true =>
        by_cases h0 : PTE2PA (m.leaf (root r) va) = 0
        · rw [if_pos rfl, wp_bind]
          unfold freePage
          rw [if_pos h0]
          exact hnull hv rfl h0
        obtain ⟨hu, hne⟩ := hfree hva hv rfl h0
        -- The page is given back before the entry is cleared: the two commute.
        have hlf : m.last (root r) va ≠ PTE2PA (m.leaf (root r) va) := by
          refine hne _ (isSlot_last r va) fun e => ?_
          simp [path] at e
        have hcomm : (m.give (PTE2PA (m.leaf (root r) va))).setPte (m.last (root r) va) (PX 0 va) 0 =
            (m.setPte (m.last (root r) va) (PX 0 va) 0).give (PTE2PA (m.leaf (root r) va)) := by
          unfold Mem.setPte
          rw [Mem.give_page, if_neg hlf]
          unfold Mem.setPage Mem.give
          congr 1
          exact (Function.update_comm hlf _ _ _).symm
        have hown : Owned G root L
            ((m.setPte (m.last (root r) va) (PX 0 va) 0).give (PTE2PA (m.leaf (root r) va))) := by
          refine hst.give hu fun x hx => ?_
          rw [h.ptr_store hl (by decide) hx]
          split_ifs with e1 e2
          · cases e2
          · exact (h.sound.used _ hu).pos.symm
          · exact hne x hx e1
        rw [if_pos rfl, wp_bind]
        apply wp_freePage h.sound hu
        rw [wp_bind]
        apply wp_writePte
        · rw [Mem.give_used, if_neg hlf]
          exact h.last_used hl
        · rw [hcomm]
          exact hg rfl h0 hown
    · rw [if_pos (by simpa using hv)]
      exact hskip hva (by simpa using hv)
  · apply hskip hva
    rw [Mem.leaf, if_pos hl]
    rfl

/-- The addresses among the `k` pages from `va` on that `pg_unmap` can reach. -/
def InRange (va k vb : Nat) : Prop := ∃ j, j < k ∧ va + 4096 * j ≤ MAX_VA ∧ path vb = path (va + 4096 * j)

def Mem.mapped (m : Mem) (pt va : Nat) : Nat → List Nat
  | 0 => []
  | k + 1 => m.mapped pt va k ++
    if va + 4096 * k ≤ MAX_VA ∧ isV (m.leaf pt (va + 4096 * k)) = true then [PTE2PA (m.leaf pt (va + 4096 * k))] else []

/-- The first `k` pages from `va` on were unmapped, and the pages in `freed` given back. -/
structure Cleared (G : Gmd) (root : ρ → Nat) (L : ρ → Nat → Prop) (r : ρ) (va k : Nat) (m m' : Mem)
    (freed : List Nat) : Prop where
  owned : Owned G root L m'
  inside : ∀ vb, InRange va k vb → isV (m'.leaf (root r) vb) = false
  outside : ∀ r' vb, (r' ≠ r ∨ ¬InRange va k vb) → m'.leaf (root r') vb = m.leaf (root r') vb
  table : ∀ r' p, p.length ≤ 2 → (∀ i ∈ p, i < 512) → ptr root m'.tab (r', p) = ptr root m.tab (r', p)
  page : ∀ f, f ∉ freed → (∀ p, p.length ≤ 2 → (∀ i ∈ p, i < 512) → ptr root m.tab (r, p) ≠ f) → m'.page f = m.page f
  free : m'.free = m.free ++ freed
  used : ∀ f, m'.used f = true ↔ m.used f = true ∧ f ∉ freed
  stale : m'.stale = m.stale

omit [DecidableEq ρ] in
theorem inRange_succ {k vb : Nat} :
    InRange va (k + 1) vb ↔ InRange va k vb ∨ (va + 4096 * k ≤ MAX_VA ∧ path vb = path (va + 4096 * k)) := by
  constructor
  · rintro ⟨j, hj, h⟩
    by_cases e : j = k
    · subst e
      exact .inr h
    · exact .inl ⟨j, by omega, h⟩
  · rintro (⟨j, hj, h⟩ | h)
    · exact ⟨j, by omega, h⟩
    · exact ⟨k, by omega, h⟩

omit [DecidableEq ρ] in
theorem not_inRange_self (hk : va + 4096 * k ≤ MAX_VA) : ¬InRange va k (va + 4096 * k) := by
  rintro ⟨j, hj, hle, e⟩
  refine path_ne ?_ ?_ ?_ e <;> simp only [MAX_VA] at hk hle <;> omega

omit [DecidableEq ρ] in
theorem Owned.ptr_of_leaf (h : Owned G root L m) (hL : L r va) (hv : isV (m.leaf (root r) va) = true)
    (h0 : PTE2PA (m.leaf (root r) va) ≠ 0) : m.used (PTE2PA (m.leaf (root r) va)) = true ∧
      (∀ x, IsSlot L x → x ≠ (r, path va) → ptr root m.tab x ≠ PTE2PA (m.leaf (root r) va)) ∧
      ¬IsTable root m (PTE2PA (m.leaf (root r) va)) := by
  have hp : ptr root m.tab (r, path va) = PTE2PA (m.leaf (root r) va) := by rw [ptr_leaf, if_pos hv]
  have hne : ∀ x, IsSlot L x → x ≠ (r, path va) → ptr root m.tab x ≠ PTE2PA (m.leaf (root r) va) := by
    intro x hx hne e
    exact hne (h.inj x _ hx (isSlot_leaf hL) (by rw [e]; exact h0) (by rw [e, hp]))
  refine ⟨hp ▸ h.used _ (isSlot_leaf hL) (by rw [hp]; exact h0), hne, ?_⟩
  rintro ⟨r', p, hlen, hi, e⟩
  refine hne (r', p) (isSlot_table hlen hi) (fun e' => ?_) e
  simp only [Prod.mk.injEq] at e'
  rw [e'.2] at hlen
  simp [path] at hlen

omit [DecidableEq ρ] in
theorem Cleared.zero (h : Owned G root L m) : Cleared G root L r va 0 m m [] :=
  ⟨h, fun _ ⟨_, hj, _⟩ => absurd hj (Nat.not_lt_zero _), fun _ _ _ => rfl, fun _ _ _ _ => rfl, fun _ _ _ => rfl,
    (append_nil _).symm, by simp, rfl⟩

omit [DecidableEq ρ] in
omit [DecidableEq ρ] in
theorem Cleared.skip {m' : Mem} {freed : List Nat} (h : Cleared G root L r va k m m' freed)
    (hk : va + 4096 * k ≤ MAX_VA → isV (m'.leaf (root r) (va + 4096 * k)) = false) :
    Cleared G root L r va (k + 1) m m' freed := by
  refine { h with inside := fun vb hvb => ?_, outside := fun r' vb hvb => ?_ }
  · rcases inRange_succ.1 hvb with hvb | ⟨hle, e⟩
    · exact h.inside vb hvb
    · rw [leaf_congr e]
      exact hk hle
  · exact h.outside r' vb (hvb.imp_right fun hvb h' => hvb (inRange_succ.2 (.inl h')))

theorem Cleared.stored {m' m'' : Mem} {freed : List Nat} (h : Cleared G root L r va k m m' freed)
    (hk : va + 4096 * k ≤ MAX_VA) (hown : Owned G root L m'') (hs : Stored root r (va + 4096 * k) 0 m' m'') :
    Cleared G root L r va (k + 1) m m'' freed := by
  refine ⟨hown, fun vb hvb => ?_, fun r' vb hvb => ?_, fun r' p hp hi => ?_, fun f hf ht => ?_, ?_, fun f => ?_, ?_⟩
  · rw [hs.leaf]
    split_ifs with e
    · rfl
    · exact h.inside vb ((inRange_succ.1 hvb).resolve_right fun h' => e ⟨rfl, h'.2⟩)
  · rw [hs.leaf, if_neg, h.outside r' vb (hvb.imp_right fun hvb h' => hvb (inRange_succ.2 (.inl h')))]
    rintro ⟨e1, e2⟩
    exact hvb.elim (fun hvb => hvb e1) fun hvb => hvb (inRange_succ.2 (.inr ⟨hk, e2⟩))
  · rw [hs.table r' p hp hi, h.table r' p hp hi]
  · rw [hs.page, h.page f hf ht]
    rintro rfl
    have hi := (isSlot_last (L := L) r (va + 4096 * k)).index
    refine ht _ le_rfl hi ?_
    rw [← h.table r _ le_rfl hi, ptr_last]
  · rw [hs.free, h.free]
  · rw [hs.used, h.used]
  · rw [hs.stale, h.stale]

omit [DecidableEq ρ] in
theorem Cleared.given {k g : Nat} {m' : Mem} {freed : List Nat} (h : Cleared G root L r va k m m' freed)
    (hg : ¬IsTable root m' g) (hown : Owned G root L (m'.give g)) :
    Cleared G root L r va k m (m'.give g) (freed ++ [g]) := by
  have hpage : ∀ f, IsTable root m' f → f ≠ 0 → (m'.give g).page f = m'.page f := by
    intro f hf _
    rw [Mem.give_page, if_neg]
    rintro rfl
    exact hg hf
  refine ⟨hown, fun vb hvb => ?_, fun r' vb hvb => ?_, fun r' p hp hi => ?_, fun f hf ht => ?_, ?_, fun f => ?_, ?_⟩
  · rw [leaf_of_page hpage]
    exact h.inside vb hvb
  · rw [leaf_of_page hpage]
    exact h.outside r' vb hvb
  · rw [ptr_of_page hpage (isSlot_table (L := L) hp hi), h.table r' p hp hi]
  · rw [mem_append, not_or, mem_singleton] at hf
    rw [Mem.give_page, if_neg hf.2, h.page f hf.1 ht]
  · rw [Mem.give_free, h.free, append_assoc]
  · rw [Mem.give_used, mem_append, mem_singleton]
    by_cases e : f = g <;> simp [e, h.used]
  · exact h.stale

theorem Mem.mapped_succ_of_not {pt k : Nat} (h : ¬(va + 4096 * k ≤ MAX_VA ∧ isV (m.leaf pt (va + 4096 * k)) = true)) :
    m.mapped pt va (k + 1) = m.mapped pt va k := by
  rw [Mem.mapped, if_neg h, append_nil]

theorem wp_pgUnmap {Q : Unit → Mem → Prop} {npages n : Nat} {do_free : Bool} (h : Owned G root L m)
    (hr : root r ≠ 0) (halign : va % PG_4K_SIZE = 0) (hn : add va (mul npages PG_4K_SIZE) ≤ va + 4096 * n)
    (hlt : ∀ i, i < n → va + 4096 * i < add va (mul npages PG_4K_SIZE)) (hwrap : va + 4096 * n < 2 ^ 64)
    (hrounds : n < G.rounds ∨ E .endless)
    (hnull : do_free = true → ∀ vb, InRange va n vb → isV (m.leaf (root r) vb) = true →
      PTE2PA (m.leaf (root r) vb) = 0 → E (.panic "free_page: NULL pointer!\n"))
    (hfree : do_free = true → ∀ vb, InRange va n vb → isV (m.leaf (root r) vb) = true → L r vb)
    (hQ : (do_free = true → ∀ vb, InRange va n vb → isV (m.leaf (root r) vb) = true → PTE2PA (m.leaf (root r) vb) ≠ 0) →
      ∀ m', Cleared G root L r va n m m' (if do_free then m.mapped (root r) va n else []) → Q ⟨⟩ m') :
    Stop.wp E (pgUnmap G (root r) va npages do_free) Q m := by
  unfold pgUnmap
  rw [if_neg (by rw [halign]; decide), wp_bind]
  refine wp_forPages (fun k m' => Cleared G root L r va k m m' (if do_free then m.mapped (root r) va k else []) ∧
      (do_free = true → ∀ vb, InRange va k vb → isV (m.leaf (root r) vb) = true → PTE2PA (m.leaf (root r) vb) ≠ 0))
    hlt hn hwrap hrounds (fun k m' hk hI => ?_) (fun m' hI => hQ hI.2 m' hI.1)
    ⟨?_, fun _ vb ⟨_, hj, _⟩ => absurd hj (Nat.not_lt_zero _)⟩
  · obtain ⟨hc, hpos⟩ := hI
    have hself : va + 4096 * k ≤ MAX_VA → m'.leaf (root r) (va + 4096 * k) = m.leaf (root r) (va + 4096 * k) :=
      fun hle => hc.outside r _ (.inr (not_inRange_self hle))
    have hnext : (va + 4096 * k ≤ MAX_VA → isV (m.leaf (root r) (va + 4096 * k)) = true → do_free = true →
          PTE2PA (m.leaf (root r) (va + 4096 * k)) ≠ 0) →
        do_free = true → ∀ vb, InRange va (k + 1) vb → isV (m.leaf (root r) vb) = true → PTE2PA (m.leaf (root r) vb) ≠ 0 := by
      intro h0 hd vb hvb hv
      rcases inRange_succ.1 hvb with hvb | ⟨hle, e⟩
      · exact hpos hd vb hvb hv
      · rw [leaf_congr e] at hv ⊢
        exact h0 hle hv hd
    have hskip : (va + 4096 * k ≤ MAX_VA → isV (m'.leaf (root r) (va + 4096 * k)) = false) →
        Cleared G root L r va (k + 1) m m' (if do_free then m.mapped (root r) va (k + 1) else []) ∧
        (do_free = true → ∀ vb, InRange va (k + 1) vb → isV (m.leaf (root r) vb) = true →
          PTE2PA (m.leaf (root r) vb) ≠ 0) := by
      intro hv
      refine ⟨?_, hnext fun hle hv' => ?_⟩
      · rw [Mem.mapped_succ_of_not]
        · exact hc.skip hv
        · rintro ⟨hle, hv'⟩
          rw [← hself hle, hv hle] at hv'
          cases hv'
      · rw [← hself hle, hv hle] at hv'
        cases hv'
    by_cases hbig : MAX_VA < va + 4096 * k
    · unfold unmapPage pteWalk
      rw [if_pos hbig]
      exact hskip fun hle => absurd hle (Nat.not_le.2 hbig)
    have hle := Nat.not_lt.1 hbig
    have hin : InRange va n (va + 4096 * k) := ⟨k, hk, hle, rfl⟩
    rw [hself hle] at hskip
    refine wp_unmapPage hc.owned hr (fun hv hd h0 => ?_) (fun _ hv hd h0 => ?_) (fun _ hv => hskip fun _ => ?_)
      (fun hgt => absurd hgt hbig) fun _ hv m'' hs hown => ⟨fun hd => ?_, fun hd h0 hown' => ?_⟩
    · rw [hself hle] at hv h0
      exact hnull hd _ hin hv h0
    · obtain ⟨h1, h2, -⟩ := hc.owned.ptr_of_leaf (hfree hd _ hin (by rw [← hself hle]; exact hv)) hv h0
      exact ⟨h1, h2⟩
    · rw [← hself hle]
      exact hv
    · subst hd
      exact ⟨hc.stored hle hown hs, fun hd => by cases hd⟩
    · subst hd
      have hv' := hv
      rw [hself hle] at hv'
      obtain ⟨-, -, hnt⟩ := hc.owned.ptr_of_leaf (hfree rfl _ hin hv') hv h0
      refine ⟨?_, hnext fun _ _ _ => by rw [← hself hle]; exact h0⟩
      have := (hc.stored hle hown hs).given (fun ht => hnt (hs.isTable.1 ht)) hown'
      simp only [if_true] at this ⊢
      rw [Mem.mapped, if_pos ⟨hle, hv'⟩, ← hself hle]
      exact this
  · cases do_free <;> exact .zero h

end Spaces

end Mm
