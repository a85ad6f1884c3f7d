import Loeux.Lib.Forest
import Loeux.Mm.Vm
/-!
# Page tables in memory

The tables of several address spaces are the inner blocks of a forest of pointers,
and their last-level entries map pages. As long as no page serves as two tables,
a walk finds the entry of its own address space, a new table leaves every
translation as it is, and storing an entry changes one translation.
-/

namespace Mm

open Lib Lib.Forest Bytes List Stop Nat

/-! ## Entries -/

section Entry

variable {pa f perm va vb i : Nat}

theorem PX_lt (level va : Nat) : PX level va < 512 := mod_lt _ (by decide)

def path (va : Nat) : List Nat := [PX 0 va, PX 1 va, PX 2 va]

theorem path_inj (h : path va = path vb) : va / 4096 % 2 ^ 27 = vb / 4096 % 2 ^ 27 := by
  simp only [path, PX, List.cons.injEq, and_true] at h
  norm_num at h ⊢
  omega

theorem path_congr (h : va / 4096 % 2 ^ 27 = vb / 4096 % 2 ^ 27) : path va = path vb := by
  simp only [path, PX, List.cons.injEq, and_true]
  norm_num at h ⊢
  omega

theorem PA2PTE_or (hf : perm < 1024) : PA2PTE pa ||| perm = pa / 4096 * 1024 + perm := by
  rw [PA2PTE, Nat.mul_comm]
  exact (two_pow_add_eq_or_of_lt (i := 10) hf (pa / 4096)).symm

theorem perm_or_lt (hf : perm < 1024) : perm ||| PTE_V < 1024 := or_lt_two_pow (n := 10) hf (by decide)

theorem entry_lt (hpa : pa < 2 ^ 64) (hf : perm < 1024) : PA2PTE pa ||| perm ||| PTE_V < 2 ^ 64 := by
  rw [Nat.or_assoc, PA2PTE_or (perm_or_lt hf)]
  have := perm_or_lt hf
  omega

theorem PTE2PA_entry (hpa : pa < 2 ^ 64) (hf : perm < 1024) :
    PTE2PA (PA2PTE pa ||| perm ||| PTE_V) = pa / 4096 * 4096 := by
  rw [Nat.or_assoc, PA2PTE_or (perm_or_lt hf), PTE2PA]
  have := perm_or_lt hf
  omega

theorem PTE_FLAGS_entry (hf : perm < 1024) : PTE_FLAGS (PA2PTE pa ||| perm ||| PTE_V) = perm ||| PTE_V := by
  rw [Nat.or_assoc, PA2PTE_or (perm_or_lt hf), PTE_FLAGS]
  have := perm_or_lt hf
  omega

theorem testBit_flags (v : Nat) (hi : i < 10) : v.testBit i = (PTE_FLAGS v).testBit i := by
  rw [PTE_FLAGS, show (1024 : Nat) = 2 ^ 10 from rfl, testBit_mod_two_pow, decide_eq_true hi, Bool.true_and]

theorem isV_entry (v : Nat) : isV (v ||| PTE_V) = true := by
  rw [isV, testBit_or, show PTE_V.testBit 0 = true from rfl, Bool.or_true]

end Entry

/-! ## Memory -/

section Memory

variable {m : Mem} {pt i v c j f : Nat} {rest : List Nat}

theorem Mem.touch_of_used (h : m.used pt = true) : m.touch pt = m := by rw [Mem.touch, if_pos h]

theorem Mem.pte_setPte : (m.setPte pt i v).pte c j = if c = pt ∧ j = i then v % 2 ^ 64 else m.pte c j := by
  unfold Mem.pte Mem.setPte
  rw [Mem.setPage_page]
  by_cases hc : c = pt
  · subst hc
    rw [if_pos rfl]
    by_cases hj : j = i
    · subst hj
      rw [get_put, if_pos ⟨rfl, rfl⟩]
      rfl
    · rw [get_put_of_disjoint _ _ (by omega), if_neg (fun h => hj h.2)]
  · rw [if_neg hc, if_neg (fun h => hc h.1)]

theorem Mem.pte_take : (m.take f rest).pte c j = if c = f then 0 else m.pte c j := by
  unfold Mem.pte
  rw [Mem.take_page]
  split
  · exact get_zero ..
  · rfl

def Mem.tab (m : Mem) (pt i : Nat) : Nat := if isV (m.pte pt i) then PTE2PA (m.pte pt i) else 0

theorem Mem.tab_setPte : (m.setPte pt i v).tab c j =
    if c = pt ∧ j = i then (if isV (v % 2 ^ 64) then PTE2PA (v % 2 ^ 64) else 0) else m.tab c j := by
  unfold Mem.tab
  rw [Mem.pte_setPte]
  split <;> rfl

theorem Mem.tab_take : (m.take f rest).tab c j = if c = f then 0 else m.tab c j := by
  unfold Mem.tab
  rw [Mem.pte_take]
  split <;> rfl

theorem Mem.tab_congr {m' : Mem} (h : m'.page c = m.page c) : m'.tab c j = m.tab c j := by
  unfold Mem.tab Mem.pte
  rw [h]

variable {E : Halt → Prop}

theorem wp_readPte {Q : Nat → Mem → Prop} (h : m.used pt = true) (hQ : Q (m.pte pt i) m) :
    Stop.wp E (readPte pt i) Q m := by
  unfold readPte
  rw [wp_bind, wp_modify, Mem.touch_of_used h]
  exact hQ

theorem wp_writePte {Q : Unit → Mem → Prop} (h : m.used pt = true) (hQ : Q ⟨⟩ (m.setPte pt i v)) :
    Stop.wp E (writePte pt i v) Q m := by
  unfold writePte
  rw [wp_modify, Mem.touch_of_used h]
  exact hQ

end Memory

/-! ## Address spaces -/

/-- The last-level table for an address, or 0. -/
def Mem.last (m : Mem) (pt va : Nat) : Nat := follow m.tab pt [PX 1 va, PX 2 va]

def Mem.leaf (m : Mem) (pt va : Nat) : Nat := if m.last pt va = 0 then 0 else m.pte (m.last pt va) (PX 0 va)

/-- The pages of the address spaces that are followed: the tables, and the pages
that are mapped at the addresses in `L`. -/
structure IsSlot {ρ : Type} (L : ρ → Nat → Prop) (x : ρ × List Nat) : Prop where
  index : ∀ i ∈ x.2, i < 512
  place : x.2.length ≤ 2 ∨ ∃ va, x.2 = path va ∧ L x.1 va

/-- The page tables at `root`, none where it is 0: no page serves twice, and all
are in use. -/
structure Owned (G : Gmd) {ρ : Type} (root : ρ → Nat) (L : ρ → Nat → Prop) (m : Mem) : Prop where
  sound : m.Sound G
  inj : Inj (IsSlot L) (ptr root m.tab)
  used : ∀ x, IsSlot L x → ptr root m.tab x ≠ 0 → m.used (ptr root m.tab x) = true
  linked : ∀ r p i, IsSlot L (r, i :: p) → p.length ≤ 1 → ptr root m.tab (r, p) ≠ 0 →
    isV (m.pte (ptr root m.tab (r, p)) i) = true →
      PTE2PA (m.pte (ptr root m.tab (r, p)) i) ≠ 0 ∧ PTE_FLAGS (m.pte (ptr root m.tab (r, p)) i) = PTE_V

section Slots

variable {ρ : Type} {L : ρ → Nat → Prop} {r r' : ρ} {p : List Nat} {i va : Nat}

theorem IsSlot.tail (h : IsSlot L (r, i :: p)) : IsSlot L (r, p) := by
  refine ⟨fun j hj => h.index j (mem_cons_of_mem _ hj), .inl ?_⟩
  rcases h.place with hl | ⟨va, hva, -⟩
  · exact (le_succ _).trans hl
  · rw [show p = [PX 1 va, PX 2 va] from (List.cons.inj hva).2]
    exact le_rfl

theorem isSlot_table (hp : p.length ≤ 2) (hi : ∀ i ∈ p, i < 512) : IsSlot L (r, p) := ⟨hi, .inl hp⟩

theorem isSlot_last (r : ρ) (va : Nat) : IsSlot L (r, [PX 1 va, PX 2 va]) :=
  isSlot_table le_rfl (by simp [PX_lt])

theorem isSlot_root (r : ρ) : IsSlot L (r, []) := isSlot_table (Nat.zero_le _) (by simp)

theorem isSlot_leaf (h : L r va) : IsSlot L (r, path va) :=
  ⟨by simp [path, PX_lt], .inr ⟨va, rfl, h⟩⟩

theorem not_isSlot_below (j : Nat) : ¬IsSlot L (r, j :: path va) := by
  intro h
  rcases h.place with hl | ⟨vb, hvb, -⟩
  · simp [path] at hl
  · simp [path] at hvb

end Slots

section Spaces

variable {G : Gmd} {ρ : Type} {root : ρ → Nat} {L : ρ → Nat → Prop} {m : Mem} {r r' : ρ} {va vb : Nat}

theorem ptr_last : ptr root m.tab (r, [PX 1 va, PX 2 va]) = m.last (root r) va := rfl

theorem ptr_leaf : ptr root m.tab (r, path va) =
    if isV (m.leaf (root r) va) then PTE2PA (m.leaf (root r) va) else 0 := by
  rw [path, ptr_cons, ptr_last]
  unfold Mem.leaf Mem.tab
  by_cases h : m.last (root r) va = 0
  · rw [if_pos h, if_pos h]
    rfl
  · rw [if_neg h, if_neg h]

theorem leaf_congr {pt : Nat} (h : path va = path vb) : m.leaf pt va = m.leaf pt vb := by
  simp only [path, List.cons.injEq, and_true] at h
  unfold Mem.leaf Mem.last
  rw [h.1, h.2.1, h.2.2]

theorem leaf_of_root_zero (h : root r = 0) (va : Nat) : m.leaf (root r) va = 0 := by
  have hl : m.last (root r) va = 0 := by
    rw [h]
    rfl
  rw [Mem.leaf, if_pos hl]

theorem Owned.last_inj (h : Owned G root L m) (hva : m.last (root r) va ≠ 0)
    (he : m.last (root r) va = m.last (root r') vb) : r = r' ∧ PX 1 va = PX 1 vb ∧ PX 2 va = PX 2 vb := by
  have := h.inj _ _ (isSlot_last r va) (isSlot_last r' vb) hva he
  simpa using this

theorem Owned.last_used (h : Owned G root L m) (hva : m.last (root r) va ≠ 0) :
    m.used (m.last (root r) va) = true := h.used _ (isSlot_last r va) hva

theorem Owned.root_used (h : Owned G root L m) (hr : root r ≠ 0) : m.used (root r) = true :=
  h.used _ (isSlot_root r) hr

/-! ### Looking up -/

/-- The indices of the table that a walk has reached with `l` levels left. -/
def upper (va : Nat) : Nat → List Nat
  | 0 => [PX 1 va, PX 2 va]
  | 1 => [PX 2 va]
  | _ => []

theorem upper_succ {l : Nat} (h : l < 2) : upper va l = PX (l + 1) va :: upper va (l + 1) := by
  rcases l with _ | _ | l
  · rfl
  · rfl
  · omega

theorem isSlot_upper (r : ρ) (va l : Nat) : IsSlot L (r, upper va l) := by
  rcases l with _ | _ | l
  · exact isSlot_last r va
  · exact isSlot_table (by simp [upper]) (by simp [upper, PX_lt])
  · exact isSlot_root r

theorem length_upper {l : Nat} : (upper va (l + 1)).length ≤ 1 := by
  rcases l with _ | l
  · exact le_rfl
  · exact Nat.zero_le _

theorem last_eq_zero {l : Nat} (hl : l ≤ 2) (h : ptr root m.tab (r, upper va l) = 0) : m.last (root r) va = 0 := by
  induction l with
  | zero => exact h
  | succ l ih =>
    apply ih (by omega)
    rw [upper_succ (by omega), ptr_cons, if_pos h]

variable {E : Halt → Prop}

section

variable (h : Owned G root L m)

include h

theorem Owned.ptr_upper {l : Nat} (hl : l < 2) (h0 : ptr root m.tab (r, upper va (l + 1)) ≠ 0) :
    ptr root m.tab (r, upper va l) = m.tab (ptr root m.tab (r, upper va (l + 1))) (PX (l + 1) va) ∧
      (isV (m.pte (ptr root m.tab (r, upper va (l + 1))) (PX (l + 1) va)) = true →
        ptr root m.tab (r, upper va l) ≠ 0) := by
  have he : ptr root m.tab (r, upper va l) = m.tab (ptr root m.tab (r, upper va (l + 1))) (PX (l + 1) va) := by
    rw [upper_succ hl, ptr_cons, if_neg h0]
  refine ⟨he, fun hv => ?_⟩
  rw [he, Mem.tab, if_pos hv]
  have hs := isSlot_upper (L := L) r va l
  rw [upper_succ hl] at hs
  exact (h.linked _ _ _ hs length_upper h0 hv).1

theorem wp_walkFrom_find {Q : Option Nat → Mem → Prop}
    (hsome : m.last (root r) va ≠ 0 → Q (some (m.last (root r) va)) m) (hnone : m.last (root r) va = 0 → Q none m) :
    ∀ {l pt : Nat}, l ≤ 2 → pt = ptr root m.tab (r, upper va l) → pt ≠ 0 → Stop.wp E (walkFrom va false l pt) Q m := by
  intro l
  induction l with
  | zero =>
    rintro pt - rfl h0
    exact hsome h0
  | succ l ih =>
    rintro pt hl rfl h0
    obtain ⟨he, hv⟩ := h.ptr_upper (by omega) h0
    unfold walkFrom
    rw [wp_bind]
    apply wp_readPte (h.used _ (isSlot_upper r va _) h0)
    by_cases hp : isV (m.pte (ptr root m.tab (r, upper va (l + 1))) (PX (l + 1) va)) = true
    · rw [if_pos hp]
      apply ih (by omega) _ (by rw [Mem.tab, if_pos hp] at he; rw [← he]; exact hv hp)
      rw [he, Mem.tab, if_pos hp]
    · rw [if_neg hp, if_pos rfl]
      apply hnone
      apply last_eq_zero (l := l) (by omega)
      rw [he, Mem.tab, if_neg hp]

theorem wp_pteWalk_find {Q : Option (Nat × Nat) → Mem → Prop} (hr : root r ≠ 0)
    (hva : va ≤ MAX_VA) (hsome : m.last (root r) va ≠ 0 → Q (some (m.last (root r) va, PX 0 va)) m)
    (hnone : m.last (root r) va = 0 → Q none m) : Stop.wp E (pteWalk (root r) va false) Q m := by
  unfold pteWalk
  rw [if_neg (Nat.not_lt.2 hva), wp_bind]
  exact wp_walkFrom_find h hsome hnone (l := 2) le_rfl rfl hr

/-! ### New tables -/

omit h in
def IsTable (root : ρ → Nat) (m : Mem) (f : Nat) : Prop :=
  ∃ r p, p.length ≤ 2 ∧ (∀ i ∈ p, i < 512) ∧ ptr root m.tab (r, p) = f

omit h in
/-- The tables of the spaces other than `r` stay. -/
def Apart (root : ρ → Nat) (r : ρ) (m m' : Mem) : Prop :=
  ∀ r' p, r' ≠ r → p.length ≤ 2 → (∀ i ∈ p, i < 512) → ptr root m'.tab (r', p) = ptr root m.tab (r', p)

omit h in
theorem Apart.refl (root : ρ → Nat) (r : ρ) (m : Mem) : Apart root r m m := fun _ _ _ _ _ => rfl

omit h in
theorem Apart.trans {m' m'' : Mem} (h : Apart root r m m') (h' : Apart root r m' m'') : Apart root r m m'' :=
  fun r' p hne hp hi => (h' r' p hne hp hi).trans (h r' p hne hp hi)

omit h in
/-- From `m` on pages were taken for new tables of the space `r`, and nothing else happened. -/
structure Grown (G : Gmd) (root : ρ → Nat) (L : ρ → Nat → Prop) (r : ρ) (m m' : Mem) (taken : List Nat) : Prop where
  owned : Owned G root L m'
  keeps : ∀ x, IsSlot L x → ptr root m.tab x ≠ 0 → ptr root m'.tab x = ptr root m.tab x
  leaf : ∀ r va, m'.leaf (root r) va = m.leaf (root r) va
  page : ∀ f, m.Held f → ¬IsTable root m f → m'.page f = m.page f
  free : m.free = taken ++ m'.free
  used : ∀ f, m'.used f = true ↔ m.used f = true ∨ f ∈ taken
  table : ∀ f, f ≠ 0 → (IsTable root m' f ↔ IsTable root m f ∨ f ∈ taken)
  apart : Apart root r m m'
  stale : m'.stale = m.stale

theorem Grown.refl : Grown G root L r m m [] :=
  ⟨h, fun _ _ _ => rfl, fun _ _ => rfl, fun _ _ _ => rfl, rfl, by simp, by simp, .refl root r m, rfl⟩

omit h in
theorem Grown.trans {m' m'' : Mem} {l l' : List Nat} (h : Grown G root L r m m' l)
    (h' : Grown G root L r m' m'' l') : Grown G root L r m m'' (l ++ l') where
  owned := h'.owned
  keeps x hx h0 := by
    have h1 := h.keeps x hx h0
    rw [h'.keeps x hx (by rw [h1]; exact h0), h1]
  leaf r va := by rw [h'.leaf, h.leaf]
  page f hf ht := by
    have hl := hf.not_taken (.of_eq h.free)
    rw [h'.page f hl.2 fun ht' => ((h.table f hf.1).1 ht').elim ht hl.1, h.page f hf ht]
  free := by rw [h.free, h'.free, append_assoc]
  used f := by rw [h'.used, h.used, mem_append, or_assoc]
  table f hf := by rw [h'.table f hf, h.table f hf, mem_append, or_assoc]
  apart := h.apart.trans h'.apart
  stale := by rw [h'.stale, h.stale]

/-! ### Pages that serve as nothing -/

omit h in
theorem ptr_of_page {m' : Mem}
    (hp : ∀ f, IsTable root m f → f ≠ 0 → m'.page f = m.page f) {x : ρ × List Nat} (hx : IsSlot L x) :
    ptr root m'.tab x = ptr root m.tab x := by
  refine ptr_congr (D := IsSlot L) (fun _ _ _ => IsSlot.tail) (fun _ _ => rfl) (fun r' i p hs h0 => ?_) x hx
  apply Mem.tab_congr
  refine hp _ ⟨r', p, ?_, hs.tail.index, rfl⟩ h0
  rcases hs.place with hl | ⟨va, hva, -⟩
  · exact (le_succ _).trans hl
  · rw [show p = [PX 1 va, PX 2 va] from (List.cons.inj hva).2]
    exact le_rfl

omit h in
theorem leaf_of_page {m' : Mem} (hp : ∀ f, IsTable root m f → f ≠ 0 → m'.page f = m.page f) (r : ρ) (va : Nat) :
    m'.leaf (root r) va = m.leaf (root r) va := by
  have hs : IsSlot (fun _ _ => False) (r, [PX 1 va, PX 2 va]) := isSlot_last r va
  have hl : m'.last (root r) va = m.last (root r) va := ptr_of_page hp hs
  unfold Mem.leaf
  rw [hl]
  by_cases h0 : m.last (root r) va = 0
  · rw [if_pos h0, if_pos h0]
  · rw [if_neg h0, if_neg h0]
    unfold Mem.pte
    rw [hp (m.last (root r) va) ⟨r, _, le_rfl, hs.index, rfl⟩ h0]

theorem Owned.congr {m' : Mem} (hs : m'.Sound G) (hp : ∀ f, IsTable root m f → f ≠ 0 → m'.page f = m.page f)
    (hu : ∀ x, IsSlot L x → ptr root m.tab x ≠ 0 → m'.used (ptr root m.tab x) = true) : Owned G root L m' where
  sound := hs
  inj x y hx hy := by
    rw [ptr_of_page hp hx, ptr_of_page hp hy]
    exact h.inj x y hx hy
  used x hx := by
    rw [ptr_of_page hp hx]
    exact hu x hx
  linked r' p i hx hlen := by
    rw [ptr_of_page hp hx.tail]
    intro h0
    have he : m'.pte (ptr root m.tab (r', p)) i = m.pte (ptr root m.tab (r', p)) i := by
      unfold Mem.pte
      rw [hp _ ⟨r', p, by omega, hx.tail.index, rfl⟩ h0]
    rw [he]
    exact h.linked r' p i hx hlen h0

theorem Owned.isTable_used {f : Nat} (hf : IsTable root m f) (h0 : f ≠ 0) : m.used f = true := by
  obtain ⟨r', p, hp, hi, rfl⟩ := hf
  exact h.used _ (isSlot_table hp hi) h0

theorem Owned.setPage {f : Nat} (hf : ¬IsTable root m f) (b : Bytes) : Owned G root L (m.setPage f b) := by
  refine h.congr (h.sound.setPage b) (fun g hg _ => ?_) h.used
  rw [Mem.setPage_page, if_neg]
  rintro rfl
  exact hf hg

theorem Owned.take {f : Nat} {rest : List Nat} (hf : m.free = f :: rest) : Owned G root L (m.take f rest) := by
  have hmem : f ∈ m.free := by
    rw [hf]
    exact mem_cons_self
  refine h.congr (h.sound.take hf) (fun g hg h0 => ?_) (fun x hx h0 => ?_)
  · rw [Mem.take_page, if_neg]
    rintro rfl
    exact h.sound.not_mem (h.isTable_used hg h0) hmem
  · rw [Mem.take_used, h.used x hx h0]
    exact ite_self _

theorem Owned.give {f : Nat} (hu : m.used f = true)
    (hf : ∀ x, IsSlot L x → ptr root m.tab x ≠ f) : Owned G root L (m.give f) := by
  refine h.congr (h.sound.give hu) (fun g hg _ => ?_) (fun x hx h0 => ?_)
  · obtain ⟨r', p, hp, hi, rfl⟩ := hg
    rw [Mem.give_page, if_neg (hf _ (isSlot_table hp hi))]
  · rw [Mem.give_used, if_neg (hf x hx), h.used x hx h0]

end

variable [DecidableEq ρ]

section

variable (h : Owned G root L m)

include h

theorem Owned.link {p : List Nat} {i P f : Nat} {rest : List Nat} (hp : p.length ≤ 1)
    (hi : ∀ j ∈ i :: p, j < 512) (hP : ptr root m.tab (r, p) = P) (h0 : P ≠ 0) (hv : isV (m.pte P i) = false)
    (hf : m.free = f :: rest) :
    Grown G root L r m ((m.take f rest).setPte P i (PA2PTE f ||| PTE_V)) [f] ∧
      ptr root ((m.take f rest).setPte P i (PA2PTE f ||| PTE_V)).tab (r, i :: p) = f := by
  have hslot : IsSlot L (r, i :: p) := isSlot_table (by simpa using hp) hi
  have hmem : f ∈ m.free := by
    rw [hf]
    exact mem_cons_self
  have hpage := h.sound.page f hmem
  have hPu : m.used P = true := hP ▸ h.used _ hslot.tail (by rw [hP]; exact h0)
  have hfree : ∀ g, m.used g = true → g ≠ f := fun g hg e => h.sound.not_mem hg (e ▸ hmem)
  have hval : PA2PTE f ||| PTE_V = PA2PTE f ||| 0 ||| PTE_V := by rw [or_zero]
  have hlt : (PA2PTE f ||| PTE_V) % 2 ^ 64 = PA2PTE f ||| PTE_V := by
    rw [hval]
    exact mod_eq_of_lt (entry_lt hpage.lt (by decide))
  have hpa : PTE2PA (PA2PTE f ||| PTE_V) = f := by
    rw [hval, PTE2PA_entry hpage.lt (by decide)]
    have := hpage.aligned
    simp only [PG_4K_SIZE] at this
    omega
  generalize hm' : (m.take f rest).setPte P i (PA2PTE f ||| PTE_V) = m'
  have hpte : ∀ c j, m'.pte c j = if c = P ∧ j = i then PA2PTE f ||| PTE_V else if c = f then 0 else m.pte c j := by
    intro c j
    rw [← hm', Mem.pte_setPte, hlt, Mem.pte_take]
  have htab : ∀ c j, m'.tab c j = if c = P ∧ j = i then f else (m.take f rest).tab c j := by
    intro c j
    rw [← hm', Mem.tab_setPte, hlt, isV_entry, if_pos rfl, hpa]
  -- The pointers before the fresh table is linked: its page was no table.
  have htake : ∀ x, IsSlot L x → ptr root (m.take f rest).tab x = ptr root m.tab x := by
    refine ptr_congr (fun _ _ _ => IsSlot.tail) (fun _ _ => rfl) fun r' j q hx hne => ?_
    rw [Mem.tab_take, if_neg (hfree _ (h.used _ hx.tail hne))]
  have hz : ptr root m.tab (r, i :: p) = 0 := by
    rw [ptr_cons, hP, if_neg h0, Mem.tab, hv]
    rfl
  have hptr : ∀ y, IsSlot L y → ptr root m'.tab y = if y = (r, i :: p) then f else ptr root m.tab y := by
    intro y hy
    rw [← htake y hy]
    refine ptr_update_entry (fun _ _ _ => IsSlot.tail) ?_ hslot.tail ((htake _ hslot.tail).trans hP) h0 ?_ ?_
      (hfree P hPu).symm htab y hy
    · intro x y hx hy
      rw [htake x hx, htake y hy]
      exact h.inj x y hx hy
    · rw [Mem.tab_take, if_neg (hfree P hPu), Mem.tab, hv]
      rfl
    · intro j
      rw [Mem.tab_take, if_pos rfl]
  have hused : ∀ g, m'.used g = true ↔ m.used g = true ∨ g ∈ [f] := by
    intro g
    rw [← hm', mem_singleton]
    show (m.take f rest).used g = true ↔ _
    rw [Mem.take_used]
    by_cases e : g = f <;> simp [e]
  refine ⟨⟨⟨?_, ?_, ?_, ?_⟩, ?_, ?_, ?_, ?_, hused, ?_, ?_, ?_⟩, ?_⟩
  · rw [← hm']
    exact (h.sound.take hf).setPage _
  · exact h.inj.update hptr fun y hy e => by
      by_cases hy0 : ptr root m.tab y = 0
      · exact hpage.pos (by rw [← e, hy0])
      · exact hfree _ (h.used y hy hy0) e
  · intro x hx hne
    rw [hused]
    rw [hptr x hx] at hne ⊢
    split_ifs at hne ⊢ with e
    · exact .inr (mem_singleton_self f)
    · exact .inl (h.used x hx hne)
  · intro r' q j hx hq hne hval'
    rw [hptr _ hx.tail] at hne hval' ⊢
    rw [hpte] at hval' ⊢
    by_cases e : (r', q) = (r, i :: p)
    · rw [if_pos e] at hval'
      rw [if_neg (fun h => hfree P hPu h.1.symm), if_pos rfl] at hval'
      cases hval'
    · rw [if_neg e] at hne hval' ⊢
      split_ifs at hval' ⊢ with e1 e2
      · rw [hpa, hval, PTE_FLAGS_entry (by decide)]
        exact ⟨hpage.pos, rfl⟩
      · cases hval'
      · exact h.linked r' q j hx hq hne hval'
  · intro x hx hne
    rw [hptr x hx, if_neg]
    rintro rfl
    exact hne hz
  · -- The entries of a fresh last-level table are all 0, as if there were none.
    intro r' va
    unfold Mem.leaf
    rw [← ptr_last (m := m'), hptr _ (isSlot_last r' va), ← ptr_last (m := m)]
    by_cases e : (r', [PX 1 va, PX 2 va]) = (r, i :: p)
    · rw [if_pos e, if_neg hpage.pos, hpte, if_neg (fun h => hfree P hPu h.1.symm), if_pos rfl, e, hz, if_pos rfl]
    · rw [if_neg e]
      by_cases hl : ptr root m.tab (r', [PX 1 va, PX 2 va]) = 0
      · rw [if_pos hl, if_pos hl]
      · rw [if_neg hl, if_neg hl, hpte, if_neg, if_neg (hfree _ (h.used _ (isSlot_last r' va) hl))]
        rintro ⟨e1, -⟩
        have := h.inj _ _ (isSlot_last r' va) hslot.tail hl (by rw [e1, hP])
        simp only [Prod.mk.injEq] at this
        rw [← this.2] at hp
        simp at hp
  · intro g hg ht
    rw [← hm']
    show ((m.take f rest).setPage P _).page g = _
    have hgP : g ≠ P := by
      rintro rfl
      exact ht ⟨r, p, by omega, fun j hj => hi j (mem_cons_of_mem _ hj), hP⟩
    rw [Mem.setPage_page, if_neg hgP, Mem.take_page, if_neg fun e : g = f => hg.2 (e ▸ hmem)]
  · rw [hf, ← hm']
    rfl
  · intro g hg
    rw [mem_singleton]
    constructor
    · rintro ⟨r', q, hq, hqi, e⟩
      rw [hptr _ (isSlot_table hq hqi)] at e
      split_ifs at e with e1
      · exact .inr e.symm
      · exact .inl ⟨r', q, hq, hqi, e⟩
    · rintro (⟨r', q, hq, hqi, e⟩ | rfl)
      · refine ⟨r', q, hq, hqi, ?_⟩
        rw [hptr _ (isSlot_table hq hqi), if_neg, e]
        rintro e1
        rw [e1, hz] at e
        exact hg e.symm
      · exact ⟨r, i :: p, by simpa using hp, hi, by rw [hptr _ hslot, if_pos rfl]⟩
  · intro r' q hne hq hqi
    rw [hptr _ (isSlot_table hq hqi), if_neg]
    intro e
    exact hne (Prod.mk.inj e).1
  · rw [← hm']
    rfl
  · rw [hptr _ hslot, if_pos rfl]

omit h in
theorem wp_walkFrom_create {Q : Option Nat → Mem → Prop} :
    ∀ {l pt : Nat} {m : Mem}, Owned G root L m → l ≤ 2 → pt = ptr root m.tab (r, upper va l) → pt ≠ 0 →
      (∀ m' taken, Grown G root L r m m' taken →
        (m'.last (root r) va ≠ 0 → Q (some (m'.last (root r) va)) m') ∧ (m'.free = [] → Q none m')) →
      Stop.wp E (walkFrom va true l pt) Q m := by
  intro l
  induction l with
  | zero =>
    rintro pt m h - rfl h0 hQ
    exact (hQ m [] (.refl h)).1 h0
  | succ l ih =>
    rintro pt m h hl rfl h0 hQ
    obtain ⟨he, hv⟩ := h.ptr_upper (by omega) h0
    unfold walkFrom
    rw [wp_bind]
    apply wp_readPte (h.used _ (isSlot_upper r va _) h0)
    by_cases hp : isV (m.pte (ptr root m.tab (r, upper va (l + 1))) (PX (l + 1) va)) = true
    · rw [if_pos hp]
      rw [Mem.tab, if_pos hp] at he
      exact ih h (by omega) he.symm (by rw [← he]; exact hv hp) hQ
    · rw [if_neg hp, if_neg (by decide), wp_bind]
      apply wp_allocPage
      · intro hf
        exact (hQ m [] (.refl h)).2 hf
      · intro f rest hf
        have hmem : f ∈ m.free := by
          rw [hf]
          exact mem_cons_self
        have hu : m.used (ptr root m.tab (r, upper va (l + 1))) = true := h.used _ (isSlot_upper r va _) h0
        have hi : ∀ j ∈ PX (l + 1) va :: upper va (l + 1), j < 512 := by
          rw [← upper_succ (by omega)]
          exact (isSlot_upper (L := L) r va l).index
        obtain ⟨hg, hnew⟩ := h.link length_upper hi rfl h0 (by simpa using hp) hf
        rw [← upper_succ (by omega)] at hnew
        rw [if_neg (h.sound.page f hmem).pos, wp_bind]
        apply wp_writePte
        · rw [Mem.take_used, hu]
          exact ite_self _
        · exact ih hg.owned (by omega) hnew.symm (h.sound.page f hmem).pos fun m' taken hg' => hQ m' _ (hg.trans hg')

theorem wp_pteWalk_create {Q : Option (Nat × Nat) → Mem → Prop} (hr : root r ≠ 0) (hva : va ≤ MAX_VA)
    (hQ : ∀ m' taken, Grown G root L r m m' taken →
      (m'.last (root r) va ≠ 0 → Q (some (m'.last (root r) va, PX 0 va)) m') ∧ (m'.free = [] → Q none m')) :
    Stop.wp E (pteWalk (root r) va true) Q m := by
  unfold pteWalk
  rw [if_neg (Nat.not_lt.2 hva), wp_bind]
  exact @wp_walkFrom_create _ _ _ _ _ _ _ _ _ 2 _ _ h le_rfl rfl hr hQ

/-! ### Storing an entry -/

omit h in
structure Stored (root : ρ → Nat) (r : ρ) (va v : Nat) (m m' : Mem) : Prop where
  leaf : ∀ r' vb, m'.leaf (root r') vb = if r' = r ∧ path vb = path va then v else m.leaf (root r') vb
  table : ∀ r' p, p.length ≤ 2 → (∀ i ∈ p, i < 512) → ptr root m'.tab (r', p) = ptr root m.tab (r', p)
  page : ∀ f, f ≠ m.last (root r) va → m'.page f = m.page f
  free : m'.free = m.free
  used : m'.used = m.used
  stale : m'.stale = m.stale

theorem Owned.ptr_store {v : Nat} (hl : m.last (root r) va ≠ 0) (hv : v < 2 ^ 64) {x : ρ × List Nat} (hx : IsSlot L x) :
    ptr root (m.setPte (m.last (root r) va) (PX 0 va) v).tab x =
      if x = (r, path va) then (if isV v then PTE2PA v else 0) else ptr root m.tab x := by
  refine ptr_update (D := IsSlot L) (fun _ _ _ => IsSlot.tail) (fun r' j q hq he => ?_) ptr_last hl
    (fun j hj => absurd hj (not_isSlot_below j)) (fun c j => ?_) x hx
  · exact h.inj _ _ hq.tail (isSlot_last r va) (by rw [he]; exact hl) he
  · rw [Mem.tab_setPte, mod_eq_of_lt hv]

theorem Owned.stored {v : Nat} (hl : m.last (root r) va ≠ 0) (hv : v < 2 ^ 64) :
    Stored root r va v m (m.setPte (m.last (root r) va) (PX 0 va) v) := by
  have htab : ∀ r' p, p.length ≤ 2 → (∀ i ∈ p, i < 512) →
      ptr root (m.setPte (m.last (root r) va) (PX 0 va) v).tab (r', p) = ptr root m.tab (r', p) := by
    intro r' p hp hi
    rw [h.ptr_store hl hv (isSlot_table hp hi), if_neg]
    intro e
    simp only [Prod.mk.injEq] at e
    rw [e.2] at hp
    simp [path] at hp
  refine ⟨fun r' vb => ?_, htab, fun f hf => ?_, rfl, rfl, rfl⟩
  · have hlast : (m.setPte (m.last (root r) va) (PX 0 va) v).last (root r') vb = m.last (root r') vb :=
      htab r' _ le_rfl (isSlot_last (L := L) r' vb).index
    unfold Mem.leaf
    rw [hlast, Mem.pte_setPte, mod_eq_of_lt hv]
    by_cases e : r' = r ∧ path vb = path va
    · obtain ⟨rfl, e⟩ := e
      simp only [path, List.cons.injEq, and_true] at e
      have hl' : m.last (root r') vb = m.last (root r') va := by
        unfold Mem.last
        rw [e.2.1, e.2.2]
      rw [hl', if_neg hl, if_pos ⟨rfl, e.1⟩, if_pos ⟨rfl, by rw [path, path, e.1, e.2.1, e.2.2]⟩]
    · rw [if_neg e]
      by_cases h0 : m.last (root r') vb = 0
      · rw [if_pos h0, if_pos h0]
      · rw [if_neg h0, if_neg h0, if_neg]
        rintro ⟨e1, e2⟩
        obtain ⟨rfl, e3, e4⟩ := h.last_inj h0 e1
        exact e ⟨rfl, by rw [path, path, e2, e3, e4]⟩
  · show (m.setPage _ _).page f = _
    rw [Mem.setPage_page, if_neg hf]

/-- Storing an entry keeps the tables; a page mapped at an address that is followed
must be in use and serve nothing else. -/
theorem Owned.store {v : Nat} (hl : m.last (root r) va ≠ 0) (hv : v < 2 ^ 64)
    (hpage : ∀ vb, path vb = path va → L r vb → isV v = true → PTE2PA v ≠ 0 →
      m.used (PTE2PA v) = true ∧ ∀ y, IsSlot L y → y ≠ (r, path va) → ptr root m.tab y ≠ PTE2PA v) :
    Owned G root L (m.setPte (m.last (root r) va) (PX 0 va) v) := by
  have hcond : ∀ x, IsSlot L x → x = (r, path va) → (if isV v then PTE2PA v else 0) ≠ 0 →
      isV v = true ∧ m.used (PTE2PA v) = true ∧ ∀ y, IsSlot L y → y ≠ (r, path va) → ptr root m.tab y ≠ PTE2PA v := by
    rintro x hx rfl hne
    have hV : isV v = true := by
      by_contra hV
      simp [hV] at hne
    rw [if_pos hV] at hne
    rcases hx.place with hp | ⟨vb, hvb, hL⟩
    · simp [path] at hp
    · exact ⟨hV, hpage vb hvb.symm hL hV hne⟩
  refine ⟨h.sound.setPage _, ?_, fun x hx hne => ?_, fun r' p i hx hp hne hval => ?_⟩
  · intro x y hx hy hne he
    rw [h.ptr_store hl hv hx] at hne he
    rw [h.ptr_store hl hv hy] at he
    by_cases ex : x = (r, path va)
    · rw [if_pos ex] at hne he
      by_cases ey : y = (r, path va)
      · rw [ex, ey]
      · obtain ⟨hV, -, hfresh⟩ := hcond x hx ex hne
        rw [if_neg ey, if_pos hV] at he
        exact absurd he.symm (hfresh y hy ey)
    · rw [if_neg ex] at hne he
      by_cases ey : y = (r, path va)
      · rw [if_pos ey] at he
        obtain ⟨hV, -, hfresh⟩ := hcond y hy ey (by rw [← he]; exact hne)
        rw [if_pos hV] at he
        exact absurd he (hfresh x hx ex)
      · rw [if_neg ey] at he
        exact h.inj x y hx hy hne he
  · show m.used _ = true
    rw [h.ptr_store hl hv hx] at hne ⊢
    by_cases ex : x = (r, path va)
    · rw [if_pos ex] at hne ⊢
      obtain ⟨hV, hu, -⟩ := hcond x hx ex hne
      rwa [if_pos hV]
    · rw [if_neg ex] at hne ⊢
      exact h.used x hx hne
  · have he : ptr root (m.setPte (m.last (root r) va) (PX 0 va) v).tab (r', p) = ptr root m.tab (r', p) :=
      (h.stored hl hv).table r' p (by omega) hx.tail.index
    rw [he] at hne hval ⊢
    rw [Mem.pte_setPte, if_neg] at hval ⊢
    · exact h.linked r' p i hx hp hne hval
    · rintro ⟨e, -⟩
      have := h.inj _ _ hx.tail (isSlot_last r va) hne e
      simp only [Prod.mk.injEq] at this
      rw [this.2] at hp
      simp at hp
    · rintro ⟨e, -⟩
      have := h.inj _ _ hx.tail (isSlot_last r va) hne e
      simp only [Prod.mk.injEq] at this
      rw [this.2] at hp
      simp at hp

end

theorem Stored.isTable {v : Nat} {m' : Mem} (h : Stored root r va v m m') {f : Nat} :
    IsTable root m' f ↔ IsTable root m f := by
  constructor
  · rintro ⟨r', p, hp, hi, e⟩
    exact ⟨r', p, hp, hi, by rw [← h.table r' p hp hi, e]⟩
  · rintro ⟨r', p, hp, hi, e⟩
    exact ⟨r', p, hp, hi, by rw [h.table r' p hp hi, e]⟩

end Spaces

/-! ## Translation -/

section Translation

variable {G : Gmd} {ρ : Type} {root : ρ → Nat} {L : ρ → Nat → Prop} {m : Mem} {r : ρ} {va vb : Nat}

/-- What `va2pa` answers. -/
def Mem.translate (m : Mem) (pt va : Nat) : Nat :=
  if isV (m.leaf pt va) then PTE2PA (m.leaf pt va) ||| va % 4096 else 2 ^ 64 - 1

theorem va2pa_eq (h : Owned G root L m) (hr : root r ≠ 0) (va : Nat) :
    va2pa (root r) va m = .ok (m.translate (root r) va, m) := by
  have hwp : Stop.wp (fun _ => False) (va2pa (root r) va) (fun a m' => a = m.translate (root r) va ∧ m' = m) m := by
    obtain ⟨e1, h1⟩ := @Owned.ptr_upper G ρ root L m r va h 1 (by omega) hr
    have hroot : ptr root m.tab (r, upper va 2) = root r := rfl
    rw [hroot] at e1 h1
    unfold va2pa
    rw [wp_bind]
    apply wp_readPte (h.root_used hr)
    by_cases hv : isV (m.pte (root r) (PX 2 va)) = true
    · have e1' : ptr root m.tab (r, upper va 1) = PTE2PA (m.pte (root r) (PX 2 va)) := by
        rw [e1, Mem.tab, if_pos hv]
      have h1 := h1 hv
      obtain ⟨e0, h0⟩ := h.ptr_upper (l := 0) (by omega) h1
      rw [if_neg (by rw [hv]; decide), wp_bind]
      apply wp_readPte (e1' ▸ h.used _ (isSlot_upper r va 1) h1)
      rw [e1'] at e0 h0
      by_cases hv' : isV (m.pte (PTE2PA (m.pte (root r) (PX 2 va))) (PX 1 va)) = true
      · have e0' : m.last (root r) va = PTE2PA (m.pte (PTE2PA (m.pte (root r) (PX 2 va))) (PX 1 va)) := by
          rw [← ptr_last, show [PX 1 va, PX 2 va] = upper va 0 from rfl, e0, Mem.tab, if_pos hv']
        have h0 : m.last (root r) va ≠ 0 := h0 hv'
        have hleaf : m.leaf (root r) va = m.pte (m.last (root r) va) (PX 0 va) := by rw [Mem.leaf, if_neg h0]
        rw [if_neg (by rw [hv']; decide), wp_bind]
        apply wp_readPte (e0' ▸ h.last_used h0)
        rw [← e0', ← hleaf]
        unfold Mem.translate
        by_cases hl : isV (m.leaf (root r) va) = true
        · rw [if_neg (by rw [hl]; decide), if_pos hl]
          exact ⟨rfl, rfl⟩
        · rw [if_pos (by simpa using hl), if_neg hl]
          exact ⟨rfl, rfl⟩
      · rw [if_pos (by simpa using hv')]
        have h0 : m.last (root r) va = 0 := by
          rw [← ptr_last, show [PX 1 va, PX 2 va] = upper va 0 from rfl, e0, Mem.tab, if_neg hv']
        refine ⟨?_, rfl⟩
        rw [Mem.translate, Mem.leaf, if_pos h0]
        rfl
    · rw [if_pos (by simpa using hv)]
      have h1 : ptr root m.tab (r, upper va 1) = 0 := by rw [e1, Mem.tab, if_neg hv]
      refine ⟨?_, rfl⟩
      rw [Mem.translate, Mem.leaf, if_pos (last_eq_zero (l := 1) (by omega) h1)]
      rfl
  obtain ⟨a, m', he, rfl, rfl⟩ := ok_of_wp hwp
  exact he

theorem wp_walkaddr {E : Halt → Prop} {Q : Nat → Mem → Prop} (h : Owned G root L m) (hr : root r ≠ 0)
    (hQ : Q (if va < MAX_VA ∧ isV (m.leaf (root r) va) = true ∧ isU (m.leaf (root r) va) = true
      then PTE2PA (m.leaf (root r) va) else 0) m) : Stop.wp E (walkaddr (root r) va) Q m := by
  unfold walkaddr
  by_cases hva : va ≥ MAX_VA
  · rw [if_neg (by omega)] at hQ
    rw [if_pos hva]
    exact hQ
  rw [if_neg hva, wp_bind]
  refine wp_pteWalk_find h hr (by omega) (fun hl => ?_) fun hl => ?_
  · dsimp only
    rw [wp_bind]
    apply wp_readPte (h.last_used hl)
    have hleaf : m.pte (m.last (root r) va) (PX 0 va) = m.leaf (root r) va := by rw [Mem.leaf, if_neg hl]
    rw [hleaf]
    cases hv : isV (m.leaf (root r) va)
    · rw [if_neg (by simp [hv])] at hQ
      rw [if_pos rfl]
      exact hQ
    · cases hu : isU (m.leaf (root r) va)
      · rw [if_neg (by simp [hu])] at hQ
        rw [if_neg (by decide), if_pos rfl]
        exact hQ
      · rw [if_pos ⟨by omega, hv, hu⟩] at hQ
        rw [if_neg (by decide), if_neg (by decide)]
        exact hQ
  · have hleaf : m.leaf (root r) va = 0 := by rw [Mem.leaf, if_pos hl]
    rw [hleaf, if_neg (by simp [isV])] at hQ
    exact hQ

end Translation

end Mm
