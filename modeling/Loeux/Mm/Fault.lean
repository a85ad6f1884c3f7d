import Loeux.Mm.Mapping
/-!
# Page faults

A page fault in the heap adds one page of zeros to the address space of the task,
or nothing if there is no memory. What the other spaces, and the other addresses
of this one, translate to stays the same.
-/

namespace Mm

open Lib Lib.Forest List Stop

structure Taken (m m' : Mem) (taken : List Nat) : Prop where
  free : m.free.Perm (taken ++ m'.free)
  used : ∀ g, m'.used g = true ↔ m.used g = true ∨ g ∈ taken

section Taken

variable {G : Gmd} {m m' m'' : Mem} {l l' : List Nat}

theorem Taken.refl (m : Mem) : Taken m m [] := ⟨.refl _, by simp⟩

theorem Taken.trans (h : Taken m m' l) (h' : Taken m' m'' l') : Taken m m'' (l ++ l') where
  free := by
    rw [append_assoc]
    exact h.free.trans (h'.free.append_left l)
  used g := by rw [h'.used, h.used, mem_append, or_assoc]

theorem Taken.unused (h : Taken m m' l) (hs : m.Sound G) {g : Nat} (hg : g ∈ l) : m.used g = false :=
  hs.unused g (h.free.mem_iff.2 (mem_append_left _ hg))

end Taken

section Slots

variable {G : Gmd} {ρ : Type} {root : ρ → Nat} {L : ρ → Nat → Prop} {m m' : Mem} {f : Nat} {rest l : List Nat}
  {b : Bytes}

def Mem.fill (m : Mem) (f : Nat) (rest : List Nat) (b : Bytes) : Mem := (m.take f rest).setPage f b

theorem Mem.take_eq_fill : m.take f rest = m.fill f rest Bytes.zero := by
  unfold Mem.fill Mem.setPage Mem.take
  simp

theorem Mem.fill_page (g : Nat) : (m.fill f rest b).page g = if g = f then b else m.page g := by
  rw [Mem.fill, Mem.setPage_page, Mem.take_page]
  split_ifs <;> rfl

theorem Mem.fill_used (g : Nat) : (m.fill f rest b).used g = if g = f then true else m.used g := Mem.take_used m f g rest

section

variable (h : Owned G root L m)

include h

theorem Owned.ptr_ne_of_unused (hf : m.used f = false) (h0 : f ≠ 0) {x : ρ × List Nat}
    (hx : IsSlot L x) : ptr root m.tab x ≠ f := by
  rintro rfl
  rw [h.used x hx h0] at hf
  cases hf

variable (hf : m.free = f :: rest)

include hf

theorem Owned.page_fill {g : Nat} (hg : IsTable root m g) (h0 : g ≠ 0) : (m.fill f rest b).page g = m.page g := by
  rw [Mem.fill_page, if_neg]
  rintro rfl
  exact h.sound.not_mem (h.isTable_used hg h0) (by rw [hf]; exact mem_cons_self)

theorem Owned.ptr_fill {x : ρ × List Nat} (hx : IsSlot L x) : ptr root (m.fill f rest b).tab x = ptr root m.tab x :=
  ptr_of_page (fun _ hg h0 => h.page_fill hf hg h0) hx

theorem Owned.leaf_fill (r : ρ) (vb : Nat) : (m.fill f rest b).leaf (root r) vb = m.leaf (root r) vb :=
  leaf_of_page (fun _ hg h0 => h.page_fill hf hg h0) r vb

theorem Owned.isTable_fill {g : Nat} : IsTable root (m.fill f rest b) g ↔ IsTable root m g := by
  constructor
  · rintro ⟨r', p, hlen, hi, e⟩
    exact ⟨r', p, hlen, hi, by rw [← h.ptr_fill hf (isSlot_table hlen hi), e]⟩
  · rintro ⟨r', p, hlen, hi, e⟩
    exact ⟨r', p, hlen, hi, by rw [h.ptr_fill hf (isSlot_table hlen hi), e]⟩

theorem Owned.fill : Owned G root L (m.fill f rest b) := by
  have hmem : f ∈ m.free := by
    rw [hf]
    exact mem_cons_self
  refine (h.take hf).setPage (fun ht => ?_) b
  rw [Mem.take_eq_fill, h.isTable_fill hf] at ht
  exact h.sound.not_mem (h.isTable_used ht (h.sound.page f hmem).pos) hmem

end

theorem Grown.ptr_ne {t : ρ} (h : Grown G root L t m m' l) (hf : ∀ x, IsSlot L x → ptr root m.tab x ≠ f) (h0 : f ≠ 0)
    (ht : f ∉ l) {x : ρ × List Nat} (hx : IsSlot L x) : ptr root m'.tab x ≠ f := by
  obtain ⟨r, p⟩ := x
  rcases hx.place with hp | ⟨va, e, -⟩
  · intro e
    rcases (h.table f h0).1 ⟨r, p, hp, hx.index, e⟩ with ⟨r', q, hq, hi, e'⟩ | h'
    · exact hf _ (isSlot_table hq hi) e'
    · exact ht h'
  · obtain rfl : p = path va := e
    rw [ptr_leaf, h.leaf, ← ptr_leaf]
    exact hf _ hx

theorem page_give (hf : ¬IsTable root m f) {g : Nat} (hg : IsTable root m g) : (m.give f).page g = m.page g := by
  rw [Mem.give_page, if_neg]
  rintro rfl
  exact hf hg

theorem leaf_give (hf : ¬IsTable root m f) (r : ρ) (vb : Nat) : (m.give f).leaf (root r) vb = m.leaf (root r) vb :=
  leaf_of_page (fun _ hg _ => page_give hf hg) r vb

theorem isTable_give (hf : ¬IsTable root m f) {g : Nat} : IsTable root (m.give f) g ↔ IsTable root m g := by
  have hp : ∀ x, IsSlot (fun _ _ => False) x → ptr root (m.give f).tab x = ptr root m.tab x :=
    fun x hx => ptr_of_page (fun _ hg _ => page_give hf hg) hx
  constructor
  · rintro ⟨r', p, hlen, hi, e⟩
    exact ⟨r', p, hlen, hi, by rw [← hp _ (isSlot_table hlen hi), e]⟩
  · rintro ⟨r', p, hlen, hi, e⟩
    exact ⟨r', p, hlen, hi, by rw [hp _ (isSlot_table hlen hi), e]⟩

end Slots

section Fault

variable {G : Gmd} {ρ : Type} {root : ρ → Nat} {L : ρ → Nat → Prop} {m m' : Mem} {t : ρ} {va f : Nat}
  {tables rest : List Nat} {b : Bytes}

/-- Nothing happened but that the pages in `tables` became tables of the space `t`. -/
structure Quiet (G : Gmd) (root : ρ → Nat) (L : ρ → Nat → Prop) (t : ρ) (m m' : Mem) (tables : List Nat) : Prop where
  owned : Owned G root L m'
  leaf : ∀ r vb, m'.leaf (root r) vb = m.leaf (root r) vb
  page : ∀ g, m.Held g → ¬IsTable root m g → m'.page g = m.page g
  taken : Taken m m' tables
  table : ∀ g, g ≠ 0 → (IsTable root m' g ↔ IsTable root m g ∨ g ∈ tables)
  apart : Apart root t m m'
  stale : m'.stale = m.stale

/-- The page `f`, which was not in use, was filled with `b` and mapped at `va` in the space `t`
with the flags `perm`. -/
structure Made (G : Gmd) (root : ρ → Nat) (L : ρ → Nat → Prop) (t : ρ) (va f : Nat) (b : Bytes) (perm : Nat)
    (m m' : Mem) (tables : List Nat) : Prop where
  owned : Owned G root L m'
  empty : isV (m.leaf (root t) va) = false
  here : ∀ vb, path vb = path va → m'.leaf (root t) vb = PA2PTE f ||| perm ||| PTE_V
  elsewhere : ∀ r vb, ¬(r = t ∧ path vb = path va) → m'.leaf (root r) vb = m.leaf (root r) vb
  isPage : G.Page f
  noTable : ¬IsTable root m' f
  content : m'.page f = b
  page : ∀ g, m.Held g → ¬IsTable root m g → m'.page g = m.page g
  taken : Taken m m' (f :: tables)
  table : ∀ g, g ≠ 0 → (IsTable root m' g ↔ IsTable root m g ∨ g ∈ tables)
  apart : Apart root t m m'
  stale : m'.stale = m.stale

def Kept (root : ρ → Nat) (m m' : Mem) : Prop :=
  ∀ r vb, isV (m.leaf (root r) vb) = true → m'.leaf (root r) vb = m.leaf (root r) vb

theorem Made.kept {perm : Nat} (h : Made G root L t va f b perm m m' tables) : Kept root m m' := by
  intro r vb hv
  apply h.elsewhere
  rintro ⟨rfl, e⟩
  rw [leaf_congr e, h.empty] at hv
  cases hv

theorem Quiet.refl (h : Owned G root L m) : Quiet G root L t m m [] :=
  ⟨h, fun _ _ => rfl, fun _ _ _ => rfl, .refl m, by simp, .refl root t m, rfl⟩

theorem PTE2PA_page {perm : Nat} (hf : G.Page f) (hp : perm < 1024) : PTE2PA (PA2PTE f ||| perm ||| PTE_V) = f := by
  rw [PTE2PA_entry hf.lt hp]
  have := hf.aligned
  simp only [PG_4K_SIZE] at this
  omega

theorem ptr_setPage {b : Bytes} (hf : ¬IsTable root m f) {x : ρ × List Nat} (hx : IsSlot L x) :
    ptr root (m.setPage f b).tab x = ptr root m.tab x := by
  refine ptr_of_page (fun g hg _ => ?_) hx
  rw [Mem.setPage_page, if_neg]
  rintro rfl
  exact hf hg

theorem leaf_setPage {b : Bytes} (hf : ¬IsTable root m f) (r : ρ) (vb : Nat) :
    (m.setPage f b).leaf (root r) vb = m.leaf (root r) vb := by
  refine leaf_of_page (fun g hg _ => ?_) r vb
  rw [Mem.setPage_page, if_neg]
  rintro rfl
  exact hf hg

theorem isTable_setPage {b : Bytes} (hf : ¬IsTable root m f) {g : Nat} :
    IsTable root (m.setPage f b) g ↔ IsTable root m g := by
  constructor
  · rintro ⟨r', p, hlen, hi, e⟩
    exact ⟨r', p, hlen, hi, by rw [← ptr_setPage hf (isSlot_table (L := fun _ _ => False) hlen hi), e]⟩
  · rintro ⟨r', p, hlen, hi, e⟩
    exact ⟨r', p, hlen, hi, by rw [ptr_setPage hf (isSlot_table (L := fun _ _ => False) hlen hi), e]⟩

theorem Owned.spare (h : Owned G root L m) (hf : m.free = f :: rest)
    (hg : Grown G root L t (m.fill f rest b) m' tables) : G.Page f ∧ m.used f = false ∧ f ∉ tables ∧
      m'.used f = true ∧ (∀ x, IsSlot L x → ptr root m'.tab x ≠ f) ∧ ¬IsTable root m' f := by
  have hmem : f ∈ m.free := by
    rw [hf]
    exact mem_cons_self
  have hpage := h.sound.page f hmem
  have hunused := h.sound.unused f hmem
  have hft : f ∉ tables := fun ht => by
    have hn := h.sound.nodup
    rw [hf, nodup_cons] at hn
    apply hn.1
    rw [show rest = tables ++ m'.free from hg.free]
    exact mem_append_left _ ht
  have hslot : ∀ x, IsSlot L x → ptr root m'.tab x ≠ f := fun x hx => by
    refine hg.ptr_ne (fun x hx => ?_) hpage.pos hft hx
    rw [h.ptr_fill hf hx]
    exact h.ptr_ne_of_unused hunused hpage.pos hx
  refine ⟨hpage, hunused, hft, (hg.used f).2 (.inl ?_), hslot, ?_⟩
  · rw [Mem.fill_used, if_pos rfl]
  · rintro ⟨r, p, hp, hi, e⟩
    exact hslot (r, p) (isSlot_table hp hi) e

theorem Owned.page_spare (h : Owned G root L m) (hf : m.free = f :: rest)
    (hg : Grown G root L t (m.fill f rest b) m' tables) {g : Nat} (hu : m.Held g) (ht : ¬IsTable root m g) :
    g ≠ f ∧ m'.page g = m.page g := by
  have hne : g ≠ f := by
    rintro rfl
    exact hu.2 (by rw [hf]; exact mem_cons_self)
  have hu' : (m.fill f rest b).Held g := ⟨hu.1, fun hm => hu.2 (by rw [hf]; exact mem_cons_of_mem _ hm)⟩
  refine ⟨hne, ?_⟩
  rw [hg.page g hu' (by rwa [h.isTable_fill hf]), Mem.fill_page, if_neg hne]

theorem Owned.quiet_back (h : Owned G root L m) (hf : m.free = f :: rest)
    (hg : Grown G root L t (m.fill f rest b) m' tables) : Quiet G root L t m (m'.give f) tables := by
  obtain ⟨hpage, hunused, hft, hu, hslot, hnt⟩ := h.spare hf hg
  refine ⟨hg.owned.give hu hslot, fun r vb => ?_, fun g hgu hgt => ?_, ⟨?_, fun g => ?_⟩, fun g h0 => ?_,
    fun r' p hne hp hi => ?_, hg.stale⟩
  · rw [leaf_give hnt, hg.leaf, h.leaf_fill hf]
  · obtain ⟨hne, hp⟩ := h.page_spare hf hg hgu hgt
    rw [Mem.give_page, if_neg hne, hp]
  · rw [hf, show rest = tables ++ m'.free from hg.free, Mem.give_free, ← append_assoc]
    exact (perm_append_singleton f _).symm
  · rw [Mem.give_used]
    by_cases e : g = f
    · subst e
      simp [hunused, hft]
    · simp [e, hg.used, Mem.fill_used]
  · rw [isTable_give hnt, hg.table g h0, h.isTable_fill hf]
  · rw [ptr_of_page (fun _ hg _ => page_give hnt hg) (isSlot_table (L := L) hp hi), hg.apart r' p hne hp hi,
      h.ptr_fill hf (isSlot_table hp hi)]

variable [DecidableEq ρ]

theorem Owned.made {perm : Nat} (h : Owned G root L m) (hf : m.free = f :: rest)
    (hempty : isV (m.leaf (root t) va) = false) (hperm : perm < 1024)
    (hg : Grown G root L t (m.fill f rest b) m' tables) (hl : m'.last (root t) va ≠ 0) :
    Made G root L t va f b perm m (m'.setPte (m'.last (root t) va) (PX 0 va) (PA2PTE f ||| perm ||| PTE_V)) tables := by
  obtain ⟨hpage, hunused, hft, hu, hslot, hnt⟩ := h.spare hf hg
  have hpa : PTE2PA (PA2PTE f ||| perm ||| PTE_V) = f := by
    rw [PTE2PA_entry hpage.lt hperm]
    have := hpage.aligned
    simp only [PG_4K_SIZE] at this
    omega
  have hs := hg.owned.stored hl (entry_lt hpage.lt hperm)
  have hlt : IsTable root m' (m'.last (root t) va) := ⟨t, _, le_rfl, (isSlot_last (L := L) t va).index, rfl⟩
  refine ⟨?_, hempty, fun vb e => ?_, fun r vb hne => ?_, hpage, ?_, ?_, fun g hgu hgt => ?_, ⟨?_, fun g => ?_⟩,
    fun g h0 => ?_, fun r' p hne hp hi => ?_, hs.stale.trans hg.stale⟩
  · refine hg.owned.store hl (entry_lt hpage.lt hperm) fun _ _ _ _ _ => ?_
    rw [hpa]
    exact ⟨hu, fun y hy _ => hslot y hy⟩
  · rw [hs.leaf, if_pos ⟨rfl, e⟩]
  · rw [hs.leaf, if_neg hne, hg.leaf, h.leaf_fill hf]
  · rwa [hs.isTable]
  · have hfl : f ≠ m'.last (root t) va := by
      rintro rfl
      exact hnt hlt
    have hfree : f ∉ rest := by
      have hn := h.sound.nodup
      rw [hf, nodup_cons] at hn
      exact hn.1
    rw [hs.page f hfl, hg.page f ⟨hpage.pos, hfree⟩, Mem.fill_page, if_pos rfl]
    rw [h.isTable_fill hf]
    rintro ht
    rw [h.isTable_used ht hpage.pos] at hunused
    cases hunused
  · rw [hs.page, (h.page_spare hf hg hgu hgt).2]
    rintro rfl
    rcases (hg.table _ hl).1 hlt with h' | h'
    · exact hgt ((h.isTable_fill hf).1 h')
    · have := hgu.2
      rw [hf, show rest = tables ++ m'.free from hg.free] at this
      exact this (mem_cons_of_mem _ (mem_append_left _ h'))
  · rw [hs.free, hf, show rest = tables ++ m'.free from hg.free]
    rfl
  · rw [hs.used, hg.used, Mem.fill_used, mem_cons]
    by_cases e : g = f <;> simp [e]
  · rw [hs.isTable, hg.table g h0, h.isTable_fill hf]
  · rw [hs.table r' p hp hi, hg.apart r' p hne hp hi, h.ptr_fill hf (isSlot_table hp hi)]

variable {E : Halt → Prop}

theorem wp_mappages_far {Q : Bool → Mem → Prop} {pt pa perm : Nat} (halign : va % PG_4K_SIZE = 0) (hva : MAX_VA < va)
    (hrounds : 0 < G.rounds ∨ E .endless) (hQ : Q false m) :
    Stop.wp E (mappages G pt va PG_4K_SIZE pa perm) Q m := by
  unfold mappages
  rw [if_neg (by rw [halign]; decide), if_neg (by decide), if_neg (by decide)]
  refine wp_loop (fun k x m' => k = 0 ∧ x = (va, pa) ∧ m' = m) ?_ hrounds ⟨rfl, rfl, rfl⟩
  rintro k x m' ⟨-, rfl, rfl⟩
  unfold mapRound pteWalk
  rw [if_pos hva]
  exact hQ

def PTE_HEAP : Nat := PTE_V ||| PTE_W ||| PTE_R ||| PTE_U

theorem wp_doPageFaultWithNewPa {Q : Option Nat → Mem → Prop} {ts : Heap} {fault_addr : Nat} {type : PageFaultType}
    (h : Owned G root L m) (ht : root t = ts.pg) (hpg : ts.pg ≠ 0) (hrounds : 0 < G.rounds ∨ E .endless)
    (hremap : type ≠ .instruction → ts.heap_start ≤ fault_addr → fault_addr < ts.heap_brk →
      isV (m.leaf ts.pg (PGROUNDDOWN fault_addr)) = true → E (.panic "mappages: remap\n"))
    (hnone : ∀ m' tables, Quiet G root L t m m' tables → Q none m')
    (hsome : ts.heap_start ≤ fault_addr → fault_addr < ts.heap_brk → PGROUNDDOWN fault_addr ≤ MAX_VA →
      ∀ f m' tables, Made G root L t (PGROUNDDOWN fault_addr) f Bytes.zero PTE_HEAP m m' tables → Q (some f) m') :
    Stop.wp E (doPageFaultWithNewPa G ts fault_addr type) Q m := by
  unfold doPageFaultWithNewPa
  by_cases htype : type = .instruction
  · rw [if_pos htype]
    exact hnone m [] (.refl h)
  rw [if_neg htype]
  by_cases hrange : fault_addr < ts.heap_start ∨ fault_addr ≥ ts.heap_brk
  · rw [if_pos hrange]
    exact hnone m [] (.refl h)
  rw [if_neg hrange, wp_bind]
  apply wp_allocPage
  · intro _
    exact hnone m [] (.refl h)
  intro f rest hf
  have hmem : f ∈ m.free := by
    rw [hf]
    exact mem_cons_self
  rw [if_neg (h.sound.page f hmem).pos, wp_bind, Mem.take_eq_fill]
  have halign : PGROUNDDOWN fault_addr % PG_4K_SIZE = 0 := Nat.mul_mod_left _ _
  have hback : ∀ m' tables, Grown G root L t (m.fill f rest Bytes.zero) m' tables →
      Stop.wp E (do freePage G f; pure none) Q m' := by
    intro m' tables hg
    obtain ⟨-, -, -, hu, -⟩ := h.spare hf hg
    rw [wp_bind]
    exact wp_freePage hg.owned.sound hu (hnone _ _ (h.quiet_back hf hg))
  by_cases hva : MAX_VA < PGROUNDDOWN fault_addr
  · exact wp_mappages_far halign hva hrounds (hback _ _ (.refl (h.fill hf)))
  rw [← ht]
  refine wp_mappages_one (h.fill hf) (by rwa [ht]) halign (Nat.not_lt.1 hva) hrounds (fun hv => ?_)
    (fun m' tables hg _ => hback m' tables hg) fun hv m' tables hg hl => ?_
  · rw [h.leaf_fill hf, ht] at hv
    exact hremap htype (by omega) (by omega) hv
  · rw [h.leaf_fill hf] at hv
    exact hsome (by omega) (by omega) (Nat.not_lt.1 hva) f _ tables (h.made hf hv (by decide) hg hl)

end Fault

end Mm
