import Loeux.Mm.Fault
/-!
# User memory

What the kernel may do to the memory of a user on its behalf: bytes are stored in
pages that are mapped for the user, and pages are added to the heap on demand.
`copy_to_user`, `copy_from_user` and `copy_str_from_user` do nothing else.
-/

namespace Mm

open Lib Lib.Forest Function List Stop Nat

def Mem.user (m : Mem) (pt va : Nat) : Prop :=
  va < MAX_VA ∧ isV (m.leaf pt va) = true ∧ isU (m.leaf pt va) = true

instance (m : Mem) (pt va : Nat) : Decidable (m.user pt va) := inferInstanceAs (Decidable (_ ∧ _))

def Mem.byte (m : Mem) (pt va : Nat) : UInt8 := m.page (PTE2PA (m.leaf pt va)) (va % 4096)

def Mem.byte0 (m : Mem) (pt va : Nat) : UInt8 := if isV (m.leaf pt va) then m.byte pt va else 0

/-- The space `r` is followed wherever it is not mapped for the kernel alone. -/
def Followed {ρ : Type} (root : ρ → Nat) (L : ρ → Nat → Prop) (m : Mem) : Prop :=
  ∀ r va, root r ≠ 0 → (isV (m.leaf (root r) va) = true → isU (m.leaf (root r) va) = true) → L r va

def Present {ρ : Type} (root : ρ → Nat) (m : Mem) : Prop :=
  ∀ r va, isV (m.leaf (root r) va) = true → isU (m.leaf (root r) va) = true → PTE2PA (m.leaf (root r) va) ≠ 0

/-- From `m` on the bytes in `W` were stored in user memory, and pages were added to
the heap of `ts`, the task of the space `t`. -/
structure Served (G : Gmd) {ρ : Type} (root : ρ → Nat) (L : ρ → Nat → Prop) (t : ρ) (ts : Heap)
    (W : ρ → Nat → Option UInt8) (m m' : Mem) : Prop where
  owned : Owned G root L m'
  keep : ∀ r vb, isV (m.leaf (root r) vb) = true → m'.leaf (root r) vb = m.leaf (root r) vb
  fresh : ∀ r vb, isV (m.leaf (root r) vb) = false → isV (m'.leaf (root r) vb) = true →
    r = t ∧ (∃ a, ts.heap_start ≤ a ∧ a < ts.heap_brk ∧ PGROUNDDOWN a ≤ MAX_VA ∧ path vb = path a) ∧
      ∃ f, m'.leaf (root r) vb = PA2PTE f ||| PTE_HEAP ||| PTE_V ∧ G.Page f ∧ m.used f = false
  wrote : ∀ r vb b, W r vb = some b → vb < 2 ^ 39 ∧ isV (m'.leaf (root r) vb) = true ∧ isU (m'.leaf (root r) vb) = true
  byte : ∀ r vb, vb < 2 ^ 39 → isV (m'.leaf (root r) vb) = true → isU (m'.leaf (root r) vb) = true →
    m'.byte (root r) vb = (W r vb).getD (m.byte0 (root r) vb)
  other : ∀ g, m.Held g → ¬IsTable root m g →
    (∀ r vb b, W r vb = some b → PTE2PA (m'.leaf (root r) vb) ≠ g) → m'.page g = m.page g
  taken : ∃ pages tables, Taken m m' (pages ++ tables) ∧
    (∀ g ∈ pages, ∃ vb, isV (m.leaf (root t) vb) = false ∧ m'.leaf (root t) vb = PA2PTE g ||| PTE_HEAP ||| PTE_V) ∧
    ∀ g, g ≠ 0 → (IsTable root m' g ↔ IsTable root m g ∨ g ∈ tables)
  stale : m'.stale = m.stale

section

variable {G : Gmd} {ρ : Type} {root : ρ → Nat} {L : ρ → Nat → Prop} {r t : ρ} {ts : Heap}
  {W : ρ → Nat → Option UInt8} {m m' m'' : Mem} {va f : Nat}

theorem isV_heap (f : Nat) : isV (PA2PTE f ||| PTE_HEAP ||| PTE_V) = true := isV_entry _

theorem isU_heap (f : Nat) : isU (PA2PTE f ||| PTE_HEAP ||| PTE_V) = true := by
  rw [isU, testBit_flags _ (by decide), PTE_FLAGS_entry (by decide)]
  rfl

theorem isW_heap (f : Nat) : isW (PA2PTE f ||| PTE_HEAP ||| PTE_V) = true := by
  rw [isW, testBit_flags _ (by decide), PTE_FLAGS_entry (by decide)]
  rfl

theorem isR_heap (f : Nat) : isR (PA2PTE f ||| PTE_HEAP ||| PTE_V) = true := by
  rw [isR, testBit_flags _ (by decide), PTE_FLAGS_entry (by decide)]
  rfl

theorem root_ne_of_isV (h : isV (m.leaf (root r) va) = true) : root r ≠ 0 := by
  intro h0
  rw [leaf_of_root_zero h0] at h
  cases h

theorem Owned.user_page (h : Owned G root L m) (hf : Followed root L m) (hp : Present root m)
    (hv : isV (m.leaf (root r) va) = true) (hu : isU (m.leaf (root r) va) = true) :
    m.used (PTE2PA (m.leaf (root r) va)) = true ∧
      (∀ x, IsSlot L x → x ≠ (r, path va) → ptr root m.tab x ≠ PTE2PA (m.leaf (root r) va)) ∧
      ¬IsTable root m (PTE2PA (m.leaf (root r) va)) :=
  h.ptr_of_leaf (hf r va (root_ne_of_isV hv) fun _ => hu) hv (hp r va hv hu)

variable {vb : Nat}

theorem Owned.user_inj (h : Owned G root L m) (hf : Followed root L m) (hp : Present root m) {r' : ρ}
    (hv : isV (m.leaf (root r) va) = true) (hu : isU (m.leaf (root r) va) = true)
    (hv' : isV (m.leaf (root r') vb) = true) (hu' : isU (m.leaf (root r') vb) = true)
    (e : PTE2PA (m.leaf (root r') vb) = PTE2PA (m.leaf (root r) va)) : r' = r ∧ path vb = path va := by
  by_contra hne
  obtain ⟨-, h1, -⟩ := h.user_page hf hp hv hu
  refine h1 (r', path vb) (isSlot_leaf (hf r' vb (root_ne_of_isV hv') fun _ => hu')) (fun e => ?_) ?_
  · simp only [Prod.mk.injEq] at e
    exact hne e
  · rw [ptr_leaf, if_pos hv', e]

theorem Served.refl (h : Owned G root L m) : Served G root L t ts (fun _ _ => none) m m where
  owned := h
  keep _ _ _ := rfl
  fresh r vb h0 h1 := by
    rw [h0] at h1
    cases h1
  wrote _ _ _ h := by cases h
  byte r vb _ hv _ := by rw [Mem.byte0, if_pos hv]; rfl
  other _ _ _ _ := rfl
  taken := ⟨[], [], .refl m, by simp, by simp⟩
  stale := rfl

theorem Served.followed (h : Served G root L t ts W m m') (hf : Followed root L m) : Followed root L m' := by
  intro r va hr hu
  apply hf r va hr
  intro hv
  rw [h.keep r va hv] at hu
  exact hu hv

theorem Served.present (h : Served G root L t ts W m m') (hp : Present root m) : Present root m' := by
  intro r va hv hu
  by_cases hm : isV (m.leaf (root r) va) = true
  · rw [h.keep r va hm] at hv hu ⊢
    exact hp r va hv hu
  · obtain ⟨-, -, f, e, hpage, -⟩ := h.fresh r va (by simpa using hm) hv
    rw [e, PTE2PA_page hpage (by decide)]
    exact hpage.pos

theorem Served.used (h : Served G root L t ts W m m') {g : Nat} (hg : m.used g = true) : m'.used g = true := by
  obtain ⟨pages, tables, ht, -, -⟩ := h.taken
  exact (ht.used g).2 (.inl hg)

theorem Served.held (h : Served G root L t ts W m m') {g : Nat} (hg : m.Held g) :
    m'.Held g ∧ (IsTable root m' g → IsTable root m g) := by
  obtain ⟨pages, tables, htk, -, htab⟩ := h.taken
  obtain ⟨hl, hg'⟩ := hg.not_taken htk.free
  exact ⟨hg', fun ht => ((htab g hg.1).1 ht).resolve_right fun h' => hl (mem_append_right pages h')⟩

theorem Served.quiet {tables : List Nat} (hf : Followed root L m) (hp : Present root m)
    (h : Served G root L t ts W m m') (hq : Quiet G root L t m' m'' tables) : Served G root L t ts W m m'' where
  owned := hq.owned
  keep r vb hv := by rw [hq.leaf, h.keep r vb hv]
  fresh r vb h0 h1 := by
    rw [hq.leaf] at h1 ⊢
    exact h.fresh r vb h0 h1
  wrote r vb b hb := by
    rw [hq.leaf]
    exact h.wrote r vb b hb
  byte r vb hvb hv hu := by
    rw [hq.leaf] at hv hu
    obtain ⟨h1, -, h2⟩ := h.owned.user_page (h.followed hf) (h.present hp) hv hu
    rw [← h.byte r vb hvb hv hu, Mem.byte, Mem.byte, hq.leaf, hq.page _ (h.owned.sound.held h1) h2]
  other g hg ht hne := by
    rw [hq.page g (h.held hg).1 fun ht' => ht ((h.held hg).2 ht')]
    refine h.other g hg ht fun r vb b hb => ?_
    rw [← hq.leaf]
    exact hne r vb b hb
  taken := by
    obtain ⟨pages, tables', htk, hpg, htab⟩ := h.taken
    refine ⟨pages, tables' ++ tables, ?_, fun g hg => ?_, fun g h0 => ?_⟩
    · rw [← append_assoc]
      exact htk.trans hq.taken
    · obtain ⟨vb, h1, h2⟩ := hpg g hg
      exact ⟨vb, h1, by rw [hq.leaf, h2]⟩
    · rw [hq.table g h0, htab g h0, mem_append, or_assoc]
  stale := hq.stale.trans h.stale

theorem Served.made {tables : List Nat} (hf : Followed root L m) (hp : Present root m)
    (h : Served G root L t ts W m m') (hm : Made G root L t va f Bytes.zero PTE_HEAP m' m'' tables)
    (hheap : ∃ a, ts.heap_start ≤ a ∧ a < ts.heap_brk ∧ PGROUNDDOWN a ≤ MAX_VA ∧ path va = path a) :
    Served G root L t ts W m m'' := by
  have hfu : m'.used f = false := hm.taken.unused h.owned.sound mem_cons_self
  have hkeep := hm.kept
  have hW : ∀ r vb b, W r vb = some b → m''.leaf (root r) vb = m'.leaf (root r) vb :=
    fun r vb b hb => hkeep r vb (h.wrote r vb b hb).2.1
  refine ⟨hm.owned, fun r vb hv => ?_, fun r vb h0 h1 => ?_, fun r vb b hb => ?_, fun r vb hvb hv hu => ?_,
    fun g hg ht hne => ?_, ?_, hm.stale.trans h.stale⟩
  · have h1 := h.keep r vb hv
    rw [hkeep r vb (by rw [h1]; exact hv), h1]
  · by_cases e : r = t ∧ path vb = path va
    · obtain ⟨rfl, e⟩ := e
      obtain ⟨a, ha1, ha2, ha3, ha4⟩ := hheap
      refine ⟨rfl, ⟨a, ha1, ha2, ha3, e.trans ha4⟩, f, hm.here vb e, hm.isPage, ?_⟩
      by_contra hc
      rw [h.used (by simpa using hc)] at hfu
      cases hfu
    · rw [hm.elsewhere r vb e] at h1 ⊢
      exact h.fresh r vb h0 h1
  · rw [hW r vb b hb]
    exact h.wrote r vb b hb
  · by_cases e : r = t ∧ path vb = path va
    · obtain ⟨rfl, e⟩ := e
      have hemp : isV (m'.leaf (root r) vb) = false := by rw [leaf_congr e, hm.empty]
      have hnone : W r vb = none := by
        cases hw : W r vb with
        | none => rfl
        | some b =>
          rw [(h.wrote r vb b hw).2.1] at hemp
          cases hemp
      have hold : isV (m.leaf (root r) vb) = false := by
        by_contra hc
        have hc : isV (m.leaf (root r) vb) = true := by simpa using hc
        rw [h.keep r vb hc, hc] at hemp
        cases hemp
      rw [hnone, Mem.byte, hm.here vb e, PTE2PA_page hm.isPage (by decide), hm.content, Mem.byte0,
        if_neg (by rw [hold]; decide)]
      rfl
    · have hl := hm.elsewhere r vb e
      rw [hl] at hv hu
      obtain ⟨h1, -, h2⟩ := h.owned.user_page (h.followed hf) (h.present hp) hv hu
      rw [← h.byte r vb hvb hv hu, Mem.byte, Mem.byte, hl, hm.page _ (h.owned.sound.held h1) h2]
  · rw [hm.page g (h.held hg).1 fun ht' => ht ((h.held hg).2 ht')]
    refine h.other g hg ht fun r vb b hb => ?_
    rw [← hW r vb b hb]
    exact hne r vb b hb
  · obtain ⟨pages, tables', htk, hpg, htab⟩ := h.taken
    refine ⟨f :: pages, tables' ++ tables, ?_, fun g hg => ?_, fun g h0 => ?_⟩
    · have hperm : ((pages ++ tables') ++ f :: tables).Perm ((f :: pages) ++ (tables' ++ tables)) := by
        rw [cons_append, ← append_assoc]
        exact perm_middle
      have ht := htk.trans hm.taken
      exact ⟨ht.free.trans (hperm.append_right _), fun g => by rw [ht.used, hperm.mem_iff]⟩
    · rcases mem_cons.1 hg with rfl | hg
      · refine ⟨va, ?_, hm.here va rfl⟩
        by_contra hc
        have hc : isV (m.leaf (root t) va) = true := by simpa using hc
        have := hm.empty
        rw [h.keep t va hc, hc] at this
        cases this
      · obtain ⟨vb, h1, h2⟩ := hpg g hg
        exact ⟨vb, h1, by rw [hkeep t vb (by rw [h2]; exact isV_heap g), h2]⟩
    · rw [hm.table g h0, htab g h0, mem_append, or_assoc]

theorem path_page (e : vb / 4096 = va / 4096) : path vb = path va := path_congr (by rw [e])

theorem user_page_iff {pt vb : Nat} (e : vb / 4096 = va / 4096) : m.user pt vb ↔ m.user pt va := by
  unfold Mem.user
  rw [leaf_congr (path_page e)]
  have : vb < MAX_VA ↔ va < MAX_VA := by
    unfold MAX_VA
    omega
  rw [this]

theorem Served.store {W' : ρ → Nat → Option UInt8} {src : Bytes} {o n : Nat} (hf : Followed root L m)
    (hp : Present root m) (h : Served G root L t ts W m m') (halign : va % 4096 = 0)
    (hva : va < 2 ^ 39) (hv : isV (m'.leaf (root r) va) = true) (hu : isU (m'.leaf (root r) va) = true)
    (hon : o + n ≤ 4096)
    (hin : ∀ vb, va + o ≤ vb → vb < va + o + n → W' r vb = some (src (vb - (va + o))))
    (hout : ∀ r' vb, ¬(r' = r ∧ va + o ≤ vb ∧ vb < va + o + n) → W' r' vb = W r' vb) :
    Served G root L t ts W' m
      (m'.setPage (PTE2PA (m'.leaf (root r) va)) ((m'.page (PTE2PA (m'.leaf (root r) va))).copy n o src)) := by
  obtain ⟨hused, -, hnt⟩ := h.owned.user_page (h.followed hf) (h.present hp) hv hu
  generalize hpa : PTE2PA (m'.leaf (root r) va) = pa at hused hnt ⊢
  have hleaf : ∀ r' vb, (m'.setPage pa ((m'.page pa).copy n o src)).leaf (root r') vb = m'.leaf (root r') vb :=
    leaf_setPage hnt
  have hmem : ∀ vb, va + o ≤ vb → vb < va + o + n → path vb = path va ∧ vb < 2 ^ 39 := by
    intro vb h1 h2
    exact ⟨path_page (by omega), by omega⟩
  refine ⟨h.owned.setPage hnt _, fun r' vb hv' => ?_, fun r' vb h0 h1 => ?_, fun r' vb b hb => ?_,
    fun r' vb hvb hv' hu' => ?_, fun g hg ht hne => ?_, ?_, h.stale⟩
  · rw [hleaf, h.keep r' vb hv']
  · rw [hleaf] at h1 ⊢
    exact h.fresh r' vb h0 h1
  · rw [hleaf]
    by_cases e : r' = r ∧ va + o ≤ vb ∧ vb < va + o + n
    · obtain ⟨rfl, e1, e2⟩ := e
      obtain ⟨e3, e4⟩ := hmem vb e1 e2
      rw [leaf_congr e3]
      exact ⟨e4, hv, hu⟩
    · rw [hout r' vb e] at hb
      exact h.wrote r' vb b hb
  · rw [hleaf] at hv' hu'
    have hold := h.byte r' vb hvb hv' hu'
    unfold Mem.byte at hold ⊢
    rw [hleaf, Mem.setPage_page]
    by_cases e : PTE2PA (m'.leaf (root r') vb) = pa
    · rw [if_pos e]
      rw [e] at hold
      obtain ⟨rfl, e'⟩ := h.owned.user_inj (h.followed hf) (h.present hp) hv hu hv' hu' (e.trans hpa.symm)
      have hpg : vb / 4096 = va / 4096 := by
        have := path_inj e'
        omega
      by_cases hrange : va + o ≤ vb ∧ vb < va + o + n
      · rw [hin vb hrange.1 hrange.2, Bytes.copy, if_pos (by omega)]
        show src _ = src _
        congr 1
        omega
      · rw [hout r' vb fun h => hrange h.2, ← hold, Bytes.copy, if_neg (by omega)]
    · rw [if_neg e, hold, hout]
      rintro ⟨rfl, e1, e2⟩
      rw [leaf_congr (hmem vb e1 e2).1] at e
      exact e hpa
  · by_cases hn : n = 0
    · have hsame : (m'.page pa).copy n o src = m'.page pa := by
        funext i
        exact Bytes.copy_of_ne _ _ (by omega)
      rw [hsame, Mem.setPage_page]
      have : m'.page g = m.page g := by
        refine h.other g hg ht fun r' vb b hb => ?_
        rw [← hleaf]
        exact hne r' vb b (by rw [hout r' vb (by omega)]; exact hb)
      split_ifs with e
      · rw [← e, this]
      · exact this
    · have hgp : g ≠ pa := by
        rintro rfl
        refine hne r (va + o) _ (hin (va + o) le_rfl (by omega)) ?_
        rw [hleaf, leaf_congr (hmem _ le_rfl (by omega)).1, hpa]
      rw [Mem.setPage_page, if_neg hgp]
      refine h.other g hg ht fun r' vb b hb => ?_
      by_cases e : r' = r ∧ va + o ≤ vb ∧ vb < va + o + n
      · obtain ⟨rfl, e1, e2⟩ := e
        rw [leaf_congr (hmem vb e1 e2).1, hpa]
        exact hgp.symm
      · rw [← hleaf]
        exact hne r' vb b (by rw [hout r' vb e]; exact hb)
  · obtain ⟨pages, tables, htk, hpg, htab⟩ := h.taken
    refine ⟨pages, tables, ⟨htk.free, htk.used⟩, fun g hg => ?_, fun g h0 => ?_⟩
    · obtain ⟨vb, h1, h2⟩ := hpg g hg
      exact ⟨vb, h1, by rw [hleaf, h2]⟩
    · rw [isTable_setPage hnt, htab g h0]

/-! ## The page of an address -/

/-- The space in which the copies from or to an address of `r` find its page: `r` if it
is mapped there for the user, and otherwise the space of the running task. -/
def chosen (root : ρ → Nat) (r t : ρ) (m : Mem) (vb : Nat) : ρ := if m.user (root r) vb then r else t

/-- An address that is mapped for the user, or for which there is to be a page. -/
def Granted (root : ρ → Nat) (r t : ρ) (m : Mem) (vb : Nat) : Prop :=
  m.user (root r) vb ∨ ¬m.user (root r) vb ∧ isV (m.leaf (root t) vb) = false

/-- An address whose page a copy has found. -/
structure Seen (root : ρ → Nat) (r t : ρ) (m m' : Mem) (vb : Nat) : Prop where
  granted : Granted root r t m vb
  low : vb < 2 ^ 39
  valid : isV (m'.leaf (root (chosen root r t m vb)) vb) = true
  user : isU (m'.leaf (root (chosen root r t m vb)) vb) = true

/-- The copies to and from the running task do not stop: its heap lies below `MAX_VA`,
and no page of it is mapped for the kernel alone. -/
structure Calm (G : Gmd) (root : ρ → Nat) (r t : ρ) (ts : Heap) (m : Mem) : Prop where
  same : r = t
  top : ts.heap_brk ≤ MAX_VA
  user : ∀ a, ts.heap_start ≤ a → a < ts.heap_brk → isV (m.leaf (root t) a) = true → isU (m.leaf (root t) a) = true
  rounds : 2 ^ 26 + 2 ≤ G.rounds

theorem chosen_page (e : vb / 4096 = va / 4096) : chosen root r t m vb = chosen root r t m va := by
  unfold chosen
  simp only [user_page_iff e]

theorem granted_page (e : vb / 4096 = va / 4096) : Granted root r t m vb ↔ Granted root r t m va := by
  unfold Granted
  rw [user_page_iff e, leaf_congr (path_page e)]

theorem Seen.kept (h : Seen root r t m m' vb) (hk : Kept root m' m'') : Seen root r t m m'' vb := by
  have hl := hk _ _ h.valid
  exact ⟨h.granted, h.low, by rw [hl]; exact h.valid, by rw [hl]; exact h.user⟩

theorem Served.user (h : Served G root L t ts W m m') (hu : m.user (root r) va) : m'.user (root r) va := by
  obtain ⟨h1, h2, h3⟩ := hu
  refine ⟨h1, ?_⟩
  rw [h.keep r va h2]
  exact ⟨h2, h3⟩

theorem Served.user_or (h : Served G root L t ts W m m') (hu : m'.user (root r) va) :
    m.user (root r) va ∨ ¬m.user (root r) va ∧ isV (m.leaf (root r) va) = false ∧ r = t := by
  by_cases hv : isV (m.leaf (root r) va) = true
  · left
    obtain ⟨h1, h2, h3⟩ := hu
    rw [h.keep r va hv] at h3
    exact ⟨h1, hv, h3⟩
  · have hv : isV (m.leaf (root r) va) = false := by simpa using hv
    refine .inr ⟨fun hc => ?_, hv, (h.fresh r va hv hu.2.1).1⟩
    rw [hc.2.1] at hv
    cases hv

section Loops

variable [DecidableEq ρ] {E : Halt → Prop}

theorem wp_userPage {Q : Option Nat → Mem → Prop} {type : PageFaultType}
    (hf : Followed root L m) (hp : Present root m) (h : Served G root L t ts W m m') (hr : root r ≠ 0)
    (ht : root t = ts.pg) (hpg : ts.pg ≠ 0) (hE : Calm G root r t ts m ∨ ∀ e, E e) (halign : va % 4096 = 0)
    (hnone : ∀ m'', Served G root L t ts W m m'' → Kept root m' m'' → ¬m''.user (root r) va → Q none m'')
    (hsome : ∀ m'', Served G root L t ts W m m'' → Kept root m' m'' → Granted root r t m va →
      isV (m''.leaf (root (chosen root r t m va)) va) = true → isU (m''.leaf (root (chosen root r t m va)) va) = true →
      Q (some (PTE2PA (m''.leaf (root (chosen root r t m va)) va))) m'') :
    Stop.wp E (userPage G ts (root r) va type) Q m' := by
  unfold userPage
  rw [wp_bind]
  apply wp_walkaddr h.owned hr
  by_cases hu : m'.user (root r) va
  · have hch : chosen root r t m va = r ∧ Granted root r t m va := by
      unfold chosen Granted
      rcases h.user_or hu with h' | ⟨h', hv, e⟩
      · rw [if_pos h']
        exact ⟨rfl, .inl h'⟩
      · rw [if_neg h']
        exact ⟨e.symm, .inr ⟨h', by rw [← e]; exact hv⟩⟩
    have h0 : PTE2PA (m'.leaf (root r) va) ≠ 0 := h.present hp r va hu.2.1 hu.2.2
    have := hsome m' h (fun _ _ _ => rfl) hch.2
    rw [hch.1] at this
    rw [if_pos (show va < MAX_VA ∧ _ from hu), if_neg h0]
    exact this hu.2.1 hu.2.2
  rw [if_neg (show ¬(va < MAX_VA ∧ _) from hu), if_pos rfl]
  have hdown : PGROUNDDOWN va = va := by
    unfold PGROUNDDOWN
    omega
  have hmu : ¬m.user (root r) va := fun hc => hu (h.user hc)
  refine wp_doPageFaultWithNewPa h.owned ht hpg ?_ (fun _ h1 h2 hv => ?_) (fun m'' tables hq => ?_)
    fun h1 h2 h3 f m'' tables hm => ?_
  · exact hE.imp (fun hc => by have := hc.rounds; omega) fun hE => hE _
  · rcases hE with hc | hE
    · -- A page of the heap that is mapped is mapped for the user.
      exfalso
      rw [hdown, ← ht] at hv
      obtain rfl := hc.same
      apply hu
      refine ⟨lt_of_lt_of_le h2 hc.top, hv, ?_⟩
      by_cases hm : isV (m.leaf (root r) va) = true
      · rw [h.keep r va hm]
        exact hc.user va h1 h2 hm
      · obtain ⟨-, -, f, e, -⟩ := h.fresh r va (by simpa using hm) hv
        rw [e]
        exact isU_heap f
    · exact hE _
  · refine hnone m'' (h.quiet hf hp hq) (fun r vb _ => hq.leaf r vb) fun hc => hu ?_
    unfold Mem.user at hc
    rwa [hq.leaf] at hc
  · rw [hdown] at hm h3
    have hs := h.made hf hp hm ⟨va, h1, h2, by rw [hdown]; exact h3, rfl⟩
    have hch : chosen root r t m va = t := if_neg hmu
    have hold : isV (m.leaf (root t) va) = false := by
      by_contra hc
      have hc : isV (m.leaf (root t) va) = true := by simpa using hc
      have := hm.empty
      rw [h.keep t va hc, hc] at this
      cases this
    have hl := hm.here va rfl
    have := hsome m'' hs hm.kept (.inr ⟨hmu, hold⟩)
    rw [hch, hl, PTE2PA_page hm.isPage (by decide)] at this
    exact this (isV_heap f) (isU_heap f)

def pagesLeft (a : Nat) : Nat := if PGROUNDDOWN a > MAX_VA then 0 else (MAX_VA - PGROUNDDOWN a) / 4096 + 1

omit [DecidableEq ρ] in
theorem pagesLeft_lt (a : Nat) : pagesLeft a < 2 ^ 26 + 2 := by
  unfold pagesLeft MAX_VA
  split <;> omega

omit [DecidableEq ρ] in
theorem pagesLeft_next {a : Nat} (h : ¬PGROUNDDOWN a > MAX_VA) :
    add (PGROUNDDOWN a) PG_4K_SIZE = PGROUNDDOWN a + 4096 ∧ pagesLeft (PGROUNDDOWN a + 4096) < pagesLeft a := by
  constructor
  · simp only [add, PG_4K_SIZE, PGROUNDDOWN, MAX_VA] at *
    omega
  · unfold pagesLeft
    rw [if_neg h]
    split_ifs with h'
    · omega
    · simp only [PGROUNDDOWN, MAX_VA] at *
      omega

omit [DecidableEq ρ] in
theorem chunk_spec {cur left n : Nat} (hn : min (PG_4K_SIZE - (cur - PGROUNDDOWN cur)) left = n) :
    PGROUNDDOWN cur ≤ cur ∧ n ≤ left ∧ (n < left → cur + n = PGROUNDDOWN cur + 4096) ∧
      cur - PGROUNDDOWN cur + n ≤ 4096 ∧ (0 < left → 0 < n) ∧
      ∀ vb, cur ≤ vb → vb < cur + n →
        vb / 4096 = PGROUNDDOWN cur / 4096 ∧ vb % 4096 = cur - PGROUNDDOWN cur + (vb - cur) := by
  simp only [PG_4K_SIZE, PGROUNDDOWN] at hn ⊢
  refine ⟨by omega, by omega, by omega, by omega, by omega, fun vb h1 h2 => ?_⟩
  omega

def written (root : ρ → Nat) (r t : ρ) (m : Mem) (dst : Nat) (src : Bytes) (k : Nat) : ρ → Nat → Option UInt8 :=
  fun r' vb => if dst ≤ vb ∧ vb < dst + k ∧ r' = chosen root r t m vb then some (src (vb - dst)) else none

omit [DecidableEq ρ] in
theorem Served.read {s : ρ} {vb : Nat} (h : Served G root L t ts (fun _ _ => none) m m')
    (hv : isV (m'.leaf (root s) va) = true) (hu : isU (m'.leaf (root s) va) = true) (hvb : vb < 2 ^ 39)
    (e : vb / 4096 = va / 4096) : m'.page (PTE2PA (m'.leaf (root s) va)) (vb % 4096) = m.byte0 (root s) vb := by
  have hl : m'.leaf (root s) vb = m'.leaf (root s) va := leaf_congr (path_page e)
  have := h.byte s vb hvb (by rw [hl]; exact hv) (by rw [hl]; exact hu)
  unfold Mem.byte at this
  rw [hl] at this
  exact this

omit [DecidableEq ρ] in
theorem Granted.seen {vb : Nat} (hg : Granted root r t m va)
    (hv : isV (m'.leaf (root (chosen root r t m va)) va) = true)
    (hu : isU (m'.leaf (root (chosen root r t m va)) va) = true) (hvb : vb < 2 ^ 39)
    (e : vb / 4096 = va / 4096) : Seen root r t m m' vb := by
  refine ⟨(granted_page e).2 hg, hvb, ?_, ?_⟩
  · rwa [chosen_page e, leaf_congr (path_page e)]
  · rwa [chosen_page e, leaf_congr (path_page e)]

omit [DecidableEq ρ] in
theorem scanStr_above (p : Bytes) : ∀ n o d dst {i : Nat}, d + n ≤ i → (scanStr p n o d dst).2 i = dst i := by
  intro n
  induction n with
  | zero => exact fun _ _ _ _ _ => rfl
  | succ n ih =>
    intro o d dst i hi
    unfold scanStr
    split
    · exact update_of_ne (by omega) ..
    · rw [ih (o + 1) (d + 1) _ (by omega), update_of_ne (by omega)]

theorem scanStr_spec (p : Bytes) : ∀ n o d dst,
    ((scanStr p n o d dst).1 = true ∧ ∃ j, j < n ∧ p (o + j) = 0 ∧ (∀ i, i < j → p (o + i) ≠ 0) ∧
      (∀ i, i ≤ j → (scanStr p n o d dst).2 (d + i) = p (o + i)) ∧ ∀ i, i < d → (scanStr p n o d dst).2 i = dst i) ∨
    ((scanStr p n o d dst).1 = false ∧ (∀ i, i < n → p (o + i) ≠ 0) ∧
      (∀ i, i < n → (scanStr p n o d dst).2 (d + i) = p (o + i)) ∧ ∀ i, i < d → (scanStr p n o d dst).2 i = dst i) := by
  intro n
  induction n with
  | zero =>
    intro o d dst
    exact .inr ⟨rfl, fun i hi => absurd hi (Nat.not_lt_zero i), fun i hi => absurd hi (Nat.not_lt_zero i), fun _ _ => rfl⟩
  | succ n ih =>
    intro o d dst
    unfold scanStr
    by_cases h : p o = 0
    · rw [if_pos h]
      refine .inl ⟨rfl, 0, succ_pos n, h, fun i hi => absurd hi (Nat.not_lt_zero i), fun i hi => ?_, fun i hi => ?_⟩
      · obtain rfl : i = 0 := by omega
        exact (update_self ..).trans h.symm
      · exact update_of_ne (by omega) ..
    · rw [if_neg h]
      -- The rest of the page, after one byte.
      have hstep : ∀ q : Bytes, (∀ i, i < d + 1 → q i = update dst d (p o) i) →
          q d = p o ∧ ∀ i, i < d → q i = dst i := by
        intro q hq
        refine ⟨by rw [hq d (by omega), update_self], fun i hi => ?_⟩
        rw [hq i (by omega), update_of_ne (by omega)]
      rcases ih (o + 1) (d + 1) (update dst d (p o)) with ⟨h1, j, hj, hz, hnz, hcp, hlow⟩ | ⟨h1, hnz, hcp, hlow⟩
      · obtain ⟨hd, hlow⟩ := hstep _ hlow
        refine .inl ⟨h1, j + 1, by omega, by rw [← hz]; congr 1; omega, fun i hi => ?_, fun i hi => ?_, hlow⟩
        · rcases i with _ | i
          · exact h
          · rw [show o + (i + 1) = o + 1 + i by omega]
            exact hnz i (by omega)
        · rcases i with _ | i
          · exact hd
          · rw [show d + (i + 1) = d + 1 + i by omega, show o + (i + 1) = o + 1 + i by omega]
            exact hcp i (by omega)
      · obtain ⟨hd, hlow⟩ := hstep _ hlow
        refine .inr ⟨h1, fun i hi => ?_, fun i hi => ?_, hlow⟩
        · rcases i with _ | i
          · exact h
          · rw [show o + (i + 1) = o + 1 + i by omega]
            exact hnz i (by omega)
        · rcases i with _ | i
          · exact hd
          · rw [show d + (i + 1) = d + 1 + i by omega, show o + (i + 1) = o + 1 + i by omega]
            exact hcp i (by omega)

section Copies

variable (ho : Owned G root L m) (hf : Followed root L m) (hp : Present root m) (hr : root r ≠ 0) (ht : root t = ts.pg)
  (hpg : ts.pg ≠ 0) (hE : Calm G root r t ts m ∨ ∀ e, E e)

include ho hf hp hr ht hpg hE

/-- What `copy_to_user` does, whatever it answers: the first bytes are stored in pages that
the user may write, all of them if the answer is 0. -/
theorem wp_copyToUser {Q : Int → Mem → Prop} {dst len : Nat} {src : Bytes}
    (hQ : ∀ a m' k, k ≤ len → (a = 0 → k = len) → Served G root L t ts (written root r t m dst src k) m m' →
      (∀ i, i < k → Granted root r t m (dst + i) ∧
        (m.user (root r) (dst + i) → isW (m.leaf (root r) (dst + i)) = true)) → Q a m') :
    Stop.wp E (copyToUser G ts (root r) dst src len) Q m := by
  unfold copyToUser
  refine wp_loop (fun k x m' => x.2.1 + x.2.2 = len ∧ (0 < x.2.2 → x.1 = dst + x.2.1) ∧ k = pagesLeft x.1 ∧
    Served G root L t ts (written root r t m dst src x.2.1) m m' ∧
    ∀ i, i < x.2.1 → Granted root r t m (dst + i) ∧ (m.user (root r) (dst + i) → isW (m.leaf (root r) (dst + i)) = true))
    ?_ (k := pagesLeft dst) ?_ ?_
  · rintro k ⟨cur, off, left⟩ m' ⟨hlen, hcur, rfl, hs, hgr⟩
    dsimp only at *
    by_cases h0 : left = 0
    · rw [if_pos h0]
      exact hQ 0 m' off (by omega) (fun _ => by omega) hs hgr
    obtain rfl := hcur (by omega)
    rw [if_neg h0]
    by_cases hbig : PGROUNDDOWN (dst + off) > MAX_VA
    · rw [if_pos hbig]
      exact hQ (-1) m' off (by omega) (fun h => by cases h) hs hgr
    rw [if_neg hbig, wp_bind]
    have hpage : (dst + off) / 4096 = PGROUNDDOWN (dst + off) / 4096 := by
      unfold PGROUNDDOWN
      omega
    obtain ⟨hadd, hleft⟩ := pagesLeft_next hbig
    refine wp_userPage hf hp hs hr ht hpg hE (mul_mod_left _ _) (fun m'' hs' _ _ => ?_) fun m'' hs' _ hg hv hu => ?_
    · exact hQ EFAULT m'' off (by omega) (fun h => by cases h) hs' hgr
    dsimp only
    rw [wp_bind]
    refine wp_pteWalk_find hs'.owned hr (Nat.not_lt.1 hbig) (fun hl => ?_) fun hl => ?_
    · dsimp only
      rw [wp_bind]
      apply wp_readPte (hs'.owned.last_used hl)
      have hleaf : m''.pte (m''.last (root r) (PGROUNDDOWN (dst + off))) (PX 0 (PGROUNDDOWN (dst + off))) =
          m''.leaf (root r) (PGROUNDDOWN (dst + off)) := by rw [Mem.leaf, if_neg hl]
      rw [hleaf]
      by_cases hw : isW (m''.leaf (root r) (PGROUNDDOWN (dst + off))) = false
      · rw [if_pos hw]
        exact hQ (-1) m'' off (by omega) (fun h => by cases h) hs' hgr
      rw [if_neg hw, wp_bind]
      unfold memmove
      rw [wp_modify, wp_pure]
      refine ⟨_, hleft, ?_⟩
      dsimp only
      generalize hN : min (PG_4K_SIZE - (dst + off - PGROUNDDOWN (dst + off))) left = n
      obtain ⟨hle, hn, hfull, hfit, -, hsame⟩ := chunk_spec hN
      refine ⟨by omega, fun h => by rw [hadd]; omega, by rw [hadd], ?_, fun i hi => ?_⟩
      · refine hs'.store hf hp (mul_mod_left _ _) ?_ hv hu hfit (fun vb h1 h2 => ?_) fun r' vb hne => ?_
        · simp only [MAX_VA] at hbig
          omega
        · have h1 : dst + off ≤ vb := by omega
          have h2 : vb < dst + off + n := by omega
          have h3 : vb - dst = off + (vb - (PGROUNDDOWN (dst + off) + (dst + off - PGROUNDDOWN (dst + off)))) := by
            omega
          rw [written, if_pos ⟨by omega, by omega, (chosen_page (hsame vb h1 h2).1).symm⟩, h3]
        · have hiff : (dst ≤ vb ∧ vb < dst + (off + n) ∧ r' = chosen root r t m vb) ↔
              (dst ≤ vb ∧ vb < dst + off ∧ r' = chosen root r t m vb) := by
            refine ⟨fun h => ⟨h.1, ?_, h.2.2⟩, fun h => ⟨h.1, by omega, h.2.2⟩⟩
            by_contra hlt
            have h1 : dst + off ≤ vb := by omega
            have h2 : vb < dst + off + n := by omega
            exact hne ⟨h.2.2.trans (chosen_page (hsame vb h1 h2).1), by omega, by omega⟩
          simp only [written, hiff]
      · by_cases hlt : i < off
        · exact hgr i hlt
        · have hi' := (hsame (dst + i) (by omega) (by omega)).1
          rw [granted_page hi', user_page_iff hi', leaf_congr (path_page hi')]
          refine ⟨hg, fun hmu => ?_⟩
          rw [← hs'.keep r _ hmu.2.1]
          simpa using hw
    · rcases hE with hc | hE
      · exfalso
        have hch : chosen root r t m (PGROUNDDOWN (dst + off)) = r := by
          unfold chosen
          rw [hc.same, ite_self]
        rw [hch, Mem.leaf, if_pos hl] at hv
        cases hv
      · exact hE _
  · exact hE.imp (fun hc => lt_of_lt_of_le (pagesLeft_lt dst) hc.rounds) fun hE => hE _
  · have hnone : written root r t m dst src 0 = fun _ _ => none := by
      funext r' vb
      exact if_neg (by omega)
    refine ⟨Nat.zero_add len, fun _ => (Nat.add_zero dst).symm, rfl, ?_, fun i hi => absurd hi (Nat.not_lt_zero i)⟩
    dsimp only
    rw [hnone]
    exact .refl ho

/-- What `copy_from_user` does: the first bytes are read from pages that are mapped for the
user, all of them if the answer is 0. -/
theorem wp_copyFromUser {Q : Int × Bytes → Mem → Prop} {src len : Nat} {dst : Bytes}
    (hQ : ∀ a buf m' k, k ≤ len → (a = 0 → k = len) → Served G root L t ts (fun _ _ => none) m m' →
      (∀ i, i < k → Seen root r t m m' (src + i) ∧ buf i = m.byte0 (root (chosen root r t m (src + i))) (src + i)) →
      (∀ i, k ≤ i → buf i = dst i) → Q (a, buf) m') :
    Stop.wp E (copyFromUser G ts (root r) dst src len) Q m := by
  unfold copyFromUser
  refine wp_loop (fun k x m' => x.2.1 + x.2.2.1 = len ∧ (0 < x.2.2.1 → x.1 = src + x.2.1) ∧ k = pagesLeft x.1 ∧
    Served G root L t ts (fun _ _ => none) m m' ∧
    (∀ i, i < x.2.1 → Seen root r t m m' (src + i) ∧
      x.2.2.2 i = m.byte0 (root (chosen root r t m (src + i))) (src + i)) ∧
    ∀ i, x.2.1 ≤ i → x.2.2.2 i = dst i) ?_ (k := pagesLeft src) ?_ ?_
  · rintro k ⟨cur, off, left, buf⟩ m' ⟨hlen, hcur, rfl, hs, hgr, hrest⟩
    dsimp only at *
    by_cases h0 : left = 0
    · rw [if_pos h0]
      exact hQ 0 buf m' off (by omega) (fun _ => by omega) hs hgr hrest
    obtain rfl := hcur (by omega)
    rw [if_neg h0]
    by_cases hbig : PGROUNDDOWN (src + off) > MAX_VA
    · rw [if_pos hbig]
      exact hQ (-1) buf m' off (by omega) (fun h => by cases h) hs hgr hrest
    rw [if_neg hbig, wp_bind]
    obtain ⟨hadd, hleft⟩ := pagesLeft_next hbig
    refine wp_userPage hf hp hs hr ht hpg hE (mul_mod_left _ _) (fun m'' hs' hk _ => ?_)
      fun m'' hs' hk hg hv hu => ?_
    · refine hQ EFAULT buf m'' off (by omega) (fun h => by cases h) hs' (fun i hi => ?_) hrest
      exact ⟨(hgr i hi).1.kept hk, (hgr i hi).2⟩
    dsimp only
    rw [wp_bind, wp_get]
    refine ⟨_, hleft, ?_⟩
    dsimp only
    generalize hN : min (PG_4K_SIZE - (src + off - PGROUNDDOWN (src + off))) left = n
    obtain ⟨hle, hn, hfull, hfit, -, hsame⟩ := chunk_spec hN
    refine ⟨by omega, fun h => by rw [hadd]; omega, by rw [hadd], hs', fun i hi => ?_, fun i hi => ?_⟩
    · by_cases hlt : i < off
      · rw [Bytes.copy, if_neg (by omega)]
        exact ⟨(hgr i hlt).1.kept hk, (hgr i hlt).2⟩
      · obtain ⟨h1, h2⟩ := hsame (src + i) (by omega) (by omega)
        have hb : src + i < 2 ^ 39 := by
          simp only [MAX_VA] at hbig
          omega
        have hrd := hs'.read hv hu hb h1
        rw [chosen_page h1, Bytes.copy, if_pos (by omega), ← hrd, h2]
        refine ⟨hg.seen hv hu hb h1, ?_⟩
        rw [show i - off = src + i - (src + off) by omega]
    · rw [Bytes.copy, if_neg (by omega)]
      exact hrest i (by omega)
  · exact hE.imp (fun hc => lt_of_lt_of_le (pagesLeft_lt src) hc.rounds) fun hE => hE _
  · exact ⟨Nat.zero_add len, fun _ => (Nat.add_zero src).symm, rfl, .refl ho,
      fun i hi => absurd hi (Nat.not_lt_zero i), fun _ _ => rfl⟩

theorem wp_copyStrFromUser {Q : Int × Bytes → Mem → Prop} {src max : Nat} {dst : Bytes}
    (hzero : ∀ buf m' k, k < max → Served G root L t ts (fun _ _ => none) m m' →
      (∀ i, i ≤ k → Seen root r t m m' (src + i) ∧ buf i = m.byte0 (root (chosen root r t m (src + i))) (src + i)) →
      (∀ i, i < k → buf i ≠ 0) → buf k = 0 → (∀ i, max ≤ i → buf i = dst i) → Q (0, buf) m')
    (hfail : ∀ a buf m' k, a ≠ 0 → k ≤ max → Served G root L t ts (fun _ _ => none) m m' →
      (∀ i, i < k → m.byte0 (root (chosen root r t m (src + i))) (src + i) ≠ 0) →
      (k = max ∨ ¬m'.user (root r) (src + k)) → (∀ i, max ≤ i → buf i = dst i) → Q (a, buf) m') :
    Stop.wp E (copyStrFromUser G ts (root r) dst src max) Q m := by
  unfold copyStrFromUser
  refine wp_loop (fun k x m' => x.2.1 + x.2.2.1 = max ∧ (0 < x.2.2.1 → x.1 = src + x.2.1) ∧ k = pagesLeft x.1 ∧
    Served G root L t ts (fun _ _ => none) m m' ∧
    (∀ i, i < x.2.1 → (Seen root r t m m' (src + i) ∧
      x.2.2.2 i = m.byte0 (root (chosen root r t m (src + i))) (src + i)) ∧ x.2.2.2 i ≠ 0) ∧
    ∀ i, max ≤ i → x.2.2.2 i = dst i)
    ?_ (k := pagesLeft src) ?_ ?_
  · rintro k ⟨cur, off, left, buf⟩ m' ⟨hlen, hcur, rfl, hs, hgr, hrest⟩
    dsimp only at *
    have hnz : ∀ i, i < off → m.byte0 (root (chosen root r t m (src + i))) (src + i) ≠ 0 := fun i hi => by
      obtain ⟨⟨-, h1⟩, h2⟩ := hgr i hi
      rwa [← h1]
    by_cases h0 : left = 0
    · rw [if_pos h0]
      exact hfail (-1) buf m' off (by decide) (by omega) hs hnz (.inl (by omega)) hrest
    obtain rfl := hcur (by omega)
    rw [if_neg h0]
    by_cases hbig : PGROUNDDOWN (src + off) > MAX_VA
    · rw [if_pos hbig]
      refine hfail (-1) buf m' off (by decide) (by omega) hs hnz (.inr fun hu => ?_) hrest
      have := hu.1
      unfold PGROUNDDOWN at hbig
      omega
    rw [if_neg hbig, wp_bind]
    obtain ⟨hadd, hleft⟩ := pagesLeft_next hbig
    have hpage : (src + off) / 4096 = PGROUNDDOWN (src + off) / 4096 := by
      unfold PGROUNDDOWN
      omega
    refine wp_userPage hf hp hs hr ht hpg hE (mul_mod_left _ _) (fun m'' hs' hk hu => ?_)
      fun m'' hs' hk hg hv hu => ?_
    · refine hfail EFAULT buf m'' off (by decide) (by omega) hs' hnz (.inr fun hc => hu ?_) hrest
      rwa [user_page_iff hpage] at hc
    dsimp only
    rw [wp_bind, wp_get]
    generalize hN : min (PG_4K_SIZE - (src + off - PGROUNDDOWN (src + off))) left = n
    obtain ⟨hle, hn, hfull, hfit, -, hsame⟩ := chunk_spec hN
    -- A byte of this page.
    have hread : ∀ j, j < n → Seen root r t m m'' (src + (off + j)) ∧
        m''.page (PTE2PA (m''.leaf (root (chosen root r t m (PGROUNDDOWN (src + off)))) (PGROUNDDOWN (src + off))))
          (src + off - PGROUNDDOWN (src + off) + j) =
          m.byte0 (root (chosen root r t m (src + (off + j)))) (src + (off + j)) := by
      intro j hj
      obtain ⟨h1, h2⟩ := hsame (src + (off + j)) (by omega) (by omega)
      have hb : src + (off + j) < 2 ^ 39 := by
        simp only [MAX_VA] at hbig
        omega
      have hrd := hs'.read hv hu hb h1
      rw [chosen_page h1, ← hrd, h2]
      refine ⟨hg.seen hv hu hb h1, ?_⟩
      rw [show src + (off + j) - (src + off) = j by omega]
    have hold : ∀ i, i < off → (Seen root r t m m'' (src + i) ∧
        buf i = m.byte0 (root (chosen root r t m (src + i))) (src + i)) ∧ buf i ≠ 0 := by
      intro i hi
      obtain ⟨⟨h1, h2⟩, h3⟩ := hgr i hi
      exact ⟨⟨h1.kept hk, h2⟩, h3⟩
    generalize m''.page (PTE2PA (m''.leaf (root (chosen root r t m (PGROUNDDOWN (src + off))))
      (PGROUNDDOWN (src + off)))) = p at hread ⊢
    have habove : ∀ i, max ≤ i → (scanStr p n (src + off - PGROUNDDOWN (src + off)) off buf).2 i = dst i := fun i hi => by
      rw [scanStr_above p n _ off buf (by omega)]
      exact hrest i hi
    rcases scanStr_spec p n (src + off - PGROUNDDOWN (src + off)) off buf with
      ⟨h1, j, hj, hz, hnz', hcp, hlow⟩ | ⟨h1, hnz', hcp, hlow⟩
    · rw [if_pos h1]
      refine hzero _ m'' (off + j) (by omega) hs' (fun i hi => ?_) (fun i hi => ?_) (by rw [hcp j le_rfl, hz]) habove
      · by_cases hlt : i < off
        · rw [hlow i hlt]
          exact (hold i hlt).1
        · obtain ⟨i, rfl⟩ : ∃ x, i = off + x := ⟨i - off, by omega⟩
          rw [hcp i (by omega)]
          exact hread i (by omega)
      · by_cases hlt : i < off
        · rw [hlow i hlt]
          exact (hold i hlt).2
        · obtain ⟨i, rfl⟩ : ∃ x, i = off + x := ⟨i - off, by omega⟩
          rw [hcp i (by omega)]
          exact hnz' i (by omega)
    · rw [if_neg (by rw [h1]; decide)]
      refine ⟨_, hleft, by dsimp only; omega, fun h => by dsimp only at h ⊢; rw [hadd]; omega, by rw [hadd], hs', fun i hi => ?_, habove⟩
      dsimp only at hi ⊢
      by_cases hlt : i < off
      · rw [hlow i hlt]
        exact hold i hlt
      · obtain ⟨i, rfl⟩ : ∃ x, i = off + x := ⟨i - off, by omega⟩
        rw [hcp i (by omega)]
        exact ⟨hread i (by omega), hnz' i (by omega)⟩
  · exact hE.imp (fun hc => lt_of_lt_of_le (pagesLeft_lt src) hc.rounds) fun hE => hE _
  · exact ⟨Nat.zero_add max, fun _ => (Nat.add_zero src).symm, rfl, .refl ho, fun i hi => absurd hi (Nat.not_lt_zero i),
      fun _ _ => rfl⟩

end Copies

end Loops

end

end Mm
