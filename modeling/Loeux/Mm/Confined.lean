import Loeux.Mm.Copy
import Loeux.Mm.Laws
/-!
# Copies are exact and confined

What `copy_to_user`, `copy_from_user` and `copy_str_from_user` promise when they
return 0, and exactly when they keep it. They may break it in three ways: the two
that read do not check that the user may read; an address that is not mapped in
the page table they are given is served from the heap of the running task; and
the page at `MAX_VA` itself is not refused.
-/

namespace Mm

open Lib Lib.Forest Stop

section

variable {G : Gmd} {ρ : Type} {root : ρ → Nat} {r t : ρ} {ts : Heap} {m m' : Mem}

/-- All addresses but those that are mapped for the kernel alone. -/
def Visible (root : ρ → Nat) (m : Mem) (r : ρ) (va : Nat) : Prop :=
  isV (m.leaf (root r) va) = true → isU (m.leaf (root r) va) = true

/-- The spaces of the users: no page is a table and mapped for a user, or mapped for users
twice. -/
structure Users (G : Gmd) (root : ρ → Nat) (m : Mem) : Prop where
  owned : Owned G root (Visible root m) m
  present : Present root m

/-- Exactly the bytes of `src` were stored at `dst`, where the user may write. -/
structure Written (root : ρ → Nat) (r : ρ) (dst : Nat) (src : Bytes) (len : Nat) (m m' : Mem) : Prop where
  allowed : ∀ i, i < len → m'.user (root r) (dst + i) ∧ isW (m'.leaf (root r) (dst + i)) = true
  stored : ∀ i, i < len → m'.byte (root r) (dst + i) = src i
  rest : ∀ r' vb, m'.user (root r') vb → ¬(r' = r ∧ dst ≤ vb ∧ vb < dst + len) →
    m'.byte (root r') vb = m.byte0 (root r') vb
  /-- No other page that is there changes, be it the kernel's own or a user's. -/
  other : ∀ g, m.Held g → ¬IsTable root m g → (∀ i, i < len → PTE2PA (m'.leaf (root r) (dst + i)) ≠ g) →
    m'.page g = m.page g

def Mem.readable (m : Mem) (pt va : Nat) : Prop := m.user pt va ∧ isR (m.leaf pt va) = true

/-- Exactly the bytes at `src`, which the user may read, were delivered to the buffer `dst`. -/
structure Delivered (root : ρ → Nat) (r : ρ) (src len : Nat) (dst buf : Bytes) (m m' : Mem) : Prop where
  bytes : ∀ i, i < len → m'.readable (root r) (src + i) ∧ buf i = m'.byte (root r) (src + i)
  behind : ∀ i, len ≤ i → buf i = dst i
  rest : ∀ r' vb, m'.user (root r') vb → m'.byte (root r') vb = m.byte0 (root r') vb

/-- The answer is 0 exactly if there is a NUL among the first `max` bytes that the user may
read, and then the buffer holds the string up to it. -/
def Scanned (root : ρ → Nat) (r : ρ) (src max : Nat) (a : Int) (buf : Bytes) (m' : Mem) : Prop :=
  (a = 0 ↔ ∃ k, k < max ∧ (∀ i, i ≤ k → m'.readable (root r) (src + i)) ∧ m'.byte (root r) (src + k) = 0) ∧
  (a = 0 → ∃ k, k < max ∧ (∀ i, i ≤ k → buf i = m'.byte (root r) (src + i)) ∧ buf k = 0 ∧ ∀ i, i < k → buf i ≠ 0)

/-- Before the call, an address that may be written: below `MAX_VA`, and mapped for the user
or in the page table of the running task. -/
def Writable (root : ρ → Nat) (r t : ρ) (m : Mem) (va : Nat) : Prop := va < MAX_VA ∧ (m.user (root r) va ∨ r = t)

/-- Before the call, an address that may be read: also, if it is mapped for the user, then
readable. -/
def Legible (root : ρ → Nat) (r t : ρ) (m : Mem) (va : Nat) : Prop :=
  Writable root r t m va ∧ (m.user (root r) va → isR (m.leaf (root r) va) = true)

/-- The bytes that a copy from `va` on would see: those of the page that is there, or of a new
page of the heap. -/
def seenByte (root : ρ → Nat) (r t : ρ) (m : Mem) (va : Nat) : UInt8 := m.byte0 (root (chosen root r t m va)) va

/-- Before the call, if there is a NUL among the first `max` bytes, then all up to the first one
may be read. -/
def StringLegible (root : ρ → Nat) (r t : ρ) (m : Mem) (src max : Nat) : Prop :=
  ∀ k, k < max → seenByte root r t m (src + k) = 0 → (∀ i, i < k → seenByte root r t m (src + i) ≠ 0) →
    ∀ i, i ≤ k → Legible root r t m (src + i)

/-- Of all memory that is not free, only pages that are mapped for a user may have changed, and
what is mapped stays so. -/
structure Harmless (root : ρ → Nat) (m m' : Mem) : Prop where
  kept : Kept root m m'
  page : ∀ g, m.Held g → ¬IsTable root m g →
    (∀ r vb, isV (m'.leaf (root r) vb) = true → isU (m'.leaf (root r) vb) = true → PTE2PA (m'.leaf (root r) vb) ≠ g) →
    m'.page g = m.page g

theorem Users.followed (root : ρ → Nat) (m : Mem) : Followed root (Visible root m) m := fun _ _ _ h => h

variable {L : ρ → Nat → Prop}

variable {W : ρ → Nat → Option UInt8}

theorem Served.harmless (h : Served G root L t ts W m m') : Harmless root m m' :=
  ⟨h.keep, fun g hg ht hne => h.other g hg ht fun r vb b hb =>
    hne r vb (h.wrote r vb b hb).2.1 (h.wrote r vb b hb).2.2⟩

theorem byte_of_served (h : Served G root L t ts (fun _ _ => none) m m') {vb : Nat}
    (hu : m'.user (root r) vb) : m'.byte (root r) vb = m.byte0 (root r) vb :=
  h.byte r vb (lt_of_lt_of_le hu.1 (by decide)) hu.2.1 hu.2.2

theorem Writable.chosen_eq {va : Nat} (h : Writable root r t m va) : chosen root r t m va = r := by
  unfold chosen
  rcases h.2 with h' | rfl
  · rw [if_pos h']
  · exact ite_self _

theorem Served.writable (h : Served G root L t ts W m m') {va : Nat}
    (hu : m'.user (root r) va) : Writable root r t m va :=
  ⟨hu.1, (h.user_or hu).imp_right fun h => h.2.2⟩

theorem Served.legible (h : Served G root L t ts W m m') {va : Nat}
    (hu : m'.readable (root r) va) : Legible root r t m va := by
  refine ⟨h.writable hu.1, fun hm => ?_⟩
  rw [← h.keep r va hm.2.1]
  exact hu.2

theorem Served.readable (h : Served G root L t ts W m m') {va : Nat}
    (hl : Legible root r t m va) (hg : Seen root r t m m' va) : m'.readable (root r) va := by
  have hv := hg.valid
  have hu := hg.user
  rw [hl.1.chosen_eq] at hv hu
  refine ⟨⟨hl.1.1, hv, hu⟩, ?_⟩
  rcases hg.granted with hm | ⟨hm, hempty⟩
  · rw [h.keep r va hm.2.1]
    exact hl.2 hm
  · obtain rfl := hl.1.2.resolve_left hm
    obtain ⟨-, -, f, e, -⟩ := h.fresh r va hempty hv
    rw [e]
    exact isR_heap f

variable [DecidableEq ρ]

theorem copyToUser_iff {dst len : Nat} {src : Bytes} {a : Int} (h : Users G root m) (hr : root r ≠ 0) (ht : root t = ts.pg)
    (hpg : ts.pg ≠ 0) (hc : copyToUser G ts (root r) dst src len m = .ok (a, m')) :
    Harmless root m m' ∧ (a = 0 → (Written root r dst src len m m' ↔ ∀ i, i < len → Writable root r t m (dst + i))) := by
  have hwp := @wp_copyToUser G ρ root (Visible root m) r t ts m _ (fun _ => True)
    h.owned (Users.followed root m) h.present hr ht hpg (.inr fun _ => trivial)
    (fun a m' => Harmless root m m' ∧
      (a = 0 → (Written root r dst src len m m' ↔ ∀ i, i < len → Writable root r t m (dst + i)))) dst len src ?_
  · have := of_wp hwp hc
    exact this
  intro a m' k hk hz hs hgr
  refine ⟨hs.harmless, fun ha => ?_⟩
  obtain rfl := hz ha
  constructor
  · intro hw i hi
    exact hs.writable (hw.allowed i hi).1
  intro hw
  have hW : ∀ i, i < k → written root r t m dst src k r (dst + i) = some (src i) := by
    intro i hi
    rw [written, if_pos ⟨by omega, by omega, (hw i hi).chosen_eq.symm⟩, Nat.add_sub_cancel_left]
  refine ⟨fun i hi => ?_, fun i hi => ?_, fun r' vb hu hne => ?_, fun g hg ht hne => ?_⟩
  · obtain ⟨-, hv, hu⟩ := hs.wrote r _ _ (hW i hi)
    refine ⟨⟨(hw i hi).1, hv, hu⟩, ?_⟩
    obtain ⟨hg, hwr⟩ := hgr i hi
    rcases hg with hm | ⟨hm, hempty⟩
    · rw [hs.keep r _ hm.2.1]
      exact hwr hm
    · obtain rfl := (hw i hi).2.resolve_left hm
      obtain ⟨-, -, f, e, -⟩ := hs.fresh r _ hempty hv
      rw [e]
      exact isW_heap f
  · obtain ⟨hb, hv, hu⟩ := hs.wrote r _ _ (hW i hi)
    rw [hs.byte r _ hb hv hu, hW i hi]
    rfl
  · rw [hs.byte r' vb (lt_of_lt_of_le hu.1 (by decide)) hu.2.1 hu.2.2, written, if_neg]
    · rfl
    · rintro ⟨h1, h2, h3⟩
      have := (hw (vb - dst) (by omega)).chosen_eq
      rw [show dst + (vb - dst) = vb by omega] at this
      exact hne ⟨h3.trans this, h1, h2⟩
  · refine hs.other g hg ht fun r' vb b hb => ?_
    unfold written at hb
    split_ifs at hb with hcond
    obtain ⟨h1, h2, h3⟩ := hcond
    have := (hw (vb - dst) (by omega)).chosen_eq
    rw [show dst + (vb - dst) = vb by omega] at this
    have hne' := hne (vb - dst) (by omega)
    rw [show dst + (vb - dst) = vb by omega] at hne'
    rw [h3, this]
    exact hne'

/-- The bytes of the buffer that were changed are among its first `len` and are bytes of pages
mapped for the user. -/
def FromUser (root : ρ → Nat) (src len : Nat) (dst buf : Bytes) (m' : Mem) : Prop :=
  ∀ i, buf i = dst i ∨ i < len ∧ ∃ s, isV (m'.leaf (root s) (src + i)) = true ∧ isU (m'.leaf (root s) (src + i)) = true ∧
    buf i = m'.byte (root s) (src + i)

theorem copyFromUser_iff {src len : Nat} {dst buf : Bytes} {a : Int} (h : Users G root m) (hr : root r ≠ 0)
    (ht : root t = ts.pg) (hpg : ts.pg ≠ 0) (hc : copyFromUser G ts (root r) dst src len m = .ok ((a, buf), m')) :
    Harmless root m m' ∧ FromUser root src len dst buf m' ∧
      (a = 0 → (Delivered root r src len dst buf m m' ↔ ∀ i, i < len → Legible root r t m (src + i))) := by
  have hwp := @wp_copyFromUser G ρ root (Visible root m) r t ts m _ (fun _ => True)
    h.owned (Users.followed root m) h.present hr ht hpg (.inr fun _ => trivial)
    (fun x m' => Harmless root m m' ∧ FromUser root src len dst x.2 m' ∧
      (x.1 = 0 → (Delivered root r src len dst x.2 m m' ↔ ∀ i, i < len → Legible root r t m (src + i)))) src len dst ?_
  · have := of_wp hwp hc
    exact this
  intro a buf m' k hk hz hs hgr hrest
  refine ⟨hs.harmless, fun i => ?_, fun ha => ?_⟩
  · by_cases hi : i < k
    · obtain ⟨hseen, hb⟩ := hgr i hi
      refine .inr ⟨by omega, _, hseen.valid, hseen.user, ?_⟩
      rw [hs.byte _ _ hseen.low hseen.valid hseen.user]
      exact hb
    · exact .inl (hrest i (by omega))
  obtain rfl := hz ha
  constructor
  · intro hd i hi
    exact hs.legible (hd.bytes i hi).1
  intro hl
  refine ⟨fun i hi => ?_, hrest, fun r' vb hu => byte_of_served hs hu⟩
  obtain ⟨hseen, hb⟩ := hgr i hi
  have hrd := hs.readable (hl i hi) hseen
  refine ⟨hrd, ?_⟩
  rw [byte_of_served hs hrd.1, ← (hl i hi).1.chosen_eq]
  exact hb

theorem copyStrFromUser_iff {src max : Nat} {dst buf : Bytes} {a : Int} (h : Users G root m) (hr : root r ≠ 0)
    (ht : root t = ts.pg) (hpg : ts.pg ≠ 0) (hc : copyStrFromUser G ts (root r) dst src max m = .ok ((a, buf), m')) :
    Harmless root m m' ∧ (∀ i, max ≤ i → buf i = dst i) ∧ (a ≠ 0 → Scanned root r src max a buf m') ∧
      (a = 0 → (Scanned root r src max a buf m' ↔ StringLegible root r t m src max)) := by
  have hwp := @wp_copyStrFromUser G ρ root (Visible root m) r t ts m _ (fun _ => True)
    h.owned (Users.followed root m) h.present hr ht hpg (.inr fun _ => trivial)
    (fun x m' => Harmless root m m' ∧ (∀ i, max ≤ i → x.2 i = dst i) ∧ (x.1 ≠ 0 → Scanned root r src max x.1 x.2 m') ∧
      (x.1 = 0 → (Scanned root r src max x.1 x.2 m' ↔ StringLegible root r t m src max))) src max dst ?_ ?_
  · have := of_wp hwp hc
    exact this
  · intro buf m' k hk hs hgr hnz hz hrest
    refine ⟨hs.harmless, hrest, fun ha => absurd rfl ha, fun _ => ?_⟩
    dsimp only
    have hseen : ∀ i, i ≤ k → seenByte root r t m (src + i) = buf i := fun i hi => (hgr i hi).2.symm
    have hbyte : ∀ i, i ≤ k → m'.user (root r) (src + i) → m'.byte (root r) (src + i) = buf i := by
      intro i hi hu
      rw [byte_of_served hs hu, (hgr i hi).2, (hs.writable hu).chosen_eq]
    constructor
    · rintro ⟨h1, -⟩ k₀ - hz₀ hnz₀ i hi
      obtain ⟨k', hk', hrd, hz'⟩ := h1.1 rfl
      have hk₀ : k₀ ≤ k := not_lt.1 fun hlt => hnz₀ k hlt ((hseen k le_rfl).trans hz)
      refine hs.legible (hrd i ?_)
      -- The byte where the string ends was found first.
      by_contra hlt
      refine hnz₀ k' (by omega) ?_
      rw [hseen k' (by omega), ← hbyte k' (by omega) (hrd k' le_rfl).1, hz']
    · intro hl
      have hleg := hl k hk ((hseen k le_rfl).trans hz) fun i hi => by
        rw [hseen i hi.le]
        exact hnz i hi
      have hrd : ∀ i, i ≤ k → m'.readable (root r) (src + i) := fun i hi => hs.readable (hleg i hi) (hgr i hi).1
      refine ⟨⟨fun _ => ⟨k, hk, hrd, ?_⟩, fun _ => rfl⟩, fun _ => ⟨k, hk, fun i hi => ?_, hz, hnz⟩⟩
      · rw [hbyte k le_rfl (hrd k le_rfl).1, hz]
      · rw [hbyte i hi (hrd i hi).1]
  · intro a buf m' k ha hk hs hnz hend hrest
    refine ⟨hs.harmless, hrest, fun _ => ⟨⟨fun h0 => absurd h0 ha, ?_⟩, fun h0 => absurd h0 ha⟩, fun h0 => absurd h0 ha⟩
    rintro ⟨k', hk', hrd, hz⟩
    exfalso
    by_cases hlt : k' < k
    · apply hnz k' hlt
      rw [(hs.writable (hrd k' le_rfl).1).chosen_eq, ← byte_of_served hs (hrd k' le_rfl).1]
      exact hz
    · rcases hend with rfl | hend
      · omega
      · exact hend (hrd k (by omega)).1

theorem copies_answer {dst len : Nat} {src buf : Bytes} (h : Users G root m) (hr : root r ≠ 0) (ht : root t = ts.pg)
    (hpg : ts.pg ≠ 0) (hc : Calm G root r t ts m) :
    (∃ x m', copyToUser G ts (root r) dst src len m = .ok (x, m')) ∧
    (∃ x m', copyFromUser G ts (root r) buf dst len m = .ok (x, m')) ∧
    ∃ x m', copyStrFromUser G ts (root r) buf dst len m = .ok (x, m') := by
  have hf := Users.followed root m
  have hto : Stop.wp (fun _ => False) (copyToUser G ts (root r) dst src len) (fun _ _ => True) m :=
    wp_copyToUser h.owned hf h.present hr ht hpg (.inl hc) fun _ _ _ _ _ _ _ => trivial
  have hfrom : Stop.wp (fun _ => False) (copyFromUser G ts (root r) buf dst len) (fun _ _ => True) m :=
    wp_copyFromUser h.owned hf h.present hr ht hpg (.inl hc) fun _ _ _ _ _ _ _ _ _ => trivial
  have hstr : Stop.wp (fun _ => False) (copyStrFromUser G ts (root r) buf dst len) (fun _ _ => True) m :=
    wp_copyStrFromUser h.owned hf h.present hr ht hpg (.inl hc) (fun _ _ _ _ _ _ _ _ _ => trivial)
      fun _ _ _ _ _ _ _ _ _ _ => trivial
  obtain ⟨x, m1, e1, -⟩ := ok_of_wp hto
  obtain ⟨y, m2, e2, -⟩ := ok_of_wp hfrom
  obtain ⟨z, m3, e3, -⟩ := ok_of_wp hstr
  exact ⟨⟨x, m1, e1⟩, ⟨y, m2, e2⟩, z, m3, e3⟩

/-- The three copies, for every page table, address, length and buffer. -/
theorem user_copies (h : Users G root m) (hr : root r ≠ 0) (ht : root t = ts.pg) (hpg : ts.pg ≠ 0) (va len : Nat)
    (src dst : Bytes) :
    (∀ a m', copyToUser G ts (root r) va src len m = .ok (a, m') → Harmless root m m' ∧
      (a = 0 → (Written root r va src len m m' ↔ ∀ i, i < len → Writable root r t m (va + i)))) ∧
    (∀ a buf m', copyFromUser G ts (root r) dst va len m = .ok ((a, buf), m') → Harmless root m m' ∧
      FromUser root va len dst buf m' ∧
      (a = 0 → (Delivered root r va len dst buf m m' ↔ ∀ i, i < len → Legible root r t m (va + i)))) ∧
    (∀ a buf m', copyStrFromUser G ts (root r) dst va len m = .ok ((a, buf), m') → Harmless root m m' ∧
      (∀ i, len ≤ i → buf i = dst i) ∧ (a ≠ 0 → Scanned root r va len a buf m') ∧
      (a = 0 → (Scanned root r va len a buf m' ↔ StringLegible root r t m va len))) ∧
    (Calm G root r t ts m →
      (∃ x m', copyToUser G ts (root r) va src len m = .ok (x, m')) ∧
      (∃ x m', copyFromUser G ts (root r) dst va len m = .ok (x, m')) ∧
      ∃ x m', copyStrFromUser G ts (root r) dst va len m = .ok (x, m')) :=
  ⟨fun _ _ hc => copyToUser_iff h hr ht hpg hc, fun _ _ _ hc => copyFromUser_iff h hr ht hpg hc,
    fun _ _ _ hc => copyStrFromUser_iff h hr ht hpg hc, copies_answer h hr ht hpg⟩

omit [DecidableEq ρ] in
theorem Users.made {va f perm : Nat} {b : Bytes} {tables : List Nat} (h : Users G root m) (hperm : perm < 1024)
    (hm : Made G root (Visible root m) t va f b perm m m' tables) : Users G root m' := by
  constructor
  · refine hm.owned.mono fun r vb hvis hv => ?_
    unfold Visible at hvis
    rw [hm.kept r vb hv] at hvis
    exact hvis hv
  · intro r vb hv hu
    by_cases e : r = t ∧ path vb = path va
    · obtain ⟨rfl, e⟩ := e
      rw [hm.here vb e, PTE2PA_page hm.isPage hperm]
      exact hm.isPage.pos
    · rw [hm.elsewhere r vb e] at hv hu ⊢
      exact h.present r vb hv hu

end

namespace Sample

theorem created_eq : pgCreate blank = .ok (0x1000, created) := eq_ok_of_answer (by decide)

theorem created_tree : Tree gmd 0x1000 created := tree_pgCreate blank_sound created_eq (by decide)

theorem created_leaf (va : Nat) : created.leaf 0x1000 va = 0 := by
  have hz : ∀ i, created.tab 0x1000 i = 0 := by
    intro i
    show (blank.take 0x1000 _).tab 0x1000 i = 0
    rw [Mem.tab_take, if_pos rfl]
  have hl : created.last 0x1000 va = 0 := by
    have h1 : follow created.tab 0x1000 [PX 2 va] = 0 := by
      rw [follow, follow, if_neg (by decide), hz]
    rw [Mem.last, follow, if_pos h1]
  rw [Mem.leaf, if_pos hl]

theorem created_users : Users gmd (solo 0x1000) created := by
  have hleaf : ∀ r va, isV (created.leaf (solo 0x1000 r) va) = false := fun r va => by
    show isV (created.leaf 0x1000 va) = false
    rw [created_leaf]
    rfl
  constructor
  · refine created_tree.of_tables (fun r va _ hv => ?_) fun r va r' vb _ _ hv => ?_
    · rw [hleaf] at hv
      cases hv
    · rw [hleaf] at hv
      cases hv
  · intro r va hv
    rw [hleaf] at hv
    cases hv

/-- The running task, with a heap of two pages that it has not touched. -/
def runner : Heap := ⟨0x1000, 0x10000, 0x12000⟩

/-- Three bytes are stored in the heap. -/
theorem copy_written : ∃ m', copyToUser gmd runner 0x1000 0x10ffd (fun i => UInt8.ofNat (i + 1)) 3 created = .ok (0, m') ∧
    Written (solo 0x1000) ⟨⟩ 0x10ffd (fun i => UInt8.ofNat (i + 1)) 3 created m' := by
  have hc : copyToUser gmd runner (solo 0x1000 ⟨⟩) 0x10ffd (fun i => UInt8.ofNat (i + 1)) 3 created =
      .ok (0, Stop.after (copyToUser gmd runner 0x1000 0x10ffd (fun i => UInt8.ofNat (i + 1)) 3) created) :=
    eq_ok_of_answer (by decide)
  refine ⟨_, hc, ?_⟩
  refine (((user_copies (t := ⟨⟩) created_users (by decide) rfl (by decide) _ _ _ Bytes.zero).1 _ _ hc).2 rfl).2 ?_
  intro i hi
  exact ⟨by unfold MAX_VA; omega, .inr rfl⟩

def mapText : M Bool := do
  let pa ← allocPage
  mappages gmd 0x1000 0x5000 4096 pa (PTE_X ||| PTE_U)

def text : Mem := Stop.after mapText created

theorem text_users : Users gmd (solo 0x1000) text := by
  have hwp : Stop.wp (fun _ => True) mapText (fun ok m' => ok = true → Users gmd (solo 0x1000) m') created := by
    unfold mapText
    rw [wp_bind]
    apply wp_allocPage
    · intro h
      cases h
    intro f rest hf
    rw [Mem.take_eq_fill]
    show Stop.wp _ (mappages gmd (solo 0x1000 ⟨⟩) 0x5000 PG_4K_SIZE f _) _ _
    refine wp_mappages_one (created_users.owned.fill hf) (by decide) (by decide) (by decide) (.inr trivial)
      (fun _ => trivial) (fun _ _ _ _ h => by cases h) fun hv m' tables hg hl _ => ?_
    rw [created_users.owned.leaf_fill hf] at hv
    exact created_users.made (by decide) (created_users.owned.made hf hv (by decide) hg hl)
  have h : Stop.answer mapText created = some true := by decide
  have := of_wp hwp (eq_ok_of_answer h)
  exact this rfl

/-- Its bytes are delivered all the same. -/
theorem text_delivered : Users gmd (solo 0x1000) text ∧ ∃ buf m',
    copyFromUser gmd runner 0x1000 Bytes.zero 0x5000 4 text = .ok ((0, buf), m') ∧
      ¬Delivered (solo 0x1000) ⟨⟩ 0x5000 4 Bytes.zero buf text m' := by
  refine ⟨text_users, ?_⟩
  have hans : (Stop.answer (copyFromUser gmd runner 0x1000 Bytes.zero 0x5000 4) text).map Prod.fst = some 0 ∧
      isR ((Stop.after (copyFromUser gmd runner 0x1000 Bytes.zero 0x5000 4) text).leaf 0x1000 0x5000) = false := by
    decide
  obtain ⟨⟨a, buf⟩, ha, e⟩ := Option.map_eq_some_iff.1 hans.1
  obtain rfl : a = 0 := e
  refine ⟨buf, _, eq_ok_of_answer ha, fun hd => ?_⟩
  have := (hd.bytes 0 (by decide)).1.2
  have hr : isR ((Stop.after (copyFromUser gmd runner 0x1000 Bytes.zero 0x5000 4) text).leaf 0x1000 0x5000) = true := this
  rw [hans.2] at hr
  cases hr

end Sample

end Mm
