import Loeux.Lib.Runs
import Loeux.Mm.Mapping
/-!
# Laws of one page table

A page table that was made by `pg_create` and then changed by any calls of
`mappages` and `pg_unmap`, while the rest of the kernel leaves its tables alone.
Mapping a range translates exactly its addresses to the pages given, unmapping
it restores the translation, and the two functions that translate an address
agree.
-/

namespace Mm

open Lib Lib.Forest List Stop Nat

/-! ## Following other pages -/

section Follow

variable {G : Gmd} {ρ : Type} {root : ρ → Nat} {L L' : ρ → Nat → Prop} {m : Mem}

theorem IsSlot.mono (h : ∀ r va, L r va → L' r va) {x : ρ × List Nat} (hx : IsSlot L x) : IsSlot L' x :=
  ⟨hx.index, hx.place.imp_right fun ⟨va, e, hL⟩ => ⟨va, e, h _ _ hL⟩⟩

theorem Owned.mono (h : Owned G root L' m) (hL : ∀ r va, L r va → L' r va) : Owned G root L m :=
  ⟨h.sound, fun x y hx hy => h.inj x y (hx.mono hL) (hy.mono hL), fun x hx => h.used x (hx.mono hL),
    fun r p i hx => h.linked r p i (hx.mono hL)⟩

theorem Owned.of_tables (h : Owned G root (fun _ _ => False) m)
    (hpage : ∀ r va, L r va → isV (m.leaf (root r) va) = true →
      m.used (PTE2PA (m.leaf (root r) va)) = true ∧ ¬IsTable root m (PTE2PA (m.leaf (root r) va)))
    (honce : ∀ r va r' vb, L r va → L r' vb → isV (m.leaf (root r) va) = true →
      isV (m.leaf (root r') vb) = true → PTE2PA (m.leaf (root r) va) = PTE2PA (m.leaf (root r') vb) →
      r = r' ∧ path va = path vb) : Owned G root L m := by
  have hcase : ∀ x, IsSlot L x → x.2.length ≤ 2 ∨ ∃ va, x.2 = path va ∧ L x.1 va := fun x hx => hx.place
  have hleaf : ∀ r va, L r va → ptr root m.tab (r, path va) ≠ 0 → isV (m.leaf (root r) va) = true ∧
      ptr root m.tab (r, path va) = PTE2PA (m.leaf (root r) va) := by
    intro r va hL h0
    rw [ptr_leaf] at h0 ⊢
    split_ifs at h0 ⊢ with hv
    · exact ⟨hv, rfl⟩
    · exact absurd rfl h0
  refine ⟨h.sound, ?_, ?_, fun r p i hx hp => h.linked r p i (isSlot_table (by simpa using hp) hx.index) hp⟩
  · rintro ⟨r, p⟩ ⟨r', q⟩ hx hy h0 he
    rcases hcase _ hx with hp | ⟨va, rfl, hL⟩
    · rcases hcase _ hy with hq | ⟨vb, rfl, hL'⟩
      · exact h.inj _ _ (isSlot_table hp hx.index) (isSlot_table hq hy.index) h0 he
      · obtain ⟨hv, e⟩ := hleaf r' vb hL' (by rw [← he]; exact h0)
        exact absurd ⟨r, p, hp, hx.index, by rw [he, e]⟩ (hpage r' vb hL' hv).2
    · obtain ⟨hv, e⟩ := hleaf r va hL h0
      rcases hcase _ hy with hq | ⟨vb, rfl, hL'⟩
      · exact absurd ⟨r', q, hq, hy.index, by rw [← he, e]⟩ (hpage r va hL hv).2
      · obtain ⟨hv', e'⟩ := hleaf r' vb hL' (by rw [← he]; exact h0)
        obtain ⟨rfl, e''⟩ := honce r va r' vb hL hL' hv hv' (by rw [← e, ← e', he])
        exact Prod.ext rfl e''
  · rintro ⟨r, p⟩ hx h0
    rcases hcase _ hx with hp | ⟨va, rfl, hL⟩
    · exact h.used _ (isSlot_table hp hx.index) h0
    · obtain ⟨hv, e⟩ := hleaf r va hL h0
      rw [e]
      exact (hpage r va hL hv).1

end Follow

/-! ## One page table -/

def solo (pt : Nat) : Unit → Nat := fun _ => pt

abbrev Tree (G : Gmd) (pt : Nat) (m : Mem) : Prop := Owned G (solo pt) (fun _ _ => False) m

inductive TreeOp
  | map (va size pa perm : Nat)
  | unmap (va npages : Nat) (do_free : Bool)
  | other

/-- A call that returns, or something else that the kernel does and that leaves
the tables alone. -/
def TreeStep (G : Gmd) (pt : Nat) (m : Mem) : TreeOp → Mem → Prop
  | .map va size pa perm, m' => ∃ b, mappages G pt va size pa perm m = .ok (b, m')
  | .unmap va npages do_free, m' => pgUnmap G pt va npages do_free m = .ok (⟨⟩, m')
  | .other, m' => m'.Sound G ∧ ∀ f, IsTable (solo pt) m f → f ≠ 0 → m'.page f = m.page f ∧ m'.used f = true

/-- The pages that are mapped in a range can be given back: they are in use, no
tables, and mapped once. -/
def Givable (pt : Nat) (m : Mem) (va n : Nat) : Prop :=
  (∀ vb, InRange va n vb → isV (m.leaf pt vb) = true →
    m.used (PTE2PA (m.leaf pt vb)) = true ∧ ¬IsTable (solo pt) m (PTE2PA (m.leaf pt vb))) ∧
  ∀ vb vc, InRange va n vb → InRange va n vc → isV (m.leaf pt vb) = true → isV (m.leaf pt vc) = true →
    PTE2PA (m.leaf pt vb) = PTE2PA (m.leaf pt vc) → path vb = path vc

/-- The arguments are 64-bit numbers, and only such pages are given back. -/
def Tidy (pt : Nat) (m : Mem) : TreeOp → Prop
  | .map _ _ pa perm => pa < 2 ^ 64 ∧ perm < 2 ^ 64
  | .unmap va npages do_free => va < 2 ^ 64 ∧ (do_free = true → Givable pt m va (unmapRounds va npages))
  | .other => True

section Tree

variable {G : Gmd} {pt : Nat} {m m' : Mem} {E : Halt → Prop}

theorem entry_lt_of_perm {pa perm : Nat} (hpa : pa < 2 ^ 64) (hperm : perm < 2 ^ 64) :
    PA2PTE pa ||| perm ||| PTE_V < 2 ^ 64 := by
  refine or_lt_two_pow (or_lt_two_pow ?_ hperm) (by decide)
  unfold PA2PTE
  omega

theorem tree_mappages (hpt : pt ≠ 0) (h : Tree G pt m) {va size pa perm : Nat} (hpa : pa < 2 ^ 64)
    (hperm : perm < 2 ^ 64) :
    Stop.wp (fun _ => True) (mappages G pt va size pa perm) (fun _ m' => Tree G pt m') m := by
  unfold mappages
  split_ifs
  · trivial
  · trivial
  · trivial
  refine wp_loop_late trivial (fun x m' => x.2 < 2 ^ 64 ∧ Tree G pt m') ?_ ⟨hpa, h⟩
  rintro ⟨a, b⟩ m' ⟨hb, h'⟩
  have hadd : add b PG_4K_SIZE < 2 ^ 64 := mod_lt _ (by decide)
  by_cases ha : MAX_VA < a
  · unfold mapRound pteWalk
    rw [if_pos ha]
    exact h'
  show Stop.wp _ (mapRound (solo pt ()) _ perm (a, b)) _ m'
  refine wp_mapRound h' hpt (by omega) (fun _ => trivial) (fun _ _ hg _ => hg.owned) fun _ m'' taken hg hl => ?_
  have hown : Tree G pt _ := hg.owned.store hl (entry_lt_of_perm hb hperm) fun _ _ hL => hL.elim
  split_ifs
  · exact hown
  · exact ⟨hadd, hown⟩

theorem tree_pgUnmap (hpt : pt ≠ 0) (h : Tree G pt m) {va npages : Nat} {do_free : Bool} (hva : va < 2 ^ 64)
    (halign : va % PG_4K_SIZE = 0) (hrounds : unmapRounds va npages < G.rounds ∨ E .endless)
    (hgive : do_free = true → Givable pt m va (unmapRounds va npages)) {Q : Unit → Mem → Prop}
    (hQ : ∀ m', Cleared G (solo pt) (fun _ _ => False) ⟨⟩ va (unmapRounds va npages) m m'
      (if do_free then m.mapped pt va (unmapRounds va npages) else []) → Q ⟨⟩ m') :
    Stop.wp E (pgUnmap G pt va npages do_free) Q m := by
  obtain ⟨h1, h2, h3⟩ := @unmapRounds_spec va npages halign hva
  show Stop.wp E (pgUnmap G (solo pt ()) va npages do_free) Q m
  cases do_free with
  | false => exact wp_pgUnmap h hpt halign h1 h2 h3 hrounds (fun hd => by cases hd) (fun hd => by cases hd) fun _ => hQ
  | true =>
    obtain ⟨hpage, honce⟩ := hgive rfl
    have hown : Owned G (solo pt) (fun _ => InRange va (unmapRounds va npages)) m :=
      h.of_tables (fun _ vb hvb => hpage vb hvb) fun _ vb _ vc hvb hvc hv hv' e => ⟨rfl, honce vb vc hvb hvc hv hv' e⟩
    refine wp_pgUnmap hown hpt halign h1 h2 h3 hrounds (fun _ vb hvb hv h0 => ?_) (fun _ _ hvb _ => hvb)
      fun _ m' hc => hQ m' ?_
    · exact absurd h0 (h.sound.used _ (hpage vb hvb hv).1).pos
    · exact { hc with owned := hc.owned.mono fun _ _ => False.elim }

theorem tree_step (hpt : pt ≠ 0) (h : Tree G pt m) {op : TreeOp} (htidy : Tidy pt m op) (hs : TreeStep G pt m op m') :
    Tree G pt m' := by
  cases op with
  | map va size pa perm =>
    obtain ⟨b, he⟩ := hs
    have hwp := @tree_mappages G pt m hpt h va size pa perm htidy.1 htidy.2
    have := of_wp hwp he
    exact this
  | unmap va npages do_free =>
    by_cases halign : va % PG_4K_SIZE = 0
    · have hwp := tree_pgUnmap (E := fun _ => True) hpt h htidy.1 halign (.inr trivial) htidy.2
        (Q := fun _ m' => Tree G pt m') fun m' hc => hc.owned
      have := of_wp hwp hs
      exact this
    · have hs : pgUnmap G pt va npages do_free m = .ok (⟨⟩, m') := hs
      unfold pgUnmap at hs
      rw [if_pos halign] at hs
      cases hs
  | other =>
    refine h.congr hs.1 (fun f hf h0 => (hs.2 f hf h0).1) fun x hx h0 => ?_
    rcases hx.place with hp | ⟨_, _, hL⟩
    · exact (hs.2 _ ⟨x.1, x.2, hp, hx.index, rfl⟩ h0).2
    · exact hL.elim

theorem tree_pgCreate (hs : m.Sound G) (hc : pgCreate m = .ok (pt, m')) (hpt : pt ≠ 0) : Tree G pt m' := by
  unfold pgCreate allocPage at hc
  cases hf : m.free with
  | nil =>
    rw [hf] at hc
    cases hc
    exact absurd rfl hpt
  | cons f rest =>
    rw [hf] at hc
    obtain ⟨rfl, rfl⟩ := Prod.mk.inj (Except.ok.inj hc)
    have htab : ∀ i, (m.take f rest).tab f i = 0 := fun i => by rw [Mem.tab_take, if_pos rfl]
    -- The only pointer is the root.
    have hzero : ∀ p : List Nat, ptr (solo f) (m.take f rest).tab (⟨⟩, p) ≠ 0 → p = [] := by
      intro p
      induction p with
      | nil => exact fun _ => rfl
      | cons i p ih =>
        intro h0
        rw [ptr_cons] at h0
        by_cases h1 : ptr (solo f) (m.take f rest).tab (⟨⟩, p) = 0
        · rw [if_pos h1] at h0
          exact absurd rfl h0
        · rw [if_neg h1, ih h1] at h0
          exact absurd (htab i) h0
    refine ⟨hs.take hf, fun x y hx hy h0 he => ?_, fun x hx h0 => ?_, fun r p i hx hp h0 hv => ?_⟩
    · exact Prod.ext rfl ((hzero x.2 h0).trans (hzero y.2 (by rw [← he]; exact h0)).symm)
    · obtain ⟨⟨⟩, p⟩ := x
      obtain rfl := hzero p h0
      show (m.take f rest).used f = true
      rw [Mem.take_used, if_pos rfl]
    · obtain rfl := hzero p h0
      have hz : (m.take f rest).pte f i = 0 := by rw [Mem.pte_take, if_pos rfl]
      have hv : isV ((m.take f rest).pte f i) = true := hv
      rw [hz] at hv
      cases hv

structure MapLaw (G : Gmd) (pt va n pa perm : Nat) (m m' : Mem) : Prop where
  translated : ∀ k, k < 4096 * n → va2pa pt (va + k) m' = .ok (add pa k, m')
  permitted : ∀ k, k < 4096 * n → PTE_FLAGS (m'.leaf pt (va + k)) = perm ||| PTE_V
  unchanged : ∀ vb, ¬(va ≤ vb % 2 ^ 39 ∧ vb % 2 ^ 39 < va + 4096 * n) →
    m'.leaf pt vb = m.leaf pt vb ∧ ∃ x, va2pa pt vb m = .ok (x, m) ∧ va2pa pt vb m' = .ok (x, m')
  fresh : ∃ taken, m.free = taken ++ m'.free ∧
    ∀ f, f ≠ 0 → (IsTable (solo pt) m' f ↔ IsTable (solo pt) m f ∨ f ∈ taken)
  restored : ∀ do_free, (do_free = true → ∀ j, j < n →
      m'.used (add pa (4096 * j)) = true ∧ ¬IsTable (solo pt) m' (add pa (4096 * j))) →
    ∃ m'', pgUnmap G pt va n do_free m' = .ok (⟨⟩, m'') ∧
      (∀ vb, ∃ x, va2pa pt vb m = .ok (x, m) ∧ va2pa pt vb m'' = .ok (x, m'')) ∧
      m''.free = m'.free ++ if do_free then (List.range n).map fun j => add pa (4096 * j) else []

/-- `walkaddr` and `va2pa` agree on the addresses that are mapped for the user. -/
def Agree (pt : Nat) (m : Mem) : Prop :=
  ∀ va, va % 4096 = 0 → va < MAX_VA → isV (m.leaf pt va) = true → isU (m.leaf pt va) = true →
    ∃ x, walkaddr pt va m = .ok (x, m) ∧ va2pa pt va m = .ok (x, m)

theorem tree_va2pa (hpt : pt ≠ 0) (h : Tree G pt m) (va : Nat) : va2pa pt va m = .ok (m.translate pt va, m) := by
  have := @va2pa_eq G Unit (solo pt) _ m ⟨⟩ h hpt va
  exact this

theorem tree_agree (hpt : pt ≠ 0) (h : Tree G pt m) : Agree pt m := by
  intro va halign hva hv hu
  refine ⟨_, ?_, tree_va2pa hpt h va⟩
  have hwp : Stop.wp (fun _ => False) (walkaddr (solo pt ()) va) (fun a m' => a = m.translate pt va ∧ m' = m) m := by
    refine wp_walkaddr h hpt ⟨?_, rfl⟩
    rw [if_pos ⟨hva, hv, hu⟩, Mem.translate, if_pos hv, halign, or_zero]
    rfl
  obtain ⟨a, m', he, rfl, rfl⟩ := ok_of_wp hwp
  exact he

section Range

variable {va n pa perm : Nat} {taken : List Nat}

theorem path_offset {a k : Nat} (ha : a % 4096 = 0) : path (a + k) = path (a + 4096 * (k / 4096)) := by
  apply path_congr
  omega

theorem path_ne_of_outside {vb j : Nat} (halign : va % 4096 = 0) (hend : va + 4096 * n ≤ MAX_VA) (hj : j < n)
    (hvb : ¬(va ≤ vb % 2 ^ 39 ∧ vb % 2 ^ 39 < va + 4096 * n)) : path vb ≠ path (va + 4096 * j) := by
  intro e
  have := path_inj e
  simp only [MAX_VA] at hend
  omega

section

variable (hm : Mapped G (solo pt) (fun _ _ => False) ⟨⟩ va pa perm n m m' taken)

include hm

theorem Mapped.translate
    (halign : va % 4096 = 0) (hpalign : pa % 4096 = 0) (hperm : perm < 1024) {k : Nat} (hk : k < 4096 * n) :
    m'.leaf pt (va + k) = PA2PTE (add pa (4096 * (k / 4096))) ||| perm ||| PTE_V ∧
      m'.translate pt (va + k) = add pa k := by
  have hadd : add pa (4096 * (k / 4096)) < 2 ^ 64 := mod_lt _ (by decide)
  have hleaf : m'.leaf pt (va + k) = PA2PTE (add pa (4096 * (k / 4096))) ||| perm ||| PTE_V := by
    rw [leaf_congr (path_offset halign)]
    exact hm.inside (k / 4096) (by omega)
  refine ⟨hleaf, ?_⟩
  have hor : ∀ x y, y < 4096 → x * 4096 ||| y = x * 4096 + y := by
    intro x y hy
    rw [Nat.mul_comm]
    exact (two_pow_add_eq_or_of_lt (i := 12) hy x).symm
  rw [Mem.translate, hleaf, isV_entry, if_pos rfl, PTE2PA_entry hadd hperm, hor _ _ (mod_lt _ (by decide))]
  simp only [add]
  omega

omit hm in
theorem unmapRounds_of_le (hend : va + 4096 * n ≤ MAX_VA) : unmapRounds va n = n := by
  simp only [unmapRounds, add, mul, PG_4K_SIZE, MAX_VA] at *
  omega

theorem Mapped.mapped_eq (hpalign : pa % 4096 = 0) (hend : va + 4096 * n ≤ MAX_VA) (hperm : perm < 1024) :
    ∀ k, k ≤ n → m'.mapped pt va k = (List.range k).map fun j => add pa (4096 * j) := by
  intro k hk
  induction k with
  | zero => rfl
  | succ k ih =>
    have hadd : add pa (4096 * k) < 2 ^ 64 := mod_lt _ (by decide)
    have hleaf : m'.leaf pt (va + 4096 * k) = _ := hm.inside k (by omega)
    rw [Mem.mapped, ih (by omega), range_succ, map_append, if_pos ⟨by omega, by rw [hleaf, isV_entry]⟩,
      hleaf, PTE2PA_entry hadd hperm]
    simp only [map_cons, map_nil, append_cancel_left_eq, List.cons.injEq, and_true, add]
    omega

theorem Mapped.givable (hpalign : pa % 4096 = 0) (hend : va + 4096 * n ≤ MAX_VA) (hperm : perm < 1024)
    (hused : ∀ j, j < n → m'.used (add pa (4096 * j)) = true ∧ ¬IsTable (solo pt) m' (add pa (4096 * j))) :
    Givable pt m' va n := by
  have hleaf : ∀ vb, InRange va n vb → ∃ j, j < n ∧ path vb = path (va + 4096 * j) ∧
      PTE2PA (m'.leaf pt vb) = add pa (4096 * j) := by
    rintro vb ⟨j, hj, -, e⟩
    have hadd : add pa (4096 * j) < 2 ^ 64 := mod_lt _ (by decide)
    refine ⟨j, hj, e, ?_⟩
    rw [leaf_congr e, show m'.leaf pt (va + 4096 * j) = _ from hm.inside j hj, PTE2PA_entry hadd hperm]
    simp only [add]
    omega
  constructor
  · intro vb hvb _
    obtain ⟨j, hj, -, e⟩ := hleaf vb hvb
    rw [e]
    exact hused j hj
  · intro vb vc hvb hvc _ _ e
    obtain ⟨j, hj, ej, e1⟩ := hleaf vb hvb
    obtain ⟨j', hj', ej', e2⟩ := hleaf vc hvc
    rw [e1, e2] at e
    have : j = j' := by
      simp only [add, MAX_VA] at e hend
      omega
    rw [ej, ej', this]

end

theorem Mapped.law (hpt : pt ≠ 0) (h : Tree G pt m)
    (hm : Mapped G (solo pt) (fun _ _ => False) ⟨⟩ va pa perm n m m' taken) (halign : va % 4096 = 0)
    (hend : va + 4096 * n ≤ MAX_VA) (hpalign : pa % 4096 = 0) (hperm : perm < 1024)
    (hfree : ∀ j, j < n → isV (m.leaf pt (va + 4096 * j)) = false) (hrounds : n < G.rounds) :
    MapLaw G pt va n pa perm m m' where
  translated k hk := by rw [tree_va2pa hpt hm.owned, (hm.translate halign hpalign hperm hk).2]
  permitted k hk := by rw [(hm.translate halign hpalign hperm hk).1, PTE_FLAGS_entry hperm]
  unchanged vb hvb := by
    have hl : m'.leaf pt vb = m.leaf pt vb :=
      hm.outside ⟨⟩ vb (.inr fun j hj => path_ne_of_outside halign hend hj hvb)
    refine ⟨hl, _, tree_va2pa hpt h vb, ?_⟩
    rw [tree_va2pa hpt hm.owned, Mem.translate, Mem.translate, hl]
  fresh := ⟨taken, hm.free, hm.table⟩
  restored do_free hgive := by
    have hu := unmapRounds_of_le hend
    have hva : va < 2 ^ 64 := by
      simp only [MAX_VA] at hend
      omega
    have hwp := @tree_pgUnmap G pt m' (fun _ => False) hpt hm.owned va n do_free hva halign
      (by rw [hu]; exact .inl hrounds)
      (fun hd => by rw [hu]; exact hm.givable hpalign hend hperm (hgive hd))
      (fun _ m'' => Cleared G (solo pt) (fun _ _ => False) ⟨⟩ va n m' m'' (if do_free then m'.mapped pt va n else []))
      (fun m'' hc => by rwa [hu] at hc)
    obtain ⟨⟨⟩, m'', he, hc⟩ := ok_of_wp hwp
    refine ⟨m'', he, fun vb => ⟨_, tree_va2pa hpt h vb, ?_⟩, ?_⟩
    · rw [tree_va2pa hpt hc.owned]
      by_cases hr : InRange va n vb
      · obtain ⟨j, hj, hle, e⟩ := hr
        have h1 : isV (m''.leaf pt vb) = false := hc.inside vb ⟨j, hj, hle, e⟩
        have h2 : isV (m.leaf pt vb) = false := by
          rw [leaf_congr e]
          exact hfree j hj
        rw [Mem.translate, Mem.translate, if_neg (by simp [h1]), if_neg (by simp [h2])]
      · have h1 : m''.leaf pt vb = m'.leaf pt vb := hc.outside ⟨⟩ vb (.inr hr)
        have h2 : m'.leaf pt vb = m.leaf pt vb :=
          hm.outside ⟨⟩ vb (.inr fun j hj e => hr ⟨j, hj, by omega, e⟩)
        rw [Mem.translate, Mem.translate, h1, h2]
    · rw [hc.free, hm.mapped_eq hpalign hend hperm n le_rfl]

end Range

section Reachable

variable {m₀ m₁ : Mem} {ops : List TreeOp}

theorem tree_of_run (hs : m₀.Sound G) (hc : pgCreate m₀ = .ok (pt, m₁)) (hpt : pt ≠ 0)
    (hrun : Run (Guarded (Tidy pt) (TreeStep G pt)) m₁ ops m) : Tree G pt m :=
  hrun.inv (Tree G pt) (fun _ _ _ h htidy hstep => tree_step hpt h htidy hstep) (tree_pgCreate hs hc hpt)

/-- In every page table that calls have made, whether the last one succeeded or not. -/
theorem walkaddr_agrees (hs : m₀.Sound G) (hc : pgCreate m₀ = .ok (pt, m₁)) (hpt : pt ≠ 0)
    (hrun : Run (Guarded (Tidy pt) (TreeStep G pt)) m₁ ops m) : Agree pt m := tree_agree hpt (tree_of_run hs hc hpt hrun)

end Reachable

/-- The laws of a page table, after any calls that have changed it. -/
theorem page_table_laws {m₀ m₁ : Mem} {ops : List TreeOp} {va n pa perm : Nat} (hs : m₀.Sound G)
    (hc : pgCreate m₀ = .ok (pt, m₁)) (hpt : pt ≠ 0) (hrun : Run (Guarded (Tidy pt) (TreeStep G pt)) m₁ ops m)
    (halign : va % 4096 = 0) (hn : 0 < n) (hend : va + 4096 * n ≤ MAX_VA) (hpa : pa < 2 ^ 64)
    (hpalign : pa % 4096 = 0) (hperm : perm < 1024)
    (hfree : ∀ j, j < n → isV (m.leaf pt (va + 4096 * j)) = false) (hrounds : n < G.rounds)
    (hmap : mappages G pt va (4096 * n) pa perm m = .ok (true, m')) :
    MapLaw G pt va n pa perm m m' ∧ Agree pt m := by
  have h := tree_of_run hs hc hpt hrun
  refine ⟨?_, walkaddr_agrees hs hc hpt hrun⟩
  have hwp : Stop.wp (fun _ => True) (mappages G (solo pt ()) va (4096 * n) pa perm)
      (fun b m' => b = true → MapLaw G pt va n pa perm m m') m := by
    refine wp_mappages h hpt halign hn hend hpa hperm (fun _ _ _ _ hL => hL) hfree (.inr trivial)
      (fun _ _ _ _ _ _ hb => by cases hb) fun m' taken hm _ => ?_
    exact hm.law hpt h halign hend hpalign hperm hfree hrounds
  exact of_wp hwp hmap rfl

end Tree

namespace Sample

def gmd : Gmd := ⟨0x1000, 0x100000, fun _ => false, 0x200000, 2 ^ 32, by decide⟩

def blank : Mem := ⟨fun _ => Bytes.zero, [0x1000, 0x2000, 0x3000, 0x4000], fun _ => false, fun _ => 0, 0⟩

theorem blank_sound : blank.Sound gmd where
  nodup := by decide
  page f hf := by
    have h : ∀ f ∈ blank.free, f ≠ 0 ∧ f % PG_4K_SIZE = 0 ∧ gmd.free_start_at ≤ f ∧ f ≤ gmd.free_end_at := by decide
    obtain ⟨h1, h2, h3, h4⟩ := h f hf
    exact ⟨h1, h2, h3, h4, rfl⟩
  unused _ _ := rfl
  zero _ _ := rfl
  one _ h := by cases h
  used _ h := by cases h

def created : Mem := Stop.after pgCreate blank

def mapping : M Bool := mappages gmd 0x1000 0x5000 4096 0x8000 (PTE_R ||| PTE_U)

theorem mapping_law : Stop.answer mapping created = some true ∧
    MapLaw gmd 0x1000 0x5000 1 0x8000 (PTE_R ||| PTE_U) created (Stop.after mapping created) := by
  have h : Stop.answer mapping created = some true := by decide
  have hmap : mappages gmd 0x1000 0x5000 (4096 * 1) 0x8000 (PTE_R ||| PTE_U) created =
      .ok (true, Stop.after mapping created) := eq_ok_of_answer h
  have hmake : pgCreate blank = .ok (0x1000, created) := eq_ok_of_answer (by decide)
  refine ⟨h, (page_table_laws blank_sound hmake (by decide) (.nil _) (by decide) (by decide) (by decide) (by decide)
    (by decide) (by decide) ?_ (by decide) hmap).1⟩
  decide

/-- The translation does not look at the bits from 39 on, so that mapping one
page changes the translation of another address too. -/
theorem mapping_aliases : Stop.answer mapping created = some true ∧
    Stop.answer (va2pa 0x1000 (2 ^ 39 + 0x5000)) created = some (2 ^ 64 - 1) ∧
    Stop.answer (va2pa 0x1000 (2 ^ 39 + 0x5000)) (Stop.after mapping created) = some 0x8000 := by
  decide

end Sample

end Mm
