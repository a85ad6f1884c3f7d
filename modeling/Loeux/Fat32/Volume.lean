import Loeux.Lib.Bytes
import Loeux.Lib.Linked
import Mathlib.Data.List.Perm.Subperm
/-!
# Clusters of a volume (`fs/fat32.c`)

The file allocation table gives each cluster the next one of its chain, zero if it
is free, or an end mark. The functions that take, link, count and free clusters, and
what taking and following does to a chain that ends.
-/

open Function List Nat

namespace Fat32

def EOF_MARK : Nat := 0x0FFFFFF8

/-- From this value on an entry ends a chain. -/
def EOF_MASK : Nat := 0x0FFFFFF8

def BAD_MARK : Nat := 0x0FFFFFF7

/-- `struct fat32_fs_priv`, with what `fat32_get_super` has checked. It also accepts sectors of
up to 4096 bytes, of which `virtio_blk_read` and `virtio_blk_write` move the first 512 only;
such volumes are left out. -/
structure Fs where
  bytes_per_sector : Nat
  sectors_per_cluster : Nat
  root_cluster : Nat
  cluster_count : Nat
  sector : bytes_per_sector = 512
  cluster : ∃ k, k ≤ 7 ∧ sectors_per_cluster = 2 ^ k
  count : 65525 ≤ cluster_count
  root : 2 ≤ root_cluster
  /-- The number of a cluster fits in an entry and is no mark. -/
  small : cluster_count + 2 ≤ BAD_MARK

/-- The table, of whose entries the driver reads and writes 28 bits, and the bytes of
each cluster. -/
structure Volume where
  fat : Nat → Nat
  data : Nat → Lib.Bytes

def Fs.clusterBytes (fs : Fs) : Nat := fs.bytes_per_sector * fs.sectors_per_cluster

def Fs.isValidCluster (fs : Fs) (c : Nat) : Prop := 2 ≤ c ∧ c < fs.cluster_count + 2 ∧ c < EOF_MASK

instance (fs : Fs) (c : Nat) : Decidable (fs.isValidCluster c) := inferInstanceAs (Decidable (_ ∧ _))

def isChainEnd (v : Nat) : Prop := EOF_MASK ≤ v ∨ v = BAD_MARK ∨ v = 0

instance (v : Nat) : Decidable (isChainEnd v) := inferInstanceAs (Decidable (_ ∨ _))

def Volume.setFat (v : Volume) (c value : Nat) : Volume := { v with fat := Function.update v.fat c (value % 2 ^ 28) }

def fatSet (fs : Fs) (v : Volume) (c value : Nat) : Option Volume :=
  if 2 ≤ c ∧ c < fs.cluster_count + 2 then some (v.setFat c value) else none

/-- `fat32_alloc_cluster`: the first free cluster is marked and cleared. -/
def allocCluster (fs : Fs) (v : Volume) : Option (Volume × Nat) :=
  match (List.range' 2 fs.cluster_count).find? fun c => v.fat c = 0 with
  | none => none
  | some c => some ({ v.setFat c EOF_MARK with data := Function.update v.data c Lib.Bytes.zero }, c)

/-- The loop of `fat32_free_chain`; the first argument is what is left of the guard. -/
def freeLoop (fs : Fs) : Nat → Nat → Volume → Volume
  | 0, _, v => v
  | guard + 1, c, v =>
    if fs.isValidCluster c then
      let next := v.fat c
      let v := v.setFat c 0
      if isChainEnd next then v else freeLoop fs guard next v
    else v

def freeChain (fs : Fs) (start : Nat) (v : Volume) : Volume := freeLoop fs fs.cluster_count start v

def lenLoop (fs : Fs) (v : Volume) : Nat → Nat → Nat
  | 0, _ => 0
  | guard + 1, c =>
    if fs.isValidCluster c then if isChainEnd (v.fat c) then 1 else lenLoop fs v guard (v.fat c) + 1 else 0

def chainLen (fs : Fs) (v : Volume) (start : Nat) : Nat := lenLoop fs v fs.cluster_count start

/-- The loops that look for the last cluster: where they stop, and whether they
have stopped by themselves. -/
def tailLoop (fs : Fs) (v : Volume) : Nat → Nat → Nat × Bool
  | 0, c => (c, false)
  | guard + 1, c =>
    if fs.isValidCluster c then if isChainEnd (v.fat c) then (c, true) else tailLoop fs v guard (v.fat c) else (c, true)

/-! ## Chains -/

def Volume.next (v : Volume) (c : Nat) : Option Nat := if EOF_MASK ≤ v.fat c then none else some (v.fat c)

def start (first : Nat) : Option Nat := if first = 0 then none else some first

/-- The clusters `l` are the chain that begins at `first`; its last entry is an end mark. -/
structure Chain (fs : Fs) (v : Volume) (first : Nat) (l : List Nat) : Prop where
  seg : Lib.Seg v.next (start first) l none
  valid : ∀ c ∈ l, fs.isValidCluster c

section Chain

variable {fs : Fs} {v v' : Volume} {first c z : Nat} {l l' : List Nat}

section

variable (h : fs.isValidCluster c)

include h

theorem Fs.isValidCluster.range : 2 ≤ c ∧ c < fs.cluster_count + 2 := ⟨h.1, h.2.1⟩

omit h in
theorem Fs.valid_of_range (h : 2 ≤ c ∧ c < fs.cluster_count + 2) : fs.isValidCluster c :=
  ⟨h.1, h.2, by have := fs.small; unfold BAD_MARK at this; unfold EOF_MASK; omega⟩

theorem Fs.isValidCluster.not_end : ¬isChainEnd c := by
  have h1 := h.range
  have h2 := fs.small
  unfold isChainEnd EOF_MASK BAD_MARK at *
  omega

theorem Fs.isValidCluster.lt : c < EOF_MASK := h.2.2

theorem Fs.isValidCluster.ne_zero : c ≠ 0 := by
  have := h.1
  omega

theorem start_of_valid : start c = some c := if_neg h.ne_zero

end

theorem Volume.setFat_of_ne {value : Nat} (h : c ≠ z) : (v.setFat z value).fat c = v.fat c := update_of_ne h _ _

theorem Volume.setFat_self {value : Nat} (h : value < 2 ^ 28) : (v.setFat c value).fat c = value := by
  show update v.fat c (value % 2 ^ 28) c = value
  rw [update_self, mod_eq_of_lt h]

theorem Chain.nil : Chain fs v 0 [] := ⟨rfl, fun _ h => nomatch h⟩

theorem chain_zero : Chain fs v 0 l ↔ l = [] := by
  constructor
  · rintro ⟨h, -⟩
    cases l with
    | nil => rfl
    | cons x l => cases h.1
  · rintro rfl
    exact .nil

section

variable (h : Chain fs v first l)

include h

theorem Chain.nodup : l.Nodup := h.seg.nodup

theorem Chain.length_le : l.length ≤ fs.cluster_count := by
  have hsub : l ⊆ range' 2 fs.cluster_count := fun c hc => by
    have := (h.valid c hc).range
    rw [mem_range'_1]
    omega
  have := (subperm_of_subset h.nodup hsub).length_le
  rwa [length_range'] at this

omit h in
theorem Volume.next_congr (h : v'.fat c = v.fat c) : v'.next c = v.next c := by unfold Volume.next; rw [h]

theorem Chain.congr (hf : ∀ c ∈ l, v'.fat c = v.fat c) : Chain fs v' first l :=
  ⟨h.seg.congr fun c hc => Volume.next_congr (hf c hc), h.valid⟩

omit h in
theorem Chain.first_eq (h : Chain fs v first (c :: l)) : first = c := by
  have h1 := h.seg.1
  unfold start at h1
  split_ifs at h1
  exact Option.some.inj h1

theorem Chain.eq_nil_iff : l = [] ↔ first = 0 := by
  constructor
  · rintro rfl
    by_contra hne
    have h1 : start first = none := h.seg
    rw [start, if_neg hne] at h1
    cases h1
  · rintro rfl
    exact chain_zero.1 h

theorem Chain.fat_ne_zero (hc : c ∈ l) : v.fat c ≠ 0 := by
  intro h0
  have hnext : v.next c = some 0 := by rw [Volume.next, h0]; rfl
  rcases h.seg.next_of_mem hc with h1 | ⟨y, hy, h1⟩
  · rw [hnext] at h1
    cases h1
  · rw [hnext] at h1
    exact (h.valid y hy).ne_zero (Option.some.inj h1).symm

end

theorem Chain.tail (h : Chain fs v first (c :: l)) (hl : l ≠ []) : fs.isValidCluster (v.fat c) ∧ Chain fs v (v.fat c) l := by
  cases l with
  | nil => exact absurd rfl hl
  | cons y l =>
    have hy := h.valid y (by simp)
    have hnext : v.next c = some y := h.seg.2.1
    have hfat : v.fat c = y := by
      unfold Volume.next at hnext
      split_ifs at hnext
      exact Option.some.inj hnext
    rw [hfat]
    refine ⟨hy, ?_, fun x hx => h.valid x (mem_cons_of_mem _ hx)⟩
    rw [start_of_valid hy]
    exact ⟨rfl, h.seg.2.2⟩

theorem Chain.last (h : Chain fs v first (l ++ [c])) : EOF_MASK ≤ v.fat c := by
  obtain ⟨m, -, -, h2⟩ := Lib.seg_append.1 h.seg
  have hnext : v.next c = none := h2
  unfold Volume.next at hnext
  split_ifs at hnext with hle
  exact hle

end Chain

/-! ## Taking clusters -/

structure Took (fs : Fs) (v : Volume) (c : Nat) (v' : Volume) : Prop where
  valid : fs.isValidCluster c
  free : v.fat c = 0
  mark : v'.fat c = EOF_MARK
  fat : ∀ x, x ≠ c → v'.fat x = v.fat x
  zero : v'.data c = Lib.Bytes.zero
  data : ∀ x, x ≠ c → v'.data x = v.data x

/-- The chain `l` has got the clusters `new`, which were free and are cleared. -/
structure Grown (fs : Fs) (v : Volume) (first : Nat) (l : List Nat) (v' : Volume) (first' : Nat) (new : List Nat) : Prop where
  chain : Chain fs v' first' (l ++ new)
  first : l ≠ [] → first' = first
  fresh : ∀ c ∈ new, v.fat c = 0
  fat : ∀ c, c ∉ l → c ∉ new → v'.fat c = v.fat c
  zero : ∀ c ∈ new, v'.data c = Lib.Bytes.zero
  data : ∀ c, c ∉ new → v'.data c = v.data c

section Take

variable {fs : Fs} {v v' v'' : Volume} {first first' first'' c z : Nat} {l new new' : List Nat}

theorem took_of_alloc (h : allocCluster fs v = some (v', c)) : Took fs v c v' := by
  unfold allocCluster at h
  split at h
  · cases h
  · next hfind =>
    cases h
    have hmem := mem_of_find?_eq_some hfind
    have hfree := find?_some hfind
    rw [mem_range'_1] at hmem
    exact
      { valid := Fs.valid_of_range (by omega)
        free := of_decide_eq_true hfree
        mark := Volume.setFat_self (by decide)
        fat := fun x hx => Volume.setFat_of_ne hx
        zero := update_self _ _ _
        data := fun x hx => update_of_ne hx _ _ }

theorem Took.not_mem (h : Took fs v c v') (hl : Chain fs v first l) : c ∉ l := fun hc => hl.fat_ne_zero hc h.free

theorem Took.next_self (h : Took fs v c v') : v'.next c = none := by
  rw [Volume.next, h.mark]
  rfl

theorem Took.single (h : Took fs v c v') : Grown fs v 0 [] v' c [c] where
  chain := by
    refine ⟨?_, fun x hx => ?_⟩
    · rw [start_of_valid h.valid]
      exact ⟨rfl, h.next_self⟩
    · rw [nil_append, mem_singleton] at hx
      rw [hx]
      exact h.valid
  first hne := absurd rfl hne
  fresh x hx := by rw [mem_singleton.1 hx]; exact h.free
  fat x _ hx := h.fat x fun e => hx (mem_singleton.2 e)
  zero x hx := by rw [mem_singleton.1 hx]; exact h.zero
  data x hx := h.data x fun e => hx (mem_singleton.2 e)

theorem Took.link (h : Took fs v c v') (hl : Chain fs v first (l ++ [z])) :
    Grown fs v first (l ++ [z]) (v'.setFat z c) first [c] := by
  have hc := h.not_mem hl
  rw [mem_append, mem_singleton, not_or] at hc
  have hz : z ∉ l := fun hz => (nodup_append.1 hl.nodup).2.2 z hz z (mem_singleton_self z) rfl
  refine
    { chain := ⟨?_, fun x hx => ?_⟩, first := fun _ => rfl, fresh := fun x hx => ?_, fat := fun x hx hx' => ?_,
      zero := fun x hx => ?_, data := fun x hx => ?_ }
  · have hkeep : ∀ x ∈ l, (v'.setFat z c).next x = v.next x := fun x hx => Volume.next_congr (by
      rw [Volume.setFat_of_ne (ne_of_mem_of_not_mem hx hz), h.fat x (ne_of_mem_of_not_mem hx hc.1)])
    have hseg := hl.seg.redirect hkeep
    have hlink : (v'.setFat z c).next z = some c := by
      have hfat : (v'.setFat z c).fat z = c := Volume.setFat_self (by have := h.valid.lt; unfold EOF_MASK at this; omega)
      rw [Volume.next, hfat, if_neg (Nat.not_le.2 h.valid.lt)]
    rw [hlink] at hseg
    refine hseg.snoc ?_
    rw [Volume.next_congr (Volume.setFat_of_ne hc.2), h.next_self]
  · rcases mem_append.1 hx with hx | hx
    · exact hl.valid x hx
    · rw [mem_singleton.1 hx]
      exact h.valid
  · rw [mem_singleton.1 hx]
    exact h.free
  · rw [mem_append, mem_singleton, not_or] at hx
    rw [Volume.setFat_of_ne hx.2, h.fat x fun e => hx' (mem_singleton.2 e)]
  · rw [mem_singleton.1 hx]
    exact h.zero
  · exact h.data x fun e => hx (mem_singleton.2 e)

theorem Grown.refl (hl : Chain fs v first l) : Grown fs v first l v first [] where
  chain := by rwa [append_nil]
  first _ := rfl
  fresh _ h := nomatch h
  fat _ _ _ := rfl
  zero _ h := nomatch h
  data _ _ := rfl

theorem Took.grown (h : Took fs v c v') (hl : Chain fs v first l) {tail : Nat} (ht : tail = l.getLastD 0) :
    Grown fs v first l (if tail = 0 then v' else (fatSet fs v' tail c).getD v') (if tail = 0 then c else first) [c] := by
  rcases eq_nil_or_concat l with rfl | ⟨l, z, rfl⟩
  · have ht : tail = 0 := ht
    rw [if_pos ht, if_pos ht]
    obtain rfl := (hl.eq_nil_iff).1 rfl
    exact h.single
  · rw [concat_eq_append] at *
    rw [getLastD_concat] at ht
    subst ht
    have hz := hl.valid tail (by simp)
    rw [if_neg hz.ne_zero, if_neg hz.ne_zero, fatSet, if_pos hz.range]
    exact h.link hl

end Take

/-! ## Following a chain -/

section Follow

variable {fs : Fs} {v v' : Volume} {first c z : Nat} {l l' : List Nat}

theorem Chain.isChainEnd_iff (h : Chain fs v first (c :: l)) : isChainEnd (v.fat c) ↔ l = [] := by
  constructor
  · intro hend
    by_contra hne
    exact (h.tail hne).1.not_end hend
  · rintro rfl
    exact .inl (Chain.last (l := []) h)

section

variable (h : Chain fs v first l)

include h

theorem tailLoop_eq {guard : Nat} (hl : l ≠ []) (hg : l.length ≤ guard) :
    tailLoop fs v guard first = (l.getLastD 0, true) := by
  induction l generalizing first guard with
  | nil => exact absurd rfl hl
  | cons c l ih =>
    cases guard with
    | zero => cases hg
    | succ guard =>
      obtain rfl := h.first_eq
      rw [tailLoop, if_pos (h.valid first (by simp))]
      by_cases hnil : l = []
      · subst hnil
        rw [if_pos (h.isChainEnd_iff.2 rfl)]
        rfl
      · rw [if_neg (mt h.isChainEnd_iff.1 hnil), ih (h.tail hnil).2 hnil (by simpa using hg)]
        cases l with
        | nil => exact absurd rfl hnil
        | cons y l => rfl

end

end Follow

end Fat32
