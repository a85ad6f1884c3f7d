import Loeux.Fat32.Dir
/-!
# Slots of a directory

Which slots a walk visits, what storing an entry changes, and what calls of
`fat32_readdir` list one after another.
-/

namespace Fat32

open Lib Function List Nat

section Geometry

variable {fs : Fs} {off off' : Nat}

theorem Fs.sector_dvd (fs : Fs) : DIRENT_SIZE ∣ fs.bytes_per_sector := by
  rw [fs.sector]
  decide

theorem Fs.sector_pos (fs : Fs) : 0 < fs.bytes_per_sector := by
  rw [fs.sector]
  decide

theorem Fs.sectors_pos (fs : Fs) : 0 < fs.sectors_per_cluster := by
  obtain ⟨k, -, h⟩ := fs.cluster
  rw [h]
  exact Nat.two_pow_pos k

theorem Fs.mem_offsets : off ∈ fs.offsets ↔ ∃ s < fs.sectors_per_cluster, ∃ i < fs.bytes_per_sector / DIRENT_SIZE,
    s * fs.bytes_per_sector + i * DIRENT_SIZE = off := by
  simp only [Fs.offsets, mem_flatMap, mem_map, mem_range]

theorem Fs.dvd_of_mem_offsets (h : off ∈ fs.offsets) : DIRENT_SIZE ∣ off := by
  obtain ⟨s, -, i, -, rfl⟩ := Fs.mem_offsets.1 h
  exact Nat.dvd_add (Dvd.dvd.mul_left fs.sector_dvd s) (Nat.dvd_mul_left _ i)

theorem Fs.offsets_apart (h : off ∈ fs.offsets) (h' : off' ∈ fs.offsets) (hne : off ≠ off') :
    off + DIRENT_SIZE ≤ off' ∨ off' + DIRENT_SIZE ≤ off := by
  obtain ⟨a, rfl⟩ := Fs.dvd_of_mem_offsets h
  obtain ⟨b, rfl⟩ := Fs.dvd_of_mem_offsets h'
  unfold DIRENT_SIZE at *
  omega

theorem Fs.zero_mem_offsets (fs : Fs) : 0 ∈ fs.offsets :=
  Fs.mem_offsets.2 ⟨0, fs.sectors_pos, 0, Nat.div_pos (le_of_dvd fs.sector_pos fs.sector_dvd) (by decide), by simp⟩

theorem Fs.offsets_nodup (fs : Fs) : fs.offsets.Nodup := by
  obtain ⟨q, hq⟩ := fs.sector_dvd
  have hdiv : fs.bytes_per_sector / DIRENT_SIZE = q := by rw [hq, Nat.mul_div_cancel_left _ (by decide)]
  refine nodup_flatMap.2 ⟨fun s _ => nodup_range.map fun i j h => ?_, ?_⟩
  · have : i * DIRENT_SIZE = j * DIRENT_SIZE := Nat.add_left_cancel h
    unfold DIRENT_SIZE at this
    omega
  · refine nodup_range.pairwise_of_forall_ne fun s _ s' _ hne => ?_
    intro off h h'
    obtain ⟨i, hi, rfl⟩ := mem_map.1 h
    obtain ⟨j, hj, heq⟩ := mem_map.1 h'
    rw [mem_range, hdiv] at hi hj
    refine hne ?_
    have h1 : (s * fs.bytes_per_sector + i * DIRENT_SIZE) / fs.bytes_per_sector = s := by
      rw [Nat.add_comm, add_mul_div_right _ _ fs.sector_pos, div_eq_of_lt, Nat.zero_add]
      rw [hq, Nat.mul_comm]
      exact Nat.mul_lt_mul_of_pos_left hi (by decide)
    have h2 : (s' * fs.bytes_per_sector + j * DIRENT_SIZE) / fs.bytes_per_sector = s' := by
      rw [Nat.add_comm, add_mul_div_right _ _ fs.sector_pos, div_eq_of_lt, Nat.zero_add]
      rw [hq, Nat.mul_comm]
      exact Nat.mul_lt_mul_of_pos_left hj (by decide)
    rw [← h1, ← h2, heq]

end Geometry

section Slots

variable {fs : Fs} {v v' : Volume} {dir : Inode} {first : Nat} {l l' : List Nat} {s s' : Slot} {e : Bytes}

theorem Fs.mem_slotsOf : s ∈ fs.slotsOf l ↔ s.1 ∈ l ∧ s.2 ∈ fs.offsets := by
  simp only [Fs.slotsOf, mem_flatMap, mem_map]
  constructor
  · rintro ⟨c, hc, off, hoff, rfl⟩
    exact ⟨hc, hoff⟩
  · rintro ⟨hc, hoff⟩
    exact ⟨s.1, hc, s.2, hoff, rfl⟩

theorem Fs.slotsOf_append : fs.slotsOf (l ++ l') = fs.slotsOf l ++ fs.slotsOf l' := flatMap_append

theorem Fs.slotsOf_nodup (h : l.Nodup) : (fs.slotsOf l).Nodup := by
  refine nodup_flatMap.2 ⟨fun c _ => fs.offsets_nodup.map fun _ _ h => (Prod.mk.inj h).2, ?_⟩
  refine h.pairwise_of_forall_ne fun c _ c' _ hne => ?_
  intro s h h'
  obtain ⟨off, -, rfl⟩ := mem_map.1 h
  obtain ⟨off', -, heq⟩ := mem_map.1 h'
  exact hne (Prod.mk.inj heq).1.symm

theorem walkClusters_eq {guard : Nat} (h : Chain fs v first l) (hg : l.length ≤ guard) : walkClusters fs v guard first = l := by
  induction l generalizing first guard with
  | nil =>
    obtain rfl := h.eq_nil_iff.1 rfl
    cases guard with
    | zero => rfl
    | succ guard => rfl
  | cons c l ih =>
    cases guard with
    | zero => cases hg
    | succ guard =>
      obtain rfl := h.first_eq
      rw [walkClusters, if_pos (h.valid first (by simp))]
      by_cases hnil : l = []
      · subst hnil
        have hend : ¬fs.isValidCluster (v.fat first) := fun hv => Nat.not_le.2 hv.lt (Chain.last (l := []) h)
        cases guard with
        | zero => rfl
        | succ guard => rw [walkClusters, if_neg hend]
      · rw [ih (h.tail hnil).2 (by simpa using hg)]

theorem slots_eq (h : Chain fs v (dirStart fs dir) l) : slots fs v dir = fs.slotsOf l := by
  rw [slots, walkClusters_eq h h.length_le]

/-! ## Storing an entry -/

theorem dirent_storeDirent_self : (v.storeDirent s e).dirent s = e.slice DIRENT_SIZE 0 := by
  rw [Volume.dirent, Volume.storeDirent]
  dsimp only
  rw [update_self, Bytes.slice_copy]

theorem dirent_storeDirent_of_ne (hs : s.2 ∈ fs.offsets) (hs' : s'.2 ∈ fs.offsets) (hne : s' ≠ s) :
    (v.storeDirent s e).dirent s' = v.dirent s' := by
  rw [Volume.dirent, Volume.storeDirent]
  dsimp only
  by_cases hc : s'.1 = s.1
  · have hoff : s.2 ≠ s'.2 := fun h => hne (Prod.ext hc h.symm)
    rw [hc, update_self, Bytes.slice_copy_of_disjoint _ _ (Fs.offsets_apart hs' hs hoff.symm)]
    rw [Volume.dirent, hc]
  · rw [update_of_ne hc]
    rfl

end Slots

/-! ## Listing -/

section Listing

variable {fs : Fs} {v : Volume} {dir : Inode}

theorem pos_cons (pos : Nat) (s : Slot) (before : List Slot) :
    pos + (s :: before).length * DIRENT_SIZE = pos + DIRENT_SIZE + before.length * DIRENT_SIZE := by
  rw [length_cons]
  ring

theorem readdirLoop_skip (pos : Nat) (before after : List Slot) :
    readdirLoop v (before ++ after) pos (pos + before.length * DIRENT_SIZE) =
      readdirLoop v after (pos + before.length * DIRENT_SIZE) (pos + before.length * DIRENT_SIZE) := by
  induction before generalizing pos with
  | nil => simp
  | cons s before ih =>
    rw [cons_append, readdirLoop, pos_cons, if_pos (by unfold DIRENT_SIZE; omega), ih (pos + DIRENT_SIZE)]

theorem readdirLoop_unlisted (pos : Nat) (before after : List Slot) (h : ∀ s ∈ before, ¬isListed (v.dirent s) = true) :
    readdirLoop v (before ++ after) pos pos =
      readdirLoop v after (pos + before.length * DIRENT_SIZE) (pos + before.length * DIRENT_SIZE) := by
  induction before generalizing pos with
  | nil => simp
  | cons s before ih =>
    rw [cons_append, readdirLoop, if_neg (Nat.lt_irrefl _), if_neg (h s mem_cons_self), pos_cons,
      ih (pos + DIRENT_SIZE) fun x hx => h x (mem_cons_of_mem _ hx)]

theorem readdirAll_eq (hd : dir.dir = true) (before after : List Slot) (hs : slots fs v dir = before ++ after) {calls : Nat}
    (hc : after.length < calls) :
    readdirAll fs v dir calls (before.length * DIRENT_SIZE) = (after.filter fun s => isListed (v.dirent s)).map (vfsDirent v) := by
  induction calls generalizing before after with
  | zero => cases hc
  | succ calls ih =>
    have hread : readdir fs v dir (before.length * DIRENT_SIZE) =
        readdirLoop v after (before.length * DIRENT_SIZE) (before.length * DIRENT_SIZE) := by
      rw [readdir, if_pos hd, Nat.mul_div_cancel _ (by decide), hs]
      simpa using readdirLoop_skip 0 before after
    rw [readdirAll, hread]
    cases hf : after.filter fun s => isListed (v.dirent s) with
    | nil =>
      have hnone := readdirLoop_unlisted (before.length * DIRENT_SIZE) after [] (filter_eq_nil_iff.1 hf)
      rw [append_nil] at hnone
      rw [hnone]
      rfl
    | cons s rest =>
      obtain ⟨l1, l2, rfl, hno, hyes, rfl⟩ := filter_eq_cons_iff.1 hf
      have hpos : before.length * DIRENT_SIZE + l1.length * DIRENT_SIZE + DIRENT_SIZE = (before ++ l1 ++ [s]).length * DIRENT_SIZE := by
        simp only [length_append, length_singleton]
        ring
      rw [readdirLoop_unlisted _ _ _ hno, readdirLoop, if_neg (Nat.lt_irrefl _), if_pos hyes]
      dsimp only
      have hsplit : slots fs v dir = before ++ l1 ++ [s] ++ l2 := by
        rw [hs]
        simp
      have hlen : l2.length < calls := by
        rw [length_append, length_cons] at hc
        omega
      rw [hpos, ih _ _ hsplit hlen, map_cons]

theorem listing_eq (hd : dir.dir = true) :
    listing fs v dir = ((slots fs v dir).filter fun s => isListed (v.dirent s)).map (vfsDirent v) := by
  have h := readdirAll_eq hd [] (slots fs v dir) rfl (lt_succ_self _)
  rwa [length_nil, Nat.zero_mul] at h

end Listing

end Fat32
