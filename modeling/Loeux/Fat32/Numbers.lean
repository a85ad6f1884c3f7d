import Loeux.Fat32.Dir
/-!
# Inode numbers (`fs/fat32.c`)

An inode is numbered by the place of its directory entry. `fat32_inode_create` counts a
cluster as one sector and in 32 bits, `fat32_cb_readdir` counts it as 512 bytes.
-/

namespace Fat32

structure Bpb where
  bytes_per_sector : UInt16
  sectors_per_cluster : UInt8
  reserved_sectors : UInt16
  num_fats : UInt8
  root_entries : UInt16 := 0
  total_sectors : UInt16 := 0
  sectors_per_fat : UInt16 := 0
  total_sectors_large : UInt32
  sectors_per_fat32 : UInt32
  root_cluster : UInt32

namespace Bpb

variable (b : Bpb)

def totalSectors : UInt32 := if b.total_sectors ≠ 0 then b.total_sectors.toUInt32 else b.total_sectors_large

def clusterCount : UInt32 :=
  (b.totalSectors - b.reserved_sectors.toUInt32 - b.num_fats.toUInt32 * b.sectors_per_fat32) / b.sectors_per_cluster.toUInt32

/-- The checks of `fat32_get_super`. -/
def accepted : Bool :=
  b.root_entries = 0 && b.sectors_per_fat = 0 &&
  (512 ≤ b.bytes_per_sector && b.bytes_per_sector ≤ 4096 && b.bytes_per_sector &&& (b.bytes_per_sector - 1) = 0) &&
  (b.sectors_per_cluster ≠ 0 && b.sectors_per_cluster &&& (b.sectors_per_cluster - 1) = 0) &&
  (b.reserved_sectors ≠ 0 && b.num_fats ≠ 0) && (b.totalSectors ≠ 0 && b.sectors_per_fat32 ≠ 0) &&
  (65525 ≤ b.clusterCount && 2 ≤ b.root_cluster)

/-- `fat32_is_valid_cluster` accepts the clusters from 2 to this one. -/
def limit : Nat := min (b.clusterCount + 2).toNat EOF_MASK

/-- A slot that `fat32_dir_walk` can come to: any cluster can be one of a directory. -/
def isSlot (s : Slot) : Prop :=
  2 ≤ s.1 ∧ s.1 < b.limit ∧ ∃ k < b.sectors_per_cluster.toNat, ∃ i < b.bytes_per_sector.toNat / DIRENT_SIZE,
    s.2 = k * b.bytes_per_sector.toNat + i * DIRENT_SIZE

/-- The number that `fat32_inode_create` gives the inode of an entry, in `fat32_lookup` as in `fat32_create`. -/
def ino (s : Slot) : Nat := (s.1 * b.bytes_per_sector.toNat + s.2) % 2 ^ 32

variable {b}

theorem accepted_spec (h : b.accepted = true) :
    512 ≤ b.bytes_per_sector.toNat ∧ b.bytes_per_sector.toNat ≤ 4096 ∧ 0 < b.sectors_per_cluster.toNat ∧
      (b.limit ≤ 2 ∨ 4 ≤ b.limit) := by
  unfold accepted at h
  simp only [Bool.and_eq_true, decide_eq_true_eq, ne_eq] at h
  obtain ⟨⟨⟨⟨⟨-, ⟨h1, h2⟩, -⟩, h3, -⟩, -⟩, -⟩, h4, -⟩ := h
  have h3 : b.sectors_per_cluster.toNat ≠ 0 := fun e => h3 (UInt8.toNat_inj.1 e)
  have h4 : 65525 ≤ b.clusterCount.toNat := h4
  refine ⟨h1, h2, Nat.pos_of_ne_zero h3, ?_⟩
  unfold limit EOF_MASK
  rw [UInt32.toNat_add, show (2 : UInt32).toNat = 2 from rfl]
  have := b.clusterCount.toNat_lt
  omega

theorem isSlot_first {c k : Nat} (h : b.accepted = true) (hc : 2 ≤ c ∧ c < b.limit) (hk : k < b.sectors_per_cluster.toNat) :
    b.isSlot (c, k * b.bytes_per_sector.toNat) :=
  ⟨hc.1, hc.2, k, hk, 0, Nat.div_pos (le_trans (by decide) (accepted_spec h).1) (by decide), rfl⟩

/-- The numbers are right exactly on volumes with one sector of 512 bytes in a cluster whose last
entry has a number of 32 bits. -/
theorem numbers_identify_iff (b : Bpb) (h : b.accepted = true) :
    (∀ entries : Finset Slot, (∀ s ∈ entries, b.isSlot s) →
      Set.InjOn b.ino entries ∧ ∀ s ∈ entries, ∀ v, (vfsDirent v s).ino = b.ino s) ↔
    b.limit ≤ 2 ∨ b.bytes_per_sector.toNat = 512 ∧ b.sectors_per_cluster.toNat = 1 ∧ b.limit * 512 ≤ 2 ^ 32 := by
  obtain ⟨h1, h2, h3, h4⟩ := accepted_spec h
  constructor
  · intro hall
    refine h4.imp id fun h4 => ?_
    have hread : ∀ s, b.isSlot s → s.1 * 512 + s.2 = b.ino s := fun s hs =>
      (hall {s} fun x hx => Finset.mem_singleton.1 hx ▸ hs).2 s (Finset.mem_singleton_self s) ⟨fun _ => 0, fun _ => Lib.Bytes.zero⟩
    have hinj : ∀ s t, b.isSlot s → b.isSlot t → b.ino s = b.ino t → s = t := fun s t hs ht =>
      @(hall {s, t} (by simp [hs, ht])).1 s (by simp) t (by simp)
    unfold ino at hread hinj
    -- the first cluster shows the size of a sector
    have hbps : b.bytes_per_sector.toNat = 512 := by
      have := hread _ (isSlot_first (c := 2) (k := 0) h (by omega) h3)
      omega
    refine ⟨hbps, ?_, ?_⟩
    · -- the second sector of a cluster has the number of the next cluster
      by_contra hne
      have := hinj _ _ (isSlot_first (c := 2) (k := 1) h (by omega) (by omega)) (isSlot_first (c := 3) (k := 0) h (by omega) h3)
        (by rw [hbps]; rfl)
      cases this
    · have := hread _ (isSlot_first (c := b.limit - 1) (k := 0) h (by omega) h3)
      dsimp only at this
      omega
  · intro hcond entries hentries
    have key : ∀ s ∈ entries, s.1 * 512 + s.2 = b.ino s ∧ s.2 < 512 := by
      intro s hs
      obtain ⟨hlo, hhi, k, hk, i, hi, hoff⟩ := hentries s hs
      obtain ⟨hbps, hspc, hlim⟩ := hcond.resolve_left (by omega)
      unfold ino
      rw [hbps] at hi hoff ⊢
      have hi : i < 512 / 32 := hi
      have hoff : s.2 = k * 512 + i * 32 := hoff
      omega
    refine ⟨fun s hs t ht e => ?_, fun s hs v => (key s hs).1⟩
    have hs := key s hs
    have ht := key t ht
    exact Prod.ext (by omega) (by omega)

def sample : Bpb :=
  { bytes_per_sector := 512, sectors_per_cluster := 8, reserved_sectors := 32, num_fats := 2, total_sectors_large := 1048576,
    sectors_per_fat32 := 1024, root_cluster := 2 }

theorem numbers_identify_small : ({ sample with sectors_per_cluster := 1 } : Bpb).accepted = true ∧ ∀ entries : Finset Slot,
    (∀ s ∈ entries, ({ sample with sectors_per_cluster := 1 } : Bpb).isSlot s) →
      Set.InjOn ({ sample with sectors_per_cluster := 1 } : Bpb).ino entries ∧
      ∀ s ∈ entries, ∀ v, (vfsDirent v s).ino = ({ sample with sectors_per_cluster := 1 } : Bpb).ino s :=
  ⟨by decide +kernel, (numbers_identify_iff _ (by decide +kernel)).2 (by decide +kernel)⟩

theorem two_entries_one_number : sample.accepted = true ∧ sample.isSlot (2, 512) ∧ sample.isSlot (3, 0) ∧
    sample.ino (2, 512) = sample.ino (3, 0) :=
  ⟨by decide +kernel, ⟨by decide, by decide +kernel, 1, by decide, 0, by decide, rfl⟩,
    ⟨by decide, by decide +kernel, 0, by decide, 0, by decide, rfl⟩, rfl⟩

end Bpb

end Fat32
