import Loeux.Ext2.DirMap
/-!
# What mounting checks

`ext2_get_super` reads the superblock of a device, checks some of its fields and
reads the root inode. The driver then trusts the geometry: group numbers are
used as indices of the descriptor table and bit numbers as offsets into a block
buffer.
-/
open Lib Nat

namespace Ext2

def EXT2_MAGIC : Nat := 0xEF53
def EXT2_REV_LEVEL_0 : Nat := 0
def EXT2_REV_LEVEL_1 : Nat := 1
def EXT2_MAX_BLOCK_SIZE : Nat := 4096
def EXT2_INODE_SIZE_DEFAULT : Nat := 128
def EXT2_ROOT_INO : Nat := 2

/-! ## `ext2_get_super` -/

/-- The geometry a superblock gives. The shift is the processor's, which uses
the low five bits of the amount. -/
def fsOf (sb : Bytes) : Fs :=
  let block_size := u32 (1024 <<< (Sb.s_log_block_size sb % 32))
  { block_size
    inodes_per_group := Sb.s_inodes_per_group sb
    blocks_per_group := Sb.s_blocks_per_group sb
    inode_size :=
      if Sb.s_rev_level sb = EXT2_REV_LEVEL_0 ∨ Sb.s_inode_size sb = 0 then EXT2_INODE_SIZE_DEFAULT
      else Sb.s_inode_size sb
    num_groups :=
      divu (u32 (Sb.s_blocks_count sb + (2 ^ 32 - Sb.s_first_data_block sb) +
        Sb.s_blocks_per_group sb + (2 ^ 32 - 1))) (Sb.s_blocks_per_group sb)
    inodes_count := Sb.s_inodes_count sb
    blocks_count := Sb.s_blocks_count sb
    first_data_block := if block_size = 1024 then 1 else 0
    ptrs_per_block := block_size / 4 }

def checkSuper (sb : Bytes) : Option Fs :=
  let fs := fsOf sb
  if Sb.s_magic sb ≠ EXT2_MAGIC then none
  else if EXT2_REV_LEVEL_1 < Sb.s_rev_level sb then none
  else if EXT2_MAX_BLOCK_SIZE < fs.block_size then none
  else if fs.inode_size < EXT2_INODE_SIZE_DEFAULT ∨ fs.block_size < fs.inode_size ∨
      fs.inode_size &&& (fs.inode_size - 1) ≠ 0 then none
  else some fs

/-- The last part of `ext2_get_super`: the root inode has to be a directory. -/
def mountRoot (fs : Fs) : M (Option Nat) := do
  let some di ← inodeRead fs EXT2_ROOT_INO | return none
  let some root ← inodeCreate EXT2_ROOT_INO di | return none
  if ifmt (← inodeAt root).mode ≠ S_IFDIR then return none
  return some root

/-- The driver's state before the root inode is read: an empty cache over the
device, no objects. -/
def booted (dev : Bytes) (fs : Fs) (sb : Bytes) : St where
  disk b := dev.slice fs.block_size (b * fs.block_size)
  inodes _ := inodeOf 0 Bytes.zero
  next := 0
  files _ := ⟨0, 0⟩
  free_blocks := Sb.s_free_blocks_count sb
  free_inodes := Sb.s_free_inodes_count sb
  ticks := 0
  crit := 0

/-- `ext2_get_super` on a device with these bytes: the geometry of the volume it
mounts. -/
def getSuper (dev : Bytes) : Option Fs :=
  let sb := dev.slice 1024 1024
  (checkSuper sb).filter fun fs => ((mountRoot fs).run serve (booted dev fs sb)).1.isSome

/-! ## What the driver relies on -/

/-- All address arithmetic of the driver is defined and stays in bounds. -/
structure Sound (fs : Fs) : Prop where
  /-- For an inode: no division by zero, an existing group, its bit inside the
  bitmap block, its descriptor and its record each inside one block. -/
  inode : ∀ ino, 1 ≤ ino → ino ≤ fs.inodes_count →
    fs.inodes_per_group ≠ 0 ∧ fs.block_size ≠ 0 ∧ bgsPerBlock fs ≠ 0 ∧
    inodeGroup fs ino < fs.num_groups ∧ inodeIdx fs ino / 8 < fs.block_size ∧
    inodeGroup fs ino % bgsPerBlock fs * 32 + 32 ≤ fs.block_size ∧
    inodeOff fs ino + fs.inode_size ≤ fs.block_size
  block : ∀ blk, fs.first_data_block ≤ blk → blk < fs.blocks_count →
    fs.blocks_per_group ≠ 0 ∧ fs.block_size ≠ 0 ∧ bgsPerBlock fs ≠ 0 ∧
    blockGroup fs blk < fs.num_groups ∧ blockIdx fs blk / 8 < fs.block_size ∧
    blockGroup fs blk % bgsPerBlock fs * 32 + 32 ≤ fs.block_size
  inode_inj : ∀ m n, 1 ≤ m → m ≤ fs.inodes_count → 1 ≤ n → n ≤ fs.inodes_count →
    inodeGroup fs m = inodeGroup fs n → inodeIdx fs m = inodeIdx fs n → m = n

/-- What the superblock has to say for that: groups of a size one bitmap block
can describe, and enough of them. -/
structure Bounded (fs : Fs) : Prop where
  ipg_pos : 0 < fs.inodes_per_group
  inodes_le : fs.inodes_count ≤ fs.num_groups * fs.inodes_per_group
  inode_bits : min fs.inodes_per_group fs.inodes_count ≤ 8 * fs.block_size
  blocks : fs.first_data_block < fs.blocks_count → 0 < fs.blocks_per_group ∧
    fs.blocks_count - fs.first_data_block ≤ fs.num_groups * fs.blocks_per_group ∧
    min fs.blocks_per_group (fs.blocks_count - fs.first_data_block) ≤ 8 * fs.block_size

/-! ## What the checks give -/

theorem eq_two_pow_log2 {n : Nat} (h0 : n ≠ 0) (h : n &&& (n - 1) = 0) : n = 2 ^ n.log2 := by
  by_contra hne
  have hle := log2_self_le h0
  -- otherwise the leading bit of `n` is also that of `n - 1`
  have hlog : (n - 1).log2 = n.log2 := by
    rw [log2_eq_iff (by have := Nat.one_le_two_pow (n := n.log2); omega)]
    exact ⟨by omega, by have := lt_log2_self (n := n); omega⟩
  have h1 : n.testBit n.log2 = true := testBit_log2 h0
  have h2 : (n - 1).testBit n.log2 = true := by
    rw [← hlog]
    exact testBit_log2 (by have := Nat.one_le_two_pow (n := n.log2); omega)
  have h3 : (n &&& (n - 1)).testBit n.log2 = true := by rw [testBit_and, h1, h2]; rfl
  rw [h, zero_testBit] at h3
  exact absurd h3 (by decide)

theorem block_size_fsOf (sb : Bytes) (h : (fsOf sb).block_size ≤ 4096) :
    (fsOf sb).block_size = 0 ∨ ∃ k, k ≤ 12 ∧ (fsOf sb).block_size = 2 ^ k := by
  have key : ∀ k, k < 32 → u32 (1024 <<< k) ≤ 4096 →
      u32 (1024 <<< k) = 0 ∨ u32 (1024 <<< k) = 2 ^ 10 ∨ u32 (1024 <<< k) = 2 ^ 11 ∨
        u32 (1024 <<< k) = 2 ^ 12 := by decide
  rcases key (Sb.s_log_block_size sb % 32) (mod_lt _ (by decide)) h with h | h | h | h
  · exact .inl h
  · exact .inr ⟨10, by decide, h⟩
  · exact .inr ⟨11, by decide, h⟩
  · exact .inr ⟨12, by decide, h⟩

/-- What holds of every geometry that is mounted. -/
structure Accepted (fs : Fs) : Prop where
  block_size : ∃ k, 7 ≤ k ∧ k ≤ 12 ∧ fs.block_size = 2 ^ k
  inode_size : fs.inode_size ∣ fs.block_size
  root : 2 ≤ fs.inodes_count
  inodes_lt : fs.inodes_count < 2 ^ 32
  blocks_lt : fs.blocks_count < 2 ^ 32
  first_le : fs.first_data_block ≤ 1

theorem checkSuper_accepts {sb : Bytes} {fs : Fs} (h : checkSuper sb = some fs) :
    fs = fsOf sb ∧ fs.block_size ≤ 4096 ∧ 128 ≤ fs.inode_size ∧ fs.inode_size ≤ fs.block_size ∧
      fs.inode_size &&& (fs.inode_size - 1) = 0 := by
  unfold checkSuper at h
  dsimp only at h
  split_ifs at h with h1 h2 h3 h4
  cases h
  push Not at h4
  exact ⟨rfl, Nat.not_lt.1 h3, h4.1, h4.2.1, h4.2.2⟩

theorem getSuper_accepts {dev : Bytes} {fs : Fs} (h : getSuper dev = some fs) : Accepted fs := by
  unfold getSuper at h
  obtain ⟨hc, hr⟩ := Option.filter_eq_some_iff.1 h
  obtain ⟨rfl, hb, hi, hib, hpow⟩ := checkSuper_accepts hc
  have hk := block_size_fsOf _ hb
  have hn := eq_two_pow_log2 (by omega) hpow
  refine ⟨?_, ?_, ?_, Bytes.get_lt 4 _ _, Bytes.get_lt 4 _ _, ?_⟩
  · rcases hk with h0 | ⟨k, hk, e⟩
    · omega
    · refine ⟨k, ?_, hk, e⟩
      by_contra hlt
      have := Nat.pow_le_pow_right (n := 2) (by decide) (show k ≤ 6 by omega)
      omega
  · rcases hk with h0 | ⟨k, -, e⟩
    · omega
    · rw [e] at hib ⊢
      rw [hn] at hib ⊢
      exact Nat.pow_dvd_pow 2 ((Nat.pow_le_pow_iff_right (by decide)).1 hib)
  · by_contra hlt
    have h0 : EXT2_ROOT_INO = 0 ∨ (fsOf (dev.slice 1024 1024)).inodes_count < EXT2_ROOT_INO :=
      .inr (Nat.lt_of_not_le hlt)
    simp [mountRoot, inodeRead, h0] at hr
  · show (if _ then 1 else 0) ≤ 1
    split_ifs <;> decide

/-! ## The bounds that are missing -/

section

variable {fs : Fs}

section

variable (h : Accepted fs)

include h

theorem bgsPerBlock_mul : bgsPerBlock fs * 32 = fs.block_size := by
  obtain ⟨k, h1, -, e⟩ := h.block_size
  have hd : 2 ^ 5 ∣ fs.block_size := e ▸ Nat.pow_dvd_pow 2 (by omega)
  exact Nat.div_mul_cancel hd

theorem block_size_pos : 0 < fs.block_size := by
  obtain ⟨k, -, -, e⟩ := h.block_size
  rw [e]
  exact Nat.two_pow_pos k

theorem bgsPerBlock_pos : 0 < bgsPerBlock fs := by
  have h1 := bgsPerBlock_mul h
  have h2 := block_size_pos h
  omega

theorem bg_inside (g : Nat) : g % bgsPerBlock fs * 32 + 32 ≤ fs.block_size := by
  have h1 := bgsPerBlock_mul h
  have h2 := mod_lt g (bgsPerBlock_pos h)
  omega

/-- Records do not cross a block boundary, even where the product wraps: all
sizes are powers of two. -/
theorem record_inside (ino : Nat) : inodeOff fs ino + fs.inode_size ≤ fs.block_size := by
  obtain ⟨k, -, hk, e⟩ := h.block_size
  have hd : fs.block_size ∣ 2 ^ 32 := e ▸ Nat.pow_dvd_pow 2 (by omega)
  have hi : fs.inode_size ∣ inodeOff fs ino := by
    unfold inodeOff u32
    rw [mod_mod_of_dvd _ hd]
    exact (dvd_mod_iff h.inode_size).2 (Nat.dvd_mul_left _ _)
  have hlt : inodeOff fs ino < fs.block_size := mod_lt _ (block_size_pos h)
  obtain ⟨a, ha⟩ := hi
  obtain ⟨b, hb⟩ := h.inode_size
  rw [ha, hb] at hlt ⊢
  have hab : a + 1 ≤ b := Nat.lt_of_mul_lt_mul_left hlt
  calc fs.inode_size * a + fs.inode_size = fs.inode_size * (a + 1) := by ring
    _ ≤ fs.inode_size * b := Nat.mul_le_mul_left _ hab

omit h in
/-- Numbers `0, …, n - 1` in groups of `p`: the groups are below `g` and the
indices below `c` exactly when there are enough groups and they are small. -/
theorem groups_iff {n p g c : Nat} (hp : 0 < p) (hn : 0 < n) :
    (∀ i, i < n → i / p < g ∧ i % p < c) ↔ n ≤ g * p ∧ min p n ≤ c := by
  constructor
  · intro h
    refine ⟨?_, ?_⟩
    · have := (h (n - 1) (by omega)).1
      rw [Nat.div_lt_iff_lt_mul hp] at this
      omega
    · have hm : min p n - 1 < p := by omega
      have := (h (min p n - 1) (by omega)).2
      rw [mod_eq_of_lt hm] at this
      omega
  · rintro ⟨h1, h2⟩ i hi
    refine ⟨(Nat.div_lt_iff_lt_mul hp).2 (by omega), ?_⟩
    have h3 := mod_lt i hp
    have h4 := mod_le i p
    omega

theorem blockOff_eq {blk : Nat} (h1 : fs.first_data_block ≤ blk) (h2 : blk < fs.blocks_count) :
    u32 (blk + (2 ^ 32 - fs.first_data_block)) = blk - fs.first_data_block := by
  have h3 := h.first_le
  have h4 := h.blocks_lt
  have : blk + (2 ^ 32 - fs.first_data_block) = blk - fs.first_data_block + 2 ^ 32 := by omega
  rw [u32, this, add_mod_right, mod_eq_of_lt (by omega)]

omit h in
theorem inodes_iff (hp : 0 < fs.inodes_per_group) (hn : 0 < fs.inodes_count) : (∀ ino, 1 ≤ ino → ino ≤ fs.inodes_count →
      inodeGroup fs ino < fs.num_groups ∧ inodeIdx fs ino / 8 < fs.block_size) ↔
    fs.inodes_count ≤ fs.num_groups * fs.inodes_per_group ∧
      min fs.inodes_per_group fs.inodes_count ≤ 8 * fs.block_size := by
  rw [← groups_iff hp hn]
  constructor
  · intro h i hi
    obtain ⟨h1, h2⟩ := h (i + 1) (by omega) (by omega)
    rw [inodeGroup, divu_of_pos hp, Nat.add_sub_cancel] at h1
    rw [inodeIdx, Nat.add_sub_cancel] at h2
    exact ⟨h1, by omega⟩
  · intro h ino h1 h2
    obtain ⟨h3, h4⟩ := h (ino - 1) (by omega)
    refine ⟨?_, ?_⟩
    · rw [inodeGroup, divu_of_pos hp]
      exact h3
    · unfold inodeIdx
      omega

theorem blocks_iff (hp : 0 < fs.blocks_per_group) (hn : fs.first_data_block < fs.blocks_count) :
    (∀ blk, fs.first_data_block ≤ blk → blk < fs.blocks_count →
      blockGroup fs blk < fs.num_groups ∧ blockIdx fs blk / 8 < fs.block_size) ↔
    fs.blocks_count - fs.first_data_block ≤ fs.num_groups * fs.blocks_per_group ∧
      min fs.blocks_per_group (fs.blocks_count - fs.first_data_block) ≤ 8 * fs.block_size := by
  rw [← groups_iff hp (Nat.sub_pos_of_lt hn)]
  constructor
  · intro hb i hi
    have hlo : fs.first_data_block ≤ fs.first_data_block + i := Nat.le_add_right _ _
    have hhi : fs.first_data_block + i < fs.blocks_count := by omega
    obtain ⟨h1, h2⟩ := hb _ hlo hhi
    rw [blockGroup, blockOff_eq h hlo hhi, divu_of_pos hp, Nat.add_sub_cancel_left] at h1
    rw [blockIdx, blockOff_eq h hlo hhi, Nat.add_sub_cancel_left] at h2
    exact ⟨h1, by omega⟩
  · intro hb blk h1 h2
    obtain ⟨h3, h4⟩ := hb (blk - fs.first_data_block) (by omega)
    refine ⟨?_, ?_⟩
    · rw [blockGroup, blockOff_eq h h1 h2, divu_of_pos hp]
      exact h3
    · rw [blockIdx, blockOff_eq h h1 h2]
      omega

end

/-- An image that mounts is safe to work on exactly when its superblock is
bounded, and mounting does not check that. -/
theorem getSuper_sound_iff {dev : Bytes} (hdev : getSuper dev = some fs) : Sound fs ↔ Bounded fs := by
  have h := getSuper_accepts hdev
  have hn : 0 < fs.inodes_count := by have := h.root; omega
  constructor
  · intro hs
    have hp : 0 < fs.inodes_per_group := Nat.pos_of_ne_zero (hs.inode 1 le_rfl hn).1
    obtain ⟨h1, h2⟩ := (inodes_iff hp hn).1 fun ino h1 h2 => by
      obtain ⟨-, -, -, hg, hb, -⟩ := hs.inode ino h1 h2
      exact ⟨hg, hb⟩
    refine ⟨hp, h1, h2, fun hlt => ?_⟩
    have hq : 0 < fs.blocks_per_group := Nat.pos_of_ne_zero (hs.block _ le_rfl hlt).1
    refine ⟨hq, (blocks_iff h hq hlt).1 fun blk h1 h2 => ?_⟩
    obtain ⟨-, -, -, hg, hb, -⟩ := hs.block blk h1 h2
    exact ⟨hg, hb⟩
  · intro hb
    have hs := (block_size_pos h).ne'
    have hg := (bgsPerBlock_pos h).ne'
    refine ⟨fun ino h1 h2 => ?_, fun blk h1 h2 => ?_, ?_⟩
    · obtain ⟨h3, h4⟩ := (inodes_iff hb.ipg_pos hn).2 ⟨hb.inodes_le, hb.inode_bits⟩ ino h1 h2
      exact ⟨hb.ipg_pos.ne', hs, hg, h3, h4, bg_inside h _, record_inside h ino⟩
    · obtain ⟨hq, hblk⟩ := hb.blocks (by omega)
      obtain ⟨h3, h4⟩ := (blocks_iff h hq (by omega)).2 hblk blk h1 h2
      exact ⟨hq.ne', hs, hg, h3, h4, bg_inside h _⟩
    · rintro m n hm - hn - e1 e2
      rw [inodeGroup, inodeGroup, divu_of_pos hb.ipg_pos, divu_of_pos hb.ipg_pos] at e1
      have h1 := div_add_mod (m - 1) fs.inodes_per_group
      have h2 := div_add_mod (n - 1) fs.inodes_per_group
      unfold inodeIdx at e2
      rw [e1, e2] at h1
      omega

end

/-! ## Two images -/

namespace Sample

/-- The sample volume as the bytes of a device, with the superblock fields that
mounting reads and `bpg` blocks in a group. -/
def image (blocks bpg : Nat) : Bytes := fun i =>
  if i / 1024 = 1 then
    (superblock |>.put 4 0 16 |>.put 4 4 blocks |>.put 4 20 1 |>.put 4 32 bpg |>.put 4 40 16
      |>.put 2 56 EXT2_MAGIC) (i % 1024)
  else disk (i / 1024) (i % 1024)

theorem getSuper_image : getSuper (image 32 64) = some fs := by decide

theorem getSuper_sound : getSuper (image 32 64) = some fs ∧ Sound fs :=
  ⟨getSuper_image, (getSuper_sound_iff getSuper_image).2
    ⟨by decide, by decide, by decide, fun _ => ⟨by decide, by decide, by decide⟩⟩⟩

/-- Groups of 16384 blocks are accepted, and the bit of block 8193 is in byte
1024 of a buffer of 1024 bytes. -/
theorem getSuper_unsound : ∃ fs, getSuper (image 16384 16384) = some fs ∧
    8193 < fs.blocks_count ∧ blockIdx fs 8193 / 8 = fs.block_size ∧ ¬Sound fs := by
  refine ⟨{ fs with blocks_count := 16384, blocks_per_group := 16384 }, ?_, by decide, by decide, ?_⟩
  · decide
  · intro h
    obtain ⟨-, -, -, -, h, -⟩ := h.block 8193 (by decide) (by decide)
    exact absurd h (by decide)

end Sample

end Ext2
