import Loeux.Ext2.Alloc
import Mathlib.Tactic.FinCases
import Mathlib.Tactic.SplitIfs
/-!
# Where things are on a volume, and what they say

A `Layout` fixes the geometry of a volume and where its metadata blocks are.
`Layout.vol` reads the state of the file system off the disk: the two bitmaps by
block and inode number, the inode records, the data blocks and the counters.
The lemmas say which part of it each kind of block write changes.
-/
open Lib Function Nat

namespace Ext2

/-- What a block of the volume is for. `other` are the copies of the superblock
and the blocks before the first group. -/
inductive Role where
  | superblock
  | other
  | groupDesc (k : Nat)
  | blockBitmap (g : Nat)
  | inodeBitmap (g : Nat)
  | inodeTable (g k : Nat)
  | data
  deriving DecidableEq

structure Layout where
  fs : Fs
  block_bitmap : Nat → Nat
  inode_bitmap : Nat → Nat
  inode_table : Nat → Nat
  super : Bytes
  used_dirs : Nat → Nat
  role : Nat → Role
  block_size_cases : fs.block_size = 1024 ∨ fs.block_size = 2048 ∨ fs.block_size = 4096
  ptrs_eq : fs.ptrs_per_block = fs.block_size / 4
  first_le : fs.first_data_block ≤ fs.blocks_count
  blocks_le : fs.blocks_count ≤ fs.first_data_block + fs.num_groups * fs.blocks_per_group
  blocks_lt : fs.first_data_block + fs.num_groups * fs.blocks_per_group < 2 ^ 32
  bpg_pos : 0 < fs.blocks_per_group
  bpg_le : fs.blocks_per_group ≤ 8 * fs.block_size
  ipg_pos : 0 < fs.inodes_per_group
  ipg_le : fs.inodes_per_group ≤ 8 * fs.block_size
  inodes_eq : fs.inodes_count = fs.num_groups * fs.inodes_per_group
  inodes_lt : fs.inodes_count < 2 ^ 32
  inode_size_ge : 128 ≤ fs.inode_size
  inode_size_dvd : fs.inode_size ∣ fs.block_size
  role_zero : role 0 ≠ .data
  role_super : role (sbBlock fs) = .superblock
  role_bg : ∀ g, g < fs.num_groups →
    role (bgdtBlock fs + g / bgsPerBlock fs) = .groupDesc (g / bgsPerBlock fs)
  role_block_bitmap : ∀ g, g < fs.num_groups → role (block_bitmap g) = .blockBitmap g
  role_inode_bitmap : ∀ g, g < fs.num_groups → role (inode_bitmap g) = .inodeBitmap g
  role_inode_table : ∀ g k, g < fs.num_groups → k * fs.block_size < fs.inodes_per_group * fs.inode_size →
    role (inode_table g + k) = .inodeTable g k
  inode_table_lt : ∀ g k, g < fs.num_groups → k * fs.block_size < fs.inodes_per_group * fs.inode_size →
    inode_table g + k < 2 ^ 32

/-- The file system a disk and the mounted volume's counters describe. -/
@[ext] structure Vol where
  used : Nat → Bool
  ibit : Nat → Bool
  inode : Nat → Bytes
  data : Nat → Bytes
  bfree : Nat → Nat
  ifree : Nat → Nat
  free_blocks : Nat
  free_inodes : Nat

def Vol.live (v : Vol) (n : Nat) : Prop := v.ibit n = true

def Vol.blocks (v : Vol) (n k : Nat) : Nat := Di.i_block (v.inode n) k

structure Same (s s' : St) : Prop where
  inodes : s'.inodes = s.inodes
  next : s'.next = s.next
  files : s'.files = s.files
  ticks : s'.ticks = s.ticks

theorem Same.refl (s : St) : Same s s := ⟨rfl, rfl, rfl, rfl⟩

theorem Same.trans {s s' s'' : St} (h : Same s s') (h' : Same s' s'') : Same s s'' :=
  ⟨h'.inodes.trans h.inodes, h'.next.trans h.next, h'.files.trans h.files, h'.ticks.trans h.ticks⟩

namespace Layout

variable (L : Layout)

/-! ## Geometry -/

def IsBlock (b : Nat) : Prop := L.fs.first_data_block ≤ b ∧ b < L.fs.blocks_count

def IsIno (n : Nat) : Prop := 0 < n ∧ n ≤ L.fs.inodes_count

instance (b : Nat) : Decidable (L.IsBlock b) := inferInstanceAs (Decidable (_ ∧ _))
instance (n : Nat) : Decidable (L.IsIno n) := inferInstanceAs (Decidable (_ ∧ _))

def groupOf (b : Nat) : Nat := (b - L.fs.first_data_block) / L.fs.blocks_per_group
def bitOf (b : Nat) : Nat := (b - L.fs.first_data_block) % L.fs.blocks_per_group
def igroupOf (n : Nat) : Nat := (n - 1) / L.fs.inodes_per_group
def ibitOf (n : Nat) : Nat := (n - 1) % L.fs.inodes_per_group

/-- The block of the inode table that holds record `n`, and where in it. -/
def tableBlock (n : Nat) : Nat :=
  L.inode_table (L.igroupOf n) + L.ibitOf n * L.fs.inode_size / L.fs.block_size
def tableOff (n : Nat) : Nat := L.ibitOf n * L.fs.inode_size % L.fs.block_size

/-- The block of the descriptor table that holds descriptor `g`, and where in it. -/
def bgBlock (g : Nat) : Nat := bgdtBlock L.fs + g / bgsPerBlock L.fs
def bgOff (g : Nat) : Nat := g % bgsPerBlock L.fs * 32

theorem block_size_pos : 0 < L.fs.block_size := by
  rcases L.block_size_cases with h | h | h <;> omega

theorem block_size_le : L.fs.block_size ≤ 4096 := by
  rcases L.block_size_cases with h | h | h <;> omega

theorem ptrs_pos : 0 < L.fs.ptrs_per_block := by
  rw [L.ptrs_eq]
  rcases L.block_size_cases with h | h | h <;> omega

variable {L}

theorem groupOf_lt {b : Nat} (h : L.IsBlock b) : L.groupOf b < L.fs.num_groups := by
  obtain ⟨h1, h2⟩ := h
  have := L.blocks_le
  exact (Nat.div_lt_iff_lt_mul L.bpg_pos).2 (by omega)

theorem bitOf_lt (b : Nat) : L.bitOf b < L.fs.blocks_per_group := mod_lt _ L.bpg_pos

theorem ibitOf_lt (n : Nat) : L.ibitOf n < L.fs.inodes_per_group := mod_lt _ L.ipg_pos

variable {n : Nat}

theorem igroupOf_lt (h : L.IsIno n) : L.igroupOf n < L.fs.num_groups := by
  obtain ⟨h1, h2⟩ := h
  have := L.inodes_eq
  exact (Nat.div_lt_iff_lt_mul L.ipg_pos).2 (by omega)

theorem block_eq {b : Nat} (h : L.IsBlock b) :
    b = L.fs.first_data_block + L.groupOf b * L.fs.blocks_per_group + L.bitOf b := by
  have h1 := h.1
  have h2 := div_add_mod (b - L.fs.first_data_block) L.fs.blocks_per_group
  have h3 := Nat.mul_comm L.fs.blocks_per_group ((b - L.fs.first_data_block) / L.fs.blocks_per_group)
  unfold groupOf bitOf
  omega

theorem ino_eq (h : L.IsIno n) : n = L.igroupOf n * L.fs.inodes_per_group + 1 + L.ibitOf n := by
  have h1 := h.1
  have h2 := div_add_mod (n - 1) L.fs.inodes_per_group
  have h3 := Nat.mul_comm L.fs.inodes_per_group ((n - 1) / L.fs.inodes_per_group)
  unfold igroupOf ibitOf
  omega

variable {g i : Nat}

theorem groupOf_block (hi : i < L.fs.blocks_per_group) :
    L.groupOf (L.fs.first_data_block + g * L.fs.blocks_per_group + i) = g := by
  have : L.fs.first_data_block + g * L.fs.blocks_per_group + i - L.fs.first_data_block =
      i + g * L.fs.blocks_per_group := by omega
  rw [groupOf, this, add_mul_div_right _ _ L.bpg_pos, div_eq_of_lt hi, Nat.zero_add]

theorem bitOf_block (hi : i < L.fs.blocks_per_group) :
    L.bitOf (L.fs.first_data_block + g * L.fs.blocks_per_group + i) = i := by
  have : L.fs.first_data_block + g * L.fs.blocks_per_group + i - L.fs.first_data_block =
      i + g * L.fs.blocks_per_group := by omega
  rw [bitOf, this, add_mul_mod_self_right, mod_eq_of_lt hi]

theorem igroupOf_ino (hi : i < L.fs.inodes_per_group) : L.igroupOf (g * L.fs.inodes_per_group + 1 + i) = g := by
  have : g * L.fs.inodes_per_group + 1 + i - 1 = i + g * L.fs.inodes_per_group := by omega
  rw [igroupOf, this, add_mul_div_right _ _ L.ipg_pos, div_eq_of_lt hi, Nat.zero_add]

theorem ibitOf_ino (hi : i < L.fs.inodes_per_group) : L.ibitOf (g * L.fs.inodes_per_group + 1 + i) = i := by
  have : g * L.fs.inodes_per_group + 1 + i - 1 = i + g * L.fs.inodes_per_group := by omega
  rw [ibitOf, this, add_mul_mod_self_right, mod_eq_of_lt hi]

theorem isIno_of_lt (hg : g < L.fs.num_groups) (hi : i < L.fs.inodes_per_group) :
    L.IsIno (g * L.fs.inodes_per_group + 1 + i) := by
  have h := Nat.mul_le_mul_right L.fs.inodes_per_group (succ_le_of_lt hg)
  rw [succ_mul] at h
  have := L.inodes_eq
  exact ⟨by omega, by omega⟩

/-! ## Reading the volume -/

variable (L)

def bg (s : St) (g : Nat) : Bytes := (s.disk (L.bgBlock g)).slice 32 (L.bgOff g)

/-- The superblock is the one of the layout, and the descriptors say where the
bitmaps and the tables are. -/
structure Valid (s : St) : Prop where
  super : s.disk (sbBlock L.fs) = L.super
  used_dirs : ∀ g, g < L.fs.num_groups → Bg.bg_used_dirs_count (L.bg s g) = L.used_dirs g
  block_bitmap : ∀ g, g < L.fs.num_groups → Bg.bg_block_bitmap (L.bg s g) = L.block_bitmap g
  inode_bitmap : ∀ g, g < L.fs.num_groups → Bg.bg_inode_bitmap (L.bg s g) = L.inode_bitmap g
  inode_table : ∀ g, g < L.fs.num_groups → Bg.bg_inode_table (L.bg s g) = L.inode_table g

def vol (s : St) : Vol where
  used b := decide (L.IsBlock b) && (s.disk (L.block_bitmap (L.groupOf b))).bit (L.bitOf b)
  ibit n := decide (L.IsIno n) && (s.disk (L.inode_bitmap (L.igroupOf n))).bit (L.ibitOf n)
  inode n := if L.IsIno n then (s.disk (L.tableBlock n)).slice 128 (L.tableOff n) else Bytes.zero
  data b := if L.role b = .data then s.disk b else Bytes.zero
  bfree g := if g < L.fs.num_groups then Bg.bg_free_blocks_count (L.bg s g) else 0
  ifree g := if g < L.fs.num_groups then Bg.bg_free_inodes_count (L.bg s g) else 0
  free_blocks := s.free_blocks
  free_inodes := s.free_inodes

variable {L} {s : St} {b : Nat} {d : Bytes}

theorem table_index_lt (n : Nat) : L.ibitOf n * L.fs.inode_size / L.fs.block_size * L.fs.block_size <
      L.fs.inodes_per_group * L.fs.inode_size := by
  have h1 := div_mul_le_self (L.ibitOf n * L.fs.inode_size) L.fs.block_size
  have h2 := Nat.mul_lt_mul_of_pos_right (ibitOf_lt (L := L) n)
    (show 0 < L.fs.inode_size by have := L.inode_size_ge; omega)
  omega

theorem role_tableBlock (hn : L.IsIno n) : L.role (L.tableBlock n) =
      .inodeTable (L.igroupOf n) (L.ibitOf n * L.fs.inode_size / L.fs.block_size) :=
  L.role_inode_table _ _ (igroupOf_lt hn) (table_index_lt n)

/-! ### The driver's address arithmetic does not wrap -/

theorem inodeGroup_eq (n : Nat) : inodeGroup L.fs n = L.igroupOf n := divu_of_pos L.ipg_pos _

theorem inodeIdx_eq (n : Nat) : inodeIdx L.fs n = L.ibitOf n := rfl

theorem u32_table_byte (n : Nat) : u32 (L.ibitOf n * L.fs.inode_size) = L.ibitOf n * L.fs.inode_size := by
  have h1 : L.ibitOf n ≤ 8 * 4096 := by
    have := ibitOf_lt (L := L) n; have := L.ipg_le; have := L.block_size_le; omega
  have h2 := (le_of_dvd L.block_size_pos L.inode_size_dvd).trans L.block_size_le
  have h3 := Nat.mul_le_mul h1 h2
  exact mod_eq_of_lt (by omega)

theorem inodeBlock_eq (hn : L.IsIno n) : inodeBlock L.fs (L.inode_table (L.igroupOf n)) n = L.tableBlock n := by
  unfold inodeBlock
  rw [inodeIdx_eq, u32_table_byte]
  exact mod_eq_of_lt (L.inode_table_lt _ _ (igroupOf_lt hn) (table_index_lt n))

theorem inodeOff_eq (n : Nat) : inodeOff L.fs n = L.tableOff n := by
  unfold inodeOff
  rw [inodeIdx_eq, u32_table_byte]
  rfl

theorem u32_block_sub (hb : L.IsBlock b) : u32 (b + (2 ^ 32 - L.fs.first_data_block)) = b - L.fs.first_data_block := by
  have h1 := hb.1; have h2 := hb.2; have h3 := L.blocks_le; have h4 := L.blocks_lt
  have : b + (2 ^ 32 - L.fs.first_data_block) = b - L.fs.first_data_block + 2 ^ 32 := by omega
  rw [u32, this, add_mod_right, mod_eq_of_lt (by omega)]

theorem blockGroup_eq (hb : L.IsBlock b) : blockGroup L.fs b = L.groupOf b := by
  rw [blockGroup, u32_block_sub hb, divu_of_pos L.bpg_pos]
  rfl

theorem blockIdx_eq (hb : L.IsBlock b) : blockIdx L.fs b = L.bitOf b := by
  rw [blockIdx, u32_block_sub hb]
  rfl

theorem role_bgBlock {g : Nat} (hg : g < L.fs.num_groups) :
    L.role (L.bgBlock g) = .groupDesc (g / bgsPerBlock L.fs) := L.role_bg g hg

theorem disk_write_of_role {c : Nat} (h : L.role c ≠ L.role b) : (s.write b d).disk c = s.disk c := by
  apply update_of_ne
  rintro rfl
  exact h rfl

theorem used_write (h : ∀ g, L.role b ≠ .blockBitmap g) : (L.vol (s.write b d)).used = (L.vol s).used := by
  funext c
  simp only [vol]
  by_cases hc : L.IsBlock c
  · rw [disk_write_of_role]
    rw [L.role_block_bitmap _ (groupOf_lt hc)]
    exact fun e => h _ e.symm
  · simp [hc]

theorem ibit_write (h : ∀ g, L.role b ≠ .inodeBitmap g) : (L.vol (s.write b d)).ibit = (L.vol s).ibit := by
  funext n
  simp only [vol]
  by_cases hn : L.IsIno n
  · rw [disk_write_of_role]
    rw [L.role_inode_bitmap _ (igroupOf_lt hn)]
    exact fun e => h _ e.symm
  · simp [hn]

theorem inode_write (h : ∀ g k, L.role b ≠ .inodeTable g k) : (L.vol (s.write b d)).inode = (L.vol s).inode := by
  funext n
  simp only [vol]
  by_cases hn : L.IsIno n
  · rw [disk_write_of_role]
    rw [role_tableBlock hn]
    exact fun e => h _ _ e.symm
  · simp [hn]

theorem data_write (h : L.role b ≠ .data) : (L.vol (s.write b d)).data = (L.vol s).data := by
  funext c
  simp only [vol]
  by_cases hc : L.role c = .data
  · rw [disk_write_of_role]
    rw [hc]
    exact fun e => h e.symm
  · simp [hc]

theorem bg_write (h : ∀ k, L.role b ≠ .groupDesc k) {g : Nat} (hg : g < L.fs.num_groups) :
    L.bg (s.write b d) g = L.bg s g := by
  rw [bg, disk_write_of_role]
  · rfl
  · rw [role_bgBlock hg]
    exact fun e => h _ e.symm

theorem bfree_write (h : ∀ k, L.role b ≠ .groupDesc k) : (L.vol (s.write b d)).bfree = (L.vol s).bfree := by
  funext g
  simp only [vol]
  split_ifs with hg
  · rw [bg_write h hg]
  · rfl

theorem ifree_write (h : ∀ k, L.role b ≠ .groupDesc k) : (L.vol (s.write b d)).ifree = (L.vol s).ifree := by
  funext g
  simp only [vol]
  split_ifs with hg
  · rw [bg_write h hg]
  · rfl

theorem Valid.congr {s' : St} (hv : L.Valid s) (h : s'.disk = s.disk) : L.Valid s' := by
  have e : ∀ g, L.bg s' g = L.bg s g := fun g => by rw [bg, bg, h]
  exact ⟨by rw [h, hv.super], fun g hg => by rw [e, hv.used_dirs g hg], fun g hg => by rw [e, hv.block_bitmap g hg],
    fun g hg => by rw [e, hv.inode_bitmap g hg], fun g hg => by rw [e, hv.inode_table g hg]⟩

theorem Valid.write (hv : L.Valid s) (hb : L.role b ≠ .superblock) (h : ∀ k, L.role b ≠ .groupDesc k) :
    L.Valid (s.write b d) where
  super := by
    rw [disk_write_of_role, hv.super]
    rw [L.role_super]
    exact hb.symm
  used_dirs g hg := by rw [bg_write h hg, hv.used_dirs g hg]
  block_bitmap g hg := by rw [bg_write h hg, hv.block_bitmap g hg]
  inode_bitmap g hg := by rw [bg_write h hg, hv.inode_bitmap g hg]
  inode_table g hg := by rw [bg_write h hg, hv.inode_table g hg]

/-! ## Families of bits and of records

Bit `c` of a family is bit `idx c` of block `blk c`, record `c` the `n` bytes
from `off c` on; no two share their place. -/

section Families

variable {P : Nat → Prop} [DecidablePred P] {c₀ : Nat}

theorem bits_write (blk : Nat → Nat) {idx : Nat → Nat} {v : Bool} (hP : P c₀)
    (hinj : ∀ c, P c → blk c = blk c₀ → idx c = idx c₀ → c = c₀)
    (hd : ∀ j, d.bit j = if j = idx c₀ then v else (s.disk (blk c₀)).bit j) :
    (fun c => decide (P c) && ((s.write (blk c₀) d).disk (blk c)).bit (idx c)) =
      Function.update (fun c => decide (P c) && (s.disk (blk c)).bit (idx c)) c₀ v := by
  funext c
  simp only [update_apply, St.write]
  by_cases hc : c = c₀
  · subst hc
    simp [hP, hd]
  by_cases hPc : P c
  · by_cases hb : blk c = blk c₀
    · simp [hc, hb, hd, mt (hinj c hPc hb) hc]
    · simp [hc, hb]
  · simp [hPc, hc]

theorem records_write (blk off : Nat → Nat) {n : Nat} {z : Bytes} (hP : P c₀)
    (hdis : ∀ c, P c → c ≠ c₀ → blk c = blk c₀ → off c + n ≤ off c₀ ∨ off c₀ + n ≤ off c) :
    (fun c => if P c then
      ((s.write (blk c₀) ((s.disk (blk c₀)).copy n (off c₀) d)).disk (blk c)).slice n (off c) else z) =
      Function.update (fun c => if P c then (s.disk (blk c)).slice n (off c) else z) c₀ (d.slice n 0) := by
  funext c
  simp only [update_apply, St.write]
  by_cases hc : c = c₀
  · subst hc
    simp [hP, Bytes.slice_copy]
  by_cases hPc : P c
  · by_cases hb : blk c = blk c₀
    · simp [hPc, hc, hb, Bytes.slice_copy_of_disjoint _ _ (hdis c hPc hc hb)]
    · simp [hPc, hc, hb]
  · simp [hPc, hc]

theorem disjoint_of_mod {n k m a a₀ : Nat} (hk : n ≤ k) (ha : a ≠ a₀)
    (hq : a * k / m = a₀ * k / m) : a * k % m + n ≤ a₀ * k % m ∨ a₀ * k % m + n ≤ a * k % m := by
  have h1 := div_add_mod (a * k) m
  have h2 := div_add_mod (a₀ * k) m
  rw [hq] at h1
  rcases Nat.lt_or_gt_of_ne ha with h | h
  · have := Nat.mul_le_mul_right k (succ_le_of_lt h)
    rw [succ_mul] at this
    omega
  · have := Nat.mul_le_mul_right k (succ_le_of_lt h)
    rw [succ_mul] at this
    omega

end Families

/-! ## What each kind of write changes -/

theorem vol_write_data (hb : L.role b = .data) :
    L.vol (s.write b d) = { L.vol s with data := Function.update (L.vol s).data b d } := by
  ext1
  · exact used_write (by simp [hb])
  · exact ibit_write (by simp [hb])
  · exact inode_write (by simp [hb])
  · funext c
    simp only [vol, St.write]
    by_cases hc : c = b
    · subst hc; simp [hb]
    · simp [hc]
  · exact bfree_write (by simp [hb])
  · exact ifree_write (by simp [hb])
  · rfl
  · rfl

theorem vol_write_blockBit {v : Bool} (hb : L.IsBlock b)
    (hd : ∀ j, d.bit j = if j = L.bitOf b then v else (s.disk (L.block_bitmap (L.groupOf b))).bit j) :
    L.vol (s.write (L.block_bitmap (L.groupOf b)) d) = { L.vol s with used := Function.update (L.vol s).used b v } := by
  have hr := L.role_block_bitmap _ (groupOf_lt hb)
  ext1
  · refine bits_write (fun c => L.block_bitmap (L.groupOf c)) hb ?_ hd
    intro c hc h1 h2
    have hg : L.groupOf c = L.groupOf b := by
      have := L.role_block_bitmap _ (groupOf_lt hc)
      rw [h1, hr] at this
      exact (Role.blockBitmap.inj this).symm
    rw [block_eq hc, block_eq hb, hg, h2]
  · exact ibit_write (by simp [hr])
  · exact inode_write (by simp [hr])
  · exact data_write (by simp [hr])
  · exact bfree_write (by simp [hr])
  · exact ifree_write (by simp [hr])
  · rfl
  · rfl

theorem vol_write_inodeBit {v : Bool} (hn : L.IsIno n)
    (hd : ∀ j, d.bit j = if j = L.ibitOf n then v else (s.disk (L.inode_bitmap (L.igroupOf n))).bit j) :
    L.vol (s.write (L.inode_bitmap (L.igroupOf n)) d) =
      { L.vol s with ibit := Function.update (L.vol s).ibit n v } := by
  have hr := L.role_inode_bitmap _ (igroupOf_lt hn)
  ext1
  · exact used_write (by simp [hr])
  · refine bits_write (fun c => L.inode_bitmap (L.igroupOf c)) hn ?_ hd
    intro m hm h1 h2
    have hg : L.igroupOf m = L.igroupOf n := by
      have := L.role_inode_bitmap _ (igroupOf_lt hm)
      rw [h1, hr] at this
      exact (Role.inodeBitmap.inj this).symm
    rw [ino_eq hm, ino_eq hn, hg, h2]
  · exact inode_write (by simp [hr])
  · exact data_write (by simp [hr])
  · exact bfree_write (by simp [hr])
  · exact ifree_write (by simp [hr])
  · rfl
  · rfl

theorem vol_write_inode (hn : L.IsIno n) :
    L.vol (s.write (L.tableBlock n) ((s.disk (L.tableBlock n)).copy 128 (L.tableOff n) d)) =
      { L.vol s with inode := Function.update (L.vol s).inode n (d.slice 128 0) } := by
  have hr := role_tableBlock hn
  ext1
  · exact used_write (by simp [hr])
  · exact ibit_write (by simp [hr])
  · refine records_write L.tableBlock L.tableOff hn ?_
    intro m hm hmn h1
    have h2 := role_tableBlock hm
    rw [h1, hr] at h2
    obtain ⟨hg, hk⟩ := Role.inodeTable.inj h2
    refine disjoint_of_mod L.inode_size_ge ?_ hk.symm
    intro e
    exact hmn (by rw [ino_eq hm, ino_eq hn, hg, e])
  · exact data_write (by simp [hr])
  · exact bfree_write (by simp [hr])
  · exact ifree_write (by simp [hr])
  · rfl
  · rfl

theorem bg_write_bg {g h : Nat} (hg : g < L.fs.num_groups) (hh : h < L.fs.num_groups) :
    L.bg (s.write (L.bgBlock g) ((s.disk (L.bgBlock g)).copy 32 (L.bgOff g) d)) h =
      if h = g then d.slice 32 0 else L.bg s h := by
  have key := congrFun (records_write (s := s) (d := d) (n := 32) (z := Bytes.zero) (P := fun h => h < L.fs.num_groups)
    L.bgBlock L.bgOff hg ?_) h
  · simpa [bg, hh, update_apply] using key
  · intro c hc hcg h1
    have h2 := role_bgBlock hc
    rw [h1, role_bgBlock hg] at h2
    have hq := Role.groupDesc.inj h2
    have h3 := div_add_mod c (bgsPerBlock L.fs)
    have h4 := div_add_mod g (bgsPerBlock L.fs)
    rw [← hq] at h3
    unfold bgOff
    omega

end Layout

theorem live_isIno {L : Layout} {s : St} {n : Nat} (h : (L.vol s).live n) : L.IsIno n := by
  have h : (decide (L.IsIno n) && _) = true := h
  simp only [Bool.and_eq_true, decide_eq_true_eq] at h
  exact h.1

end Ext2
