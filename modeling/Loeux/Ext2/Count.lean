import Loeux.Lib.Tally
import Loeux.Ext2.AllocSpec
/-!
# The free counters and the bitmaps

`Counted` says that the counter in each group descriptor is the number of clear
bits of the group's bitmap, and the counters in memory the sums. Taking a free
block or inode and giving back a used one keep it.
-/
open Lib Function

namespace Ext2.Layout

variable (L : Layout)

def freeBit (v : Vol) (g i : Nat) : Bool :=
  decide (L.IsBlock (L.fs.first_data_block + g * L.fs.blocks_per_group + i)) &&
    !v.used (L.fs.first_data_block + g * L.fs.blocks_per_group + i)

def freeIbit (v : Vol) (g i : Nat) : Bool := !v.ibit (g * L.fs.inodes_per_group + 1 + i)

structure Counted (v : Vol) : Prop where
  blocks : Tally.Counts L.fs.num_groups L.fs.blocks_per_group (L.freeBit v) v.bfree v.free_blocks
  inodes : Tally.Counts L.fs.num_groups L.fs.inodes_per_group (L.freeIbit v) v.ifree v.free_inodes

variable {L} {v v' : Vol}

theorem Counted.congr (h : L.Counted v) (hu : v'.used = v.used) (hi : v'.ibit = v.ibit)
    (hb : v'.bfree = v.bfree) (hf : v'.ifree = v.ifree) (htb : v'.free_blocks = v.free_blocks)
    (hti : v'.free_inodes = v.free_inodes) : L.Counted v' := by
  have e1 : L.freeBit v' = L.freeBit v := by unfold freeBit; rw [hu]
  have e2 : L.freeIbit v' = L.freeIbit v := by unfold freeIbit; rw [hi]
  constructor
  · rw [e1, hb, htb]; exact h.blocks
  · rw [e2, hf, hti]; exact h.inodes

theorem bpg_lt : L.fs.blocks_per_group < 2 ^ 16 := by
  have := L.bpg_le; have := L.block_size_le; omega

theorem ipg_lt : L.fs.inodes_per_group < 2 ^ 16 := by
  have := L.ipg_le; have := L.block_size_le; omega

theorem freeBit_update {b : Nat} (hb : L.IsBlock b) (x : Bool) {g i : Nat} (hi : i < L.fs.blocks_per_group)
    (hv : v'.used = Function.update v.used b x) :
    L.freeBit v' g i = if g = L.groupOf b ∧ i = L.bitOf b then !x else L.freeBit v g i := by
  have hiff : g = L.groupOf b ∧ i = L.bitOf b ↔ L.fs.first_data_block + g * L.fs.blocks_per_group + i = b := by
    constructor
    · rintro ⟨rfl, rfl⟩
      exact (block_eq hb).symm
    · rintro rfl
      exact ⟨(groupOf_block hi).symm, (bitOf_block hi).symm⟩
  unfold freeBit
  rw [hv]
  split_ifs with h
  · rw [hiff.1 h, update_self]
    simp [hb]
  · rw [update_of_ne (mt hiff.2 h)]

theorem freeIbit_update {n : Nat} (hn : L.IsIno n) (x : Bool) {g i : Nat} (hi : i < L.fs.inodes_per_group)
    (hv : v'.ibit = Function.update v.ibit n x) :
    L.freeIbit v' g i = if g = L.igroupOf n ∧ i = L.ibitOf n then !x else L.freeIbit v g i := by
  have hiff : g = L.igroupOf n ∧ i = L.ibitOf n ↔ g * L.fs.inodes_per_group + 1 + i = n := by
    constructor
    · rintro ⟨rfl, rfl⟩
      exact (ino_eq hn).symm
    · rintro rfl
      exact ⟨(igroupOf_ino hi).symm, (ibitOf_ino hi).symm⟩
  unfold freeIbit
  rw [hv]
  split_ifs with h
  · rw [hiff.1 h, update_self]
  · rw [update_of_ne (mt hiff.2 h)]

theorem freeBit_self {b : Nat} (hb : L.IsBlock b) : L.freeBit v (L.groupOf b) (L.bitOf b) = !v.used b := by
  unfold freeBit
  rw [← block_eq hb]
  simp [hb]

theorem freeIbit_self {n : Nat} (hn : L.IsIno n) : L.freeIbit v (L.igroupOf n) (L.ibitOf n) = !v.ibit n := by
  unfold freeIbit
  rw [← ino_eq hn]

theorem Counted.allocBlock (h : L.Counted v) {b : Nat} (hb : L.IsBlock b) (hf : v.used b = false) :
    L.Counted (L.allocBlock v b) where
  blocks := by
    refine h.blocks.clear (m := 2 ^ 16) (M := 2 ^ 32) (groupOf_lt hb) (bitOf_lt b) ?_ ?_ bpg_lt ?_
    · rw [freeBit_self hb, hf]; rfl
    · intro g i _ hi
      exact freeBit_update hb true hi rfl
    · have := L.blocks_lt; omega
  inodes := h.inodes

theorem Counted.freeBlock (h : L.Counted v) {b : Nat} (hb : L.IsBlock b) (hf : v.used b = true) :
    L.Counted (L.freeBlock v b) where
  blocks := by
    refine h.blocks.set (m := 2 ^ 16) (M := 2 ^ 32) (groupOf_lt hb) (bitOf_lt b) ?_ ?_ bpg_lt ?_
    · rw [freeBit_self hb, hf]; rfl
    · intro g i _ hi
      exact freeBit_update hb false hi rfl
    · have := L.blocks_lt; omega
  inodes := h.inodes

theorem Counted.allocInode (h : L.Counted v) {n : Nat} (hn : L.IsIno n) (hf : v.ibit n = false) :
    L.Counted (L.allocInode v n) where
  blocks := h.blocks
  inodes := by
    refine h.inodes.clear (m := 2 ^ 16) (M := 2 ^ 32) (igroupOf_lt hn) (ibitOf_lt n) ?_ ?_ ipg_lt ?_
    · rw [freeIbit_self hn, hf]; rfl
    · intro g i _ hi
      exact freeIbit_update hn true hi rfl
    · rw [← L.inodes_eq]; exact L.inodes_lt

theorem Counted.freeInode (h : L.Counted v) {n : Nat} (hn : L.IsIno n) (hf : v.ibit n = true) :
    L.Counted (L.freeInode v n) where
  blocks := h.blocks
  inodes := by
    refine h.inodes.set (m := 2 ^ 16) (M := 2 ^ 32) (igroupOf_lt hn) (ibitOf_lt n) ?_ ?_ ipg_lt ?_
    · rw [freeIbit_self hn, hf]; rfl
    · intro g i _ hi
      exact freeIbit_update hn false hi rfl
    · rw [← L.inodes_eq]; exact L.inodes_lt

end Ext2.Layout
