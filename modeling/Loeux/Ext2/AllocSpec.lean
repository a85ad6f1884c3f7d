import Loeux.Ext2.World
import Loeux.Ext2.Layout
/-!
# What the allocators do to the volume

One lemma for each function of `Alloc`, in terms of the volume the disk
describes. In a world with failures, an allocator that reports an error has
changed nothing.
-/
open Lib Bytes Prog Nat

namespace Ext2

open Layout

/-- `s'` is `s` with the volume moved on to `v`. -/
structure Layout.Upd (L : Layout) (s : St) (v : Vol) (s' : St) : Prop where
  valid : L.Valid s'
  same : Same s s'
  crit : s.crit ≤ s'.crit
  vol : L.vol s' = v

namespace Layout

variable (L : Layout)

/-! ## Abstract effects -/

def allocBlock (v : Vol) (b : Nat) : Vol :=
  { v with
    used := Function.update v.used b true
    bfree := Function.update v.bfree (L.groupOf b) (u16 (v.bfree (L.groupOf b) + (2 ^ 16 - 1)))
    free_blocks := u32 (v.free_blocks + (2 ^ 32 - 1)) }

def freeBlock (v : Vol) (b : Nat) : Vol :=
  { v with
    used := Function.update v.used b false
    bfree := Function.update v.bfree (L.groupOf b) (u16 (v.bfree (L.groupOf b) + 1))
    free_blocks := u32 (v.free_blocks + 1) }

def allocInode (v : Vol) (n : Nat) : Vol :=
  { v with
    ibit := Function.update v.ibit n true
    ifree := Function.update v.ifree (L.igroupOf n) (u16 (v.ifree (L.igroupOf n) + (2 ^ 16 - 1)))
    free_inodes := u32 (v.free_inodes + (2 ^ 32 - 1)) }

def freeInode (v : Vol) (n : Nat) : Vol :=
  { v with
    ibit := Function.update v.ibit n false
    ifree := Function.update v.ifree (L.igroupOf n) (u16 (v.ifree (L.igroupOf n) + 1))
    free_inodes := u32 (v.free_inodes + 1) }

variable {L} {s s' s'' : St} {v v' : Vol}

theorem Upd.refl (hv : L.Valid s) : L.Upd s (L.vol s) s := ⟨hv, .refl s, le_rfl, rfl⟩

theorem Upd.trans (h : L.Upd s v s') (h' : L.Upd s' v' s'') : L.Upd s v' s'' :=
  ⟨h'.valid, h.same.trans h'.same, h.crit.trans h'.crit, h'.vol⟩

theorem Upd.free_blocks (h : L.Upd s v s') (x : Nat) :
    L.Upd s { v with free_blocks := x } { s' with free_blocks := x } := by
  obtain ⟨hv, hs, hc, rfl⟩ := h
  exact ⟨hv.congr rfl, ⟨hs.1, hs.2, hs.3, hs.4⟩, hc, rfl⟩

theorem Upd.free_inodes (h : L.Upd s v s') (x : Nat) :
    L.Upd s { v with free_inodes := x } { s' with free_inodes := x } := by
  obtain ⟨hv, hs, hc, rfl⟩ := h
  exact ⟨hv.congr rfl, ⟨hs.1, hs.2, hs.3, hs.4⟩, hc, rfl⟩

theorem Upd.crit_succ (h : L.Upd s v s') : L.Upd s v { s' with crit := s'.crit + 1 } := by
  obtain ⟨hv, hs, hc, rfl⟩ := h
  exact ⟨hv.congr rfl, ⟨hs.1, hs.2, hs.3, hs.4⟩, le_succ_of_le hc, rfl⟩

theorem Upd.write_data (h : L.Upd s v s') {b : Nat} (hb : L.role b = .data) (d : Bytes) :
    L.Upd s { v with data := Function.update v.data b d } (s'.write b d) := by
  obtain ⟨hv, hs, hc, rfl⟩ := h
  exact ⟨hv.write (by simp [hb]) (by simp [hb]), ⟨hs.1, hs.2, hs.3, hs.4⟩, hc, vol_write_data hb⟩

/-! ## Descriptors -/

def saved (L : Layout) (s : St) (g : Nat) (d : Bytes) : St :=
  s.write (L.bgBlock g) ((s.disk (L.bgBlock g)).copy 32 (L.bgOff g) d)

theorem count_saved {g : Nat} (hg : g < L.fs.num_groups) (d : Bytes) {f : Bytes → Nat} (hf : f (d.slice 32 0) = f d) :
    (fun h => if h < L.fs.num_groups then f (L.bg (L.saved s g d) h) else 0) =
      Function.update (fun h => if h < L.fs.num_groups then f (L.bg s h) else 0) g (f d) := by
  funext h
  by_cases hh : h < L.fs.num_groups
  · by_cases e : h = g
    · subst e
      simp [saved, hg, bg_write_bg, hf]
    · simp [saved, hh, hg, bg_write_bg, e]
  · have e : h ≠ g := by rintro rfl; exact hh hg
    simp [hh, e]

theorem vol_saved {g : Nat} (hg : g < L.fs.num_groups) (d : Bytes) :
    L.vol (L.saved s g d) =
      { L.vol s with
        bfree := Function.update (L.vol s).bfree g (Bg.bg_free_blocks_count d)
        ifree := Function.update (L.vol s).ifree g (Bg.bg_free_inodes_count d) } := by
  have hr := role_bgBlock hg
  ext1
  · exact used_write (by simp [hr])
  · exact ibit_write (by simp [hr])
  · exact inode_write (by simp [hr])
  · exact data_write (by simp [hr])
  · exact count_saved hg d (get_slice d (by omega))
  · exact count_saved hg d (get_slice d (by omega))
  · rfl
  · rfl

theorem Valid.saved (hv : L.Valid s) {g : Nat} (hg : g < L.fs.num_groups) {d : Bytes}
    (hd : ∀ n o, o + n ≤ 12 ∨ 16 ≤ o → d.get n o = (L.bg s g).get n o) : L.Valid (L.saved s g d) := by
  have key : ∀ h, h < L.fs.num_groups → ∀ n o, o + n ≤ 32 → o + n ≤ 12 ∨ 16 ≤ o →
      (L.bg (L.saved s g d) h).get n o = (L.bg s h).get n o := by
    intro h hh n o ho hno
    rw [Layout.saved, bg_write_bg hg hh]
    split_ifs with e
    · subst e
      rw [get_slice _ ho, Nat.zero_add, hd _ _ hno]
    · rfl
  refine ⟨?_, fun h hh => ?_, fun h hh => ?_, fun h hh => ?_, fun h hh => ?_⟩
  · rw [Layout.saved, disk_write_of_role, hv.super]
    rw [L.role_super, role_bgBlock hg]
    exact Role.noConfusion
  · rw [Bg.bg_used_dirs_count, key h hh _ _ (by omega) (by omega)]
    exact hv.used_dirs h hh
  · rw [Bg.bg_block_bitmap, key h hh _ _ (by omega) (by omega)]
    exact hv.block_bitmap h hh
  · rw [Bg.bg_inode_bitmap, key h hh _ _ (by omega) (by omega)]
    exact hv.inode_bitmap h hh
  · rw [Bg.bg_inode_table, key h hh _ _ (by omega) (by omega)]
    exact hv.inode_table h hh

theorem vol_saved_bfree {g x : Nat} (hg : g < L.fs.num_groups) :
    L.vol (L.saved s g ((L.bg s g).put 2 12 x)) =
      { L.vol s with bfree := Function.update (L.vol s).bfree g (u16 x) } := by
  have h1 : Bg.bg_free_blocks_count ((L.bg s g).put 2 12 x) = u16 x := get_put 2 12 x _
  have h2 : Bg.bg_free_inodes_count ((L.bg s g).put 2 12 x) = (L.vol s).ifree g := by
    rw [Bg.bg_free_inodes_count, get_put_of_disjoint _ _ (by omega)]
    simp [vol, hg, Bg.bg_free_inodes_count]
  rw [vol_saved hg, h1, h2, Function.update_eq_self]

theorem vol_saved_ifree {g x : Nat} (hg : g < L.fs.num_groups) :
    L.vol (L.saved s g ((L.bg s g).put 2 14 x)) =
      { L.vol s with ifree := Function.update (L.vol s).ifree g (u16 x) } := by
  have h1 : Bg.bg_free_inodes_count ((L.bg s g).put 2 14 x) = u16 x := get_put 2 14 x _
  have h2 : Bg.bg_free_blocks_count ((L.bg s g).put 2 14 x) = (L.vol s).bfree g := by
    rw [Bg.bg_free_blocks_count, get_put_of_disjoint _ _ (by omega)]
    simp [vol, hg, Bg.bg_free_blocks_count]
  rw [vol_saved hg, h1, h2, Function.update_eq_self]

end Layout

/-! ## Single blocks -/

section Blocks

variable {L : Layout} {F : Prop} {s : St}

theorem wp_loadBg (g : Nat) (Q : Option Bytes → St → Prop) : wp (world F) (loadBg L.fs g) Q s ↔
      Q (some (L.bg s g)) s ∧ (F → s.crit = 0 → Q none s) := by
  simp [loadBg, Layout.bg, Layout.bgBlock, Layout.bgOff]

theorem wp_saveBg (g : Nat) (d : Bytes) (Q : Bool → St → Prop) : wp (world F) (saveBg L.fs g d) Q s ↔
      Q true (L.saved s g d) ∧ (F → s.crit = 0 → Q false s) := by
  simp [saveBg, Layout.saved, Layout.bgBlock, Layout.bgOff]

theorem wp_bitmapTest (blk i : Nat) (Q : Option Bool → St → Prop) : wp (world F) (bitmapTest blk i) Q s ↔
      Q (some ((s.disk blk).bit i)) s ∧ (F → s.crit = 0 → Q none s) := by
  simp [bitmapTest]

theorem wp_bitmapSet (blk i : Nat) (Q : Bool → St → Prop) : wp (world F) (bitmapSet blk i) Q s ↔
      Q true (s.write blk ((s.disk blk).setBit i)) ∧ (F → s.crit = 0 → Q false s) := by
  simp [bitmapSet]

theorem wp_bitmapClear (blk i : Nat) (Q : Bool → St → Prop) : wp (world F) (bitmapClear blk i) Q s ↔
      Q true (s.write blk ((s.disk blk).clearBit i)) ∧ (F → s.crit = 0 → Q false s) := by
  simp [bitmapClear]

/-! ## Inode records -/

theorem wp_inodeRead (hv : L.Valid s) {n : Nat} (hn : L.IsIno n) (Q : Option Bytes → St → Prop) :
    wp (world F) (inodeRead L.fs n) Q s ↔ Q (some ((L.vol s).inode n)) s ∧ (F → s.crit = 0 → Q none s) := by
  have h0 : ¬(n = 0 ∨ L.fs.inodes_count < n) := by have := hn.1; have := hn.2; omega
  have ht := hv.inode_table _ (igroupOf_lt hn)
  simp [inodeRead, h0, wp_loadBg, ht, Layout.vol, hn, inodeGroup_eq, inodeBlock_eq, inodeOff_eq]

theorem wp_inodeRead_of_not {n : Nat} (hn : ¬L.IsIno n) (Q : Option Bytes → St → Prop) :
    wp (world F) (inodeRead L.fs n) Q s ↔ Q none s := by
  have h0 : n = 0 ∨ L.fs.inodes_count < n := by unfold Layout.IsIno at hn; omega
  simp [inodeRead, h0]

def Layout.stored (L : Layout) (s : St) (n : Nat) (di : Bytes) : St :=
  s.write (L.tableBlock n) ((s.disk (L.tableBlock n)).copy 128 (L.tableOff n) di)

theorem wp_inodeWrite (hv : L.Valid s) {n : Nat} (hn : L.IsIno n) (di : Bytes) (Q : Bool → St → Prop) :
    wp (world F) (inodeWrite L.fs n di) Q s ↔ Q true (L.stored s n di) ∧ (F → s.crit = 0 → Q false s) := by
  have h0 : ¬(n = 0 ∨ L.fs.inodes_count < n) := by have := hn.1; have := hn.2; omega
  have ht := hv.inode_table _ (igroupOf_lt hn)
  simp [inodeWrite, h0, wp_loadBg, ht, hn, Layout.stored, inodeGroup_eq, inodeBlock_eq, inodeOff_eq]

theorem Layout.upd_stored (hv : L.Valid s) {n : Nat} (hn : L.IsIno n) (di : Bytes) :
    L.Upd s { L.vol s with inode := Function.update (L.vol s).inode n (di.slice 128 0) }
      (L.stored s n di) :=
  ⟨hv.write (by simp [role_tableBlock hn]) (by simp [role_tableBlock hn]), ⟨rfl, rfl, rfl, rfl⟩, le_rfl, vol_write_inode hn⟩

end Blocks

/-! ## Bits and counters together -/

namespace Layout

variable {L : Layout} {s : St}

/-- The state after block `b` was marked used or free and its group's counter
was stored. -/
def flipped (L : Layout) (s : St) (b : Nat) (d : Bytes) (x : Nat) : St :=
  L.saved (s.write (L.block_bitmap (L.groupOf b)) d) (L.groupOf b) ((L.bg s (L.groupOf b)).put 2 12 x)

/-- The same for an inode. -/
def iflipped (L : Layout) (s : St) (n : Nat) (d : Bytes) (x : Nat) : St :=
  L.saved (s.write (L.inode_bitmap (L.igroupOf n)) d) (L.igroupOf n) ((L.bg s (L.igroupOf n)).put 2 14 x)

theorem upd_flipped (hv : L.Valid s) {b : Nat} (hb : L.IsBlock b) {d : Bytes} {v : Bool} (x : Nat)
    (hd : ∀ j, d.bit j = if j = L.bitOf b then v else (s.disk (L.block_bitmap (L.groupOf b))).bit j) :
    L.Upd s
      { L.vol s with
        used := Function.update (L.vol s).used b v
        bfree := Function.update (L.vol s).bfree (L.groupOf b) (u16 x) }
      (L.flipped s b d x) := by
  have hg := groupOf_lt hb
  have hr := L.role_block_bitmap _ hg
  have hbg : L.bg (s.write (L.block_bitmap (L.groupOf b)) d) (L.groupOf b) = L.bg s (L.groupOf b) :=
    bg_write (by simp [hr]) hg
  refine ⟨?_, ⟨rfl, rfl, rfl, rfl⟩, le_rfl, ?_⟩
  · refine (hv.write (by simp [hr]) (by simp [hr])).saved hg fun n o h => ?_
    rw [hbg, get_put_of_disjoint _ _ (by omega)]
  · rw [flipped, ← hbg, vol_saved_bfree hg, vol_write_blockBit hb hd]

theorem upd_iflipped (hv : L.Valid s) {n : Nat} (hn : L.IsIno n) {d : Bytes} {v : Bool} (x : Nat)
    (hd : ∀ j, d.bit j = if j = L.ibitOf n then v else (s.disk (L.inode_bitmap (L.igroupOf n))).bit j) :
    L.Upd s
      { L.vol s with
        ibit := Function.update (L.vol s).ibit n v
        ifree := Function.update (L.vol s).ifree (L.igroupOf n) (u16 x) }
      (L.iflipped s n d x) := by
  have hg := igroupOf_lt hn
  have hr := L.role_inode_bitmap _ hg
  have hbg : L.bg (s.write (L.inode_bitmap (L.igroupOf n)) d) (L.igroupOf n) = L.bg s (L.igroupOf n) :=
    bg_write (by simp [hr]) hg
  refine ⟨?_, ⟨rfl, rfl, rfl, rfl⟩, le_rfl, ?_⟩
  · refine (hv.write (by simp [hr]) (by simp [hr])).saved hg fun n o h => ?_
    rw [hbg, get_put_of_disjoint _ _ (by omega)]
  · rw [iflipped, ← hbg, vol_saved_ifree hg, vol_write_inodeBit hn hd]

end Layout

/-! ## The allocators -/

section Allocators

variable {L : Layout} {F : Prop} {s : St}

def Layout.AllocatesBlock (L : Layout) (s : St) (b : Nat) (s' : St) : Prop :=
  L.IsBlock b ∧ (L.vol s).used b = false ∧ L.Upd s (L.allocBlock (L.vol s) b) s'

def Layout.AllocatesInode (L : Layout) (s : St) (n : Nat) (s' : St) : Prop :=
  L.IsIno n ∧ (L.vol s).ibit n = false ∧ L.Upd s (L.allocInode (L.vol s) n) s'

variable (hv : L.Valid s)

include hv

theorem allocBlockBits_spec {g : Nat} (hg : g < L.fs.num_groups) (n i : Nat)
    (hi : i + n = L.fs.blocks_per_group) :
    wp (world F) (allocBlockBits L.fs g (L.bg s g) n i) (fun r s' =>
        (r = none ∧ F ∧ s.crit = 0 ∧ s' = s) ∨ (r = some none ∧ s' = s) ∨
        ∃ b, r = some (some b) ∧ L.AllocatesBlock s b s') s := by
  induction n generalizing i with
  | zero => simp [allocBlockBits]
  | succ n ih =>
    have hlt : i < L.fs.blocks_per_group := by omega
    set b := L.fs.first_data_block + g * L.fs.blocks_per_group + i with hb
    have hb32 : u32 b = b := by
      have h1 := Nat.mul_le_mul_right L.fs.blocks_per_group (succ_le_of_lt hg)
      rw [succ_mul] at h1
      have h2 := L.blocks_lt
      exact mod_eq_of_lt (by omega)
    have hgb : L.groupOf b = g := groupOf_block hlt
    have hib : L.bitOf b = i := bitOf_block hlt
    unfold allocBlockBits
    rw [← hb, hb32]
    by_cases hfull : L.fs.blocks_count ≤ b
    · simp [hfull]
    have hblk : L.IsBlock b := ⟨by omega, by omega⟩
    simp only [if_neg hfull, wp_bind, wp_bitmapTest, hv.block_bitmap g hg]
    refine ⟨?_, fun hF hc => by simp [hF, hc]⟩
    cases hbit : (s.disk (L.block_bitmap g)).bit i with
    | true => simpa using ih (i + 1) (by omega)
    | false =>
      simp only [Bool.false_eq_true, if_false, wp_bind, wp_bitmapSet]
      refine ⟨?_, fun hF hc => by simp [hF, hc]⟩
      -- the descriptor is stored while the bit is held, so that cannot fail
      simp only [if_not_true, wp_bind, wp_mark_hold, wp_saveBg]
      refine ⟨?_, fun _ hc => absurd hc (succ_ne_zero _)⟩
      simp only [wp_mark_unhold, wp_setFreeBlocks, wp_mark_alloc, wp_pure]
      have hset : ∀ j, ((s.disk (L.block_bitmap (L.groupOf b))).setBit i).bit j =
          if j = L.bitOf b then true else (s.disk (L.block_bitmap (L.groupOf b))).bit j := by
        rw [hib]
        exact bit_setBit _ i
      have hfree : (L.vol s).used b = false := by simp [Layout.vol, hgb, hib, hbit]
      have hcnt : Bg.bg_free_blocks_count (L.bg s g) = (L.vol s).bfree g := by simp [Layout.vol, hg]
      have hupd := (upd_flipped hv hblk ((L.vol s).bfree g + (2 ^ 16 - 1)) hset).free_blocks
        (u32 (s.free_blocks + (2 ^ 32 - 1)))
      rw [hcnt]
      refine .inr (.inr ⟨b, rfl, hblk, hfree, ?_⟩)
      rw [Layout.flipped, hgb] at hupd
      rw [Layout.allocBlock, hgb]
      exact hupd

theorem allocBlockGroups_spec (n g : Nat) (hg : g + n = L.fs.num_groups) : wp (world F) (allocBlockGroups L.fs n g)
      (fun r s' =>
        (r = none ∧ (F → s.crit = 0) ∧ s' = s) ∨ ∃ b, r = some b ∧ L.AllocatesBlock s b s') s := by
  induction n generalizing g with
  | zero => simp [allocBlockGroups]
  | succ n ih =>
    unfold allocBlockGroups
    simp only [wp_bind, wp_loadBg]
    refine ⟨?_, fun hF hc => by simp [hc]⟩
    refine wp_weaken (allocBlockBits_spec hv (by omega) _ 0 (by omega)) ?_
    rintro r s' (⟨rfl, hF, hc, rfl⟩ | ⟨rfl, rfl⟩ | ⟨b, rfl, hb⟩)
    · simp [hc]
    · exact ih (g + 1) (by omega)
    · simp [hb]

theorem allocBlock_spec : wp (world F) (allocBlock L.fs) (fun r s' =>
        (r = none ∧ (F → s.crit = 0) ∧ s' = s) ∨ ∃ b, r = some b ∧ L.AllocatesBlock s b s') s := by
  simp only [allocBlock, wp_bind, wp_mark_enter, wp_mark_leave, wp_pure]
  exact allocBlockGroups_spec hv _ 0 (by omega)

theorem allocInodeBits_spec {g : Nat} (hg : g < L.fs.num_groups) (n i : Nat)
    (hi : i + n = L.fs.inodes_per_group) :
    wp (world F) (allocInodeBits L.fs g (L.bg s g) n i) (fun r s' =>
        (r = none ∧ F ∧ s.crit = 0 ∧ s' = s) ∨ (r = some none ∧ s' = s) ∨
        ∃ n, r = some (some n) ∧ L.AllocatesInode s n s') s := by
  induction n generalizing i with
  | zero => simp [allocInodeBits]
  | succ n ih =>
    have hlt : i < L.fs.inodes_per_group := by omega
    set m := g * L.fs.inodes_per_group + 1 + i with hm
    have hino : L.IsIno m := isIno_of_lt hg hlt
    have hm32 : u32 m = m := mod_eq_of_lt (Nat.lt_of_le_of_lt hino.2 L.inodes_lt)
    have hgm : L.igroupOf m = g := igroupOf_ino hlt
    have him : L.ibitOf m = i := ibitOf_ino hlt
    unfold allocInodeBits
    rw [← hm, hm32]
    simp only [wp_bind, wp_bitmapTest, hv.inode_bitmap g hg]
    refine ⟨?_, fun hF hc => by simp [hF, hc]⟩
    cases hbit : (s.disk (L.inode_bitmap g)).bit i with
    | true => simpa using ih (i + 1) (by omega)
    | false =>
      simp only [Bool.false_eq_true, if_false, wp_bind, wp_bitmapSet]
      refine ⟨?_, fun hF hc => by simp [hF, hc]⟩
      simp only [if_not_true, wp_bind, wp_mark_hold, wp_saveBg]
      refine ⟨?_, fun _ hc => absurd hc (succ_ne_zero _)⟩
      simp only [wp_mark_unhold, wp_setFreeInodes, wp_pure]
      have hset : ∀ j, ((s.disk (L.inode_bitmap (L.igroupOf m))).setBit i).bit j =
          if j = L.ibitOf m then true else (s.disk (L.inode_bitmap (L.igroupOf m))).bit j := by
        rw [him]
        exact bit_setBit _ i
      have hfree : (L.vol s).ibit m = false := by simp [Layout.vol, hgm, him, hbit]
      have hcnt : Bg.bg_free_inodes_count (L.bg s g) = (L.vol s).ifree g := by simp [Layout.vol, hg]
      have hupd := (upd_iflipped hv hino ((L.vol s).ifree g + (2 ^ 16 - 1)) hset).free_inodes
        (u32 (s.free_inodes + (2 ^ 32 - 1)))
      rw [hcnt]
      refine .inr (.inr ⟨m, rfl, hino, hfree, ?_⟩)
      rw [Layout.iflipped, hgm] at hupd
      rw [Layout.allocInode, hgm]
      exact hupd

theorem allocInodeGroups_spec (n g : Nat) (hg : g + n = L.fs.num_groups) : wp (world F) (allocInodeGroups L.fs n g)
      (fun r s' => (r = none ∧ s' = s) ∨ ∃ n, r = some n ∧ L.AllocatesInode s n s') s := by
  induction n generalizing g with
  | zero => simp [allocInodeGroups]
  | succ n ih =>
    unfold allocInodeGroups
    simp only [wp_bind, wp_loadBg]
    refine ⟨?_, fun hF hc => by simp⟩
    refine wp_weaken (allocInodeBits_spec hv (by omega) _ 0 (by omega)) ?_
    rintro r s' (⟨rfl, hF, hc, rfl⟩ | ⟨rfl, rfl⟩ | ⟨n, rfl, hn⟩)
    · simp
    · exact ih (g + 1) (by omega)
    · simp [hn]

theorem allocInode_spec : wp (world F) (allocInode L.fs)
      (fun r s' => (r = none ∧ s' = s) ∨ ∃ n, r = some n ∧ L.AllocatesInode s n s') s :=
  allocInodeGroups_spec hv _ 0 (by omega)

/-! ## Giving back -/

theorem freeInode_spec {n : Nat} (hn : L.IsIno n) :
    wp (world F) (freeInode L.fs n) (fun r s' =>
        (r = true ∧ L.Upd s (L.freeInode (L.vol s) n) s') ∨
        (r = false ∧ F ∧ s.crit = 0 ∧
          L.Upd s { L.vol s with ibit := Function.update (L.vol s).ibit n false } s')) s := by
  have hg := igroupOf_lt hn
  have hr := L.role_inode_bitmap _ hg
  have hclear := bit_clearBit (s.disk (L.inode_bitmap (L.igroupOf n))) (L.ibitOf n)
  unfold freeInode
  rw [inodeGroup_eq, inodeIdx_eq]
  simp only [wp_bind, wp_mark_hold, wp_loadBg]
  refine ⟨?_, fun _ hc => absurd hc (succ_ne_zero _)⟩
  have hbg : Bg.bg_inode_bitmap (L.bg { s with crit := s.crit + 1 } (L.igroupOf n)) =
      L.inode_bitmap (L.igroupOf n) := hv.inode_bitmap _ hg
  rw [hbg, wp_bitmapClear]
  refine ⟨?_, fun _ hc => absurd hc (succ_ne_zero _)⟩
  simp only [if_not_true, wp_bind, wp_mark_unhold, wp_saveBg]
  refine ⟨?_, fun hF hc => ?_⟩
  · rw [wp_setFreeInodes, wp_pure]
    have hcnt : Bg.bg_free_inodes_count (L.bg s (L.igroupOf n)) = (L.vol s).ifree (L.igroupOf n) := by
      simp [Layout.vol, hg]
    have hupd := (upd_iflipped hv hn ((L.vol s).ifree (L.igroupOf n) + 1) hclear).free_inodes (u32 (s.free_inodes + 1))
    rw [← hcnt] at hupd
    exact .inl ⟨rfl, by rw [Layout.freeInode, ← hcnt]; exact hupd⟩
  · refine .inr ⟨rfl, hF, hc, ?_⟩
    exact ⟨hv.write (by simp [hr]) (by simp [hr]), ⟨rfl, rfl, rfl, rfl⟩, le_rfl, vol_write_inodeBit hn hclear⟩

theorem freeBlock_spec {b : Nat} (hb : L.IsBlock b) :
    wp (world F) (freeBlock L.fs b) (fun r s' =>
        (r = true ∧ L.Upd s (L.freeBlock (L.vol s) b) s') ∨
        (r = false ∧ F ∧ s.crit = 0 ∧
          L.Upd s { L.vol s with used := Function.update (L.vol s).used b false } s')) s := by
  have hg := groupOf_lt hb
  have hr := L.role_block_bitmap _ hg
  have hclear := bit_clearBit (s.disk (L.block_bitmap (L.groupOf b))) (L.bitOf b)
  simp only [freeBlock, releaseBlock, wp_bind, wp_mark_enter, wp_mark_free, wp_mark_hold]
  rw [blockGroup_eq hb, blockIdx_eq hb, wp_loadBg]
  refine ⟨?_, fun _ hc => absurd hc (succ_ne_zero _)⟩
  have hbg : Bg.bg_block_bitmap (L.bg { s with crit := s.crit + 1 } (L.groupOf b)) =
      L.block_bitmap (L.groupOf b) := hv.block_bitmap _ hg
  simp only [wp_bind]
  rw [hbg, wp_bitmapClear]
  refine ⟨?_, fun _ hc => absurd hc (succ_ne_zero _)⟩
  simp only [if_not_true, wp_bind, wp_mark_unhold, wp_saveBg]
  refine ⟨?_, fun hF hc => ?_⟩
  · rw [wp_setFreeBlocks, wp_pure, wp_mark_leave, wp_pure]
    have hcnt : Bg.bg_free_blocks_count (L.bg s (L.groupOf b)) = (L.vol s).bfree (L.groupOf b) := by
      simp [Layout.vol, hg]
    have hupd := (upd_flipped hv hb ((L.vol s).bfree (L.groupOf b) + 1) hclear).free_blocks (u32 (s.free_blocks + 1))
    rw [← hcnt] at hupd
    exact .inl ⟨rfl, by rw [Layout.freeBlock, ← hcnt]; exact hupd⟩
  · simp only [Bool.not_false, if_true]
    rw [wp_pure, wp_mark_leave, wp_pure]
    refine .inr ⟨rfl, hF, hc, ?_⟩
    exact ⟨hv.write (by simp [hr]) (by simp [hr]), ⟨rfl, rfl, rfl, rfl⟩, le_rfl, vol_write_blockBit hb hclear⟩

end Allocators

end Ext2
