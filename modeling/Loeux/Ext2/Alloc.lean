import Loeux.Ext2.Basic
/-!
# Group descriptors, bitmaps, inode records and the two allocators

Each function reads a whole block into a private buffer, changes it there and
writes the whole block back.
-/
open Lib

namespace Ext2

variable (fs : Fs)

def sbBlock : Nat := if fs.first_data_block = 0 then 0 else 1

def bgdtBlock : Nat := sbBlock fs + 1

def bgsPerBlock : Nat := fs.block_size / 32

def loadBg (group : Nat) : M (Option Bytes) := do
  if !(← slabAlloc) then return none
  let some buf ← readBlock (bgdtBlock fs + group / bgsPerBlock fs) | return none
  return some (buf.slice 32 (group % bgsPerBlock fs * 32))

def saveBg (group : Nat) (bg : Bytes) : M Bool := do
  if !(← slabAlloc) then return false
  let some buf ← readBlock (bgdtBlock fs + group / bgsPerBlock fs) | return false
  writeBlock (bgdtBlock fs + group / bgsPerBlock fs) (buf.copy 32 (group % bgsPerBlock fs * 32) bg)

/-! ## Bitmaps -/

def bitmapTest (bitmap_block bit : Nat) : M (Option Bool) := do
  if !(← slabAlloc) then return none
  let some buf ← readBlock bitmap_block | return none
  return some (buf.bit bit)

def bitmapSet (bitmap_block bit : Nat) : M Bool := do
  if !(← slabAlloc) then return false
  let some buf ← readBlock bitmap_block | return false
  writeBlock bitmap_block (buf.setBit bit)

def bitmapClear (bitmap_block bit : Nat) : M Bool := do
  if !(← slabAlloc) then return false
  let some buf ← readBlock bitmap_block | return false
  writeBlock bitmap_block (buf.clearBit bit)

/-! ## Inode records -/

def inodeGroup (ino : Nat) : Nat := divu (ino - 1) fs.inodes_per_group
def inodeIdx (ino : Nat) : Nat := (ino - 1) % fs.inodes_per_group

/-- The block of an inode record, in a group whose table starts at block
`table`, and where the record is in it. -/
def inodeBlock (table ino : Nat) : Nat :=
  u32 (table + u32 (inodeIdx fs ino * fs.inode_size) / fs.block_size)
def inodeOff (ino : Nat) : Nat := u32 (inodeIdx fs ino * fs.inode_size) % fs.block_size

def inodeRead (ino : Nat) : M (Option Bytes) := do
  if ino = 0 ∨ fs.inodes_count < ino then return none
  let some bg ← loadBg fs (inodeGroup fs ino) | return none
  if !(← slabAlloc) then return none
  let some buf ← readBlock (inodeBlock fs (Bg.bg_inode_table bg) ino) | return none
  return some (buf.slice 128 (inodeOff fs ino))

def inodeWrite (ino : Nat) (di : Bytes) : M Bool := do
  if ino = 0 ∨ fs.inodes_count < ino then return false
  let some bg ← loadBg fs (inodeGroup fs ino) | return false
  if !(← slabAlloc) then return false
  let inode_block := inodeBlock fs (Bg.bg_inode_table bg) ino
  let some buf ← readBlock inode_block | return false
  writeBlock inode_block (buf.copy 128 (inodeOff fs ino) di)

/-! ## Inode allocation -/

/-- The inner loop of `ext2_alloc_inode`, with answers as for blocks. -/
def allocInodeBits (g : Nat) (bg : Bytes) : (n i : Nat) → M (Option (Option Nat))
  | 0, _ => return some none
  | n + 1, i => do
    let some used ← bitmapTest (Bg.bg_inode_bitmap bg) i | return none
    if used then
      allocInodeBits g bg n (i + 1)
    else
      if !(← bitmapSet (Bg.bg_inode_bitmap bg) i) then return none
      mark .hold
      if !(← saveBg fs g (bg.put 2 14 (Bg.bg_free_inodes_count bg + (2 ^ 16 - 1)))) then return none
      mark .unhold
      setFreeInodes (fun n => u32 (n + (2 ^ 32 - 1)))
      return some (some (u32 (g * fs.inodes_per_group + 1 + i)))

/-- The outer loop of `ext2_alloc_inode` over `n` more groups, from `g` on. -/
def allocInodeGroups : (n g : Nat) → M (Option Nat)
  | 0, _ => return none
  | n + 1, g => do
    let some bg ← loadBg fs g | return none
    let some found ← allocInodeBits fs g bg fs.inodes_per_group 0 | return none
    match found with
    | some ino => return some ino
    | none => allocInodeGroups n (g + 1)

def allocInode : M (Option Nat) := allocInodeGroups fs fs.num_groups 0

def freeInode (ino : Nat) : M Bool := do
  let group := inodeGroup fs ino
  mark .hold
  let some bg ← loadBg fs group | return false
  if !(← bitmapClear (Bg.bg_inode_bitmap bg) (inodeIdx fs ino)) then return false
  mark .unhold
  if !(← saveBg fs group (bg.put 2 14 (Bg.bg_free_inodes_count bg + 1))) then return false
  setFreeInodes (fun n => u32 (n + 1))
  return true

/-! ## Block allocation -/

/-- The inner loop of `ext2_alloc_block` over `n` more bits of group `g`, from
bit `i` on: `none` is an error, `some none` a group without a free block. -/
def allocBlockBits (g : Nat) (bg : Bytes) : (n i : Nat) → M (Option (Option Nat))
  | 0, _ => return some none
  | n + 1, i => do
    let blk := u32 (fs.first_data_block + g * fs.blocks_per_group + i)
    if fs.blocks_count ≤ blk then return some none
    let some used ← bitmapTest (Bg.bg_block_bitmap bg) i | return none
    if used then
      allocBlockBits g bg n (i + 1)
    else
      if !(← bitmapSet (Bg.bg_block_bitmap bg) i) then return none
      mark .hold
      if !(← saveBg fs g (bg.put 2 12 (Bg.bg_free_blocks_count bg + (2 ^ 16 - 1)))) then return none
      mark .unhold
      setFreeBlocks (fun n => u32 (n + (2 ^ 32 - 1)))
      mark (.alloc blk)
      return some (some blk)

/-- The outer loop of `ext2_alloc_block` over `n` more groups, from `g` on. -/
def allocBlockGroups : (n g : Nat) → M (Option Nat)
  | 0, _ => do
    mark .full
    return none
  | n + 1, g => do
    let some bg ← loadBg fs g | return none
    let some found ← allocBlockBits fs g bg fs.blocks_per_group 0 | return none
    match found with
    | some blk => return some blk
    | none => allocBlockGroups n (g + 1)

def allocBlock : M (Option Nat) := do
  mark .enter
  let r ← allocBlockGroups fs fs.num_groups 0
  mark .leave
  return r

def blockGroup (blk : Nat) : Nat :=
  divu (u32 (blk + (2 ^ 32 - fs.first_data_block))) fs.blocks_per_group
def blockIdx (blk : Nat) : Nat :=
  u32 (blk + (2 ^ 32 - fs.first_data_block)) % fs.blocks_per_group

/-- The body of `ext2_free_block`. -/
def releaseBlock (blk : Nat) : M Bool := do
  let group := blockGroup fs blk
  mark .hold
  let some bg ← loadBg fs group | return false
  if !(← bitmapClear (Bg.bg_block_bitmap bg) (blockIdx fs blk)) then return false
  mark .unhold
  if !(← saveBg fs group (bg.put 2 12 (Bg.bg_free_blocks_count bg + 1))) then return false
  setFreeBlocks (fun n => u32 (n + 1))
  return true

def freeBlock (blk : Nat) : M Bool := do
  mark .enter
  mark (.free blk)
  let r ← releaseBlock fs blk
  mark .leave
  return r

def allocZeroBlock : M (Option Nat) := do
  if !(← slabAlloc) then return none
  let some blk ← allocBlock fs | return none
  if !(← writeBlock blk Bytes.zero) then
    let _ ← freeBlock fs blk
    return none
  mark .hold
  return some blk

end Ext2
