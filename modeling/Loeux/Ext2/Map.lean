import Loeux.Ext2.Alloc
/-!
# The block map of an inode

`getBlock` turns a logical block number into a block number through twelve
direct pointers, one indirect and one double-indirect block; `freeAllBlocks`
gives all of them back. The pointers are those of the inode object in memory,
`privSave` brings them to disk.
-/
open Lib

namespace Ext2

def iBlock (r k : Nat) : M Nat := return (← inodeAt r).priv.i_block k

def Inode.setBlocks (i : Inode) (f : Nat → Nat) : Inode := { i with priv := { i.priv with i_block := f } }

def setIBlock (r k v : Nat) : M Unit := update r fun i => i.setBlocks (Function.update i.priv.i_block k v)

def indGet (ind_blk idx : Nat) : M (Option Nat) := do
  if !(← slabAlloc) then return none
  let some buf ← readBlock ind_blk | return none
  return some (buf.get 4 (idx * 4))

def indSet (ind_blk idx val : Nat) : M Bool := do
  if !(← slabAlloc) then return false
  let some buf ← readBlock ind_blk | return false
  writeBlock ind_blk (buf.put 4 (idx * 4) val)

variable (fs : Fs)

/-- The block that pointer `k` of the inode names, allocated if there is none. -/
def rootAlloc (r k : Nat) : M (Option Nat) := do
  let cur ← iBlock r k
  if cur ≠ 0 then return some cur
  let some nb ← allocZeroBlock fs | return none
  setIBlock r k nb
  return some nb

/-- The block that entry `idx` of a pointer block names, allocated if there is none. -/
def indAlloc (ind idx : Nat) : M (Option Nat) := do
  let some cur ← indGet ind idx | return none
  if cur ≠ 0 then return some cur
  let some nb ← allocZeroBlock fs | return none
  if !(← indSet ind idx nb) then return none
  return some nb

/-- `ext2_get_block`. Without `allocate` a failure to read the last pointer
block is dropped and the block counts as a hole. -/
def getBlock (r lblk : Nat) (allocate : Bool) : M (Option Nat) := do
  let ptrs := fs.ptrs_per_block
  let bound_ind := 12 + ptrs
  let bound_dind := bound_ind + ptrs * ptrs
  if lblk < 12 then
    if allocate then rootAlloc fs r lblk
    else return some (← iBlock r lblk)
  else if lblk < bound_ind then
    let idx := lblk - 12
    if allocate then
      let some ind ← rootAlloc fs r EXT2_IND_BLOCK | return none
      indAlloc fs ind idx
    else
      let ind ← iBlock r EXT2_IND_BLOCK
      if ind = 0 then return some 0
      return some ((← indGet ind idx).getD 0)
  else if lblk < bound_dind then
    let off := lblk - bound_ind
    let idx1 := off / ptrs
    let idx2 := off % ptrs
    if allocate then
      let some dind ← rootAlloc fs r EXT2_DIND_BLOCK | return none
      let some ind ← indAlloc fs dind idx1 | return none
      indAlloc fs ind idx2
    else
      let dind ← iBlock r EXT2_DIND_BLOCK
      if dind = 0 then return some 0
      let some ind ← indGet dind idx1 | return none
      if ind = 0 then return some 0
      return some ((← indGet ind idx2).getD 0)
  else
    return none

/-! ## Giving blocks back -/

/-- The loop of `ext2_free_all_blocks` over `n` more direct pointers, from `i` on. -/
def freeDirect (r : Nat) : (n i : Nat) → M Unit
  | 0, _ => return ()
  | n + 1, i => do
    let b ← iBlock r i
    if b ≠ 0 then
      let _ ← freeBlock fs b
      setIBlock r i 0
    freeDirect r n (i + 1)

def freeEntries (buf : Bytes) : (n i : Nat) → M Unit
  | 0, _ => return ()
  | n + 1, i => do
    let v := buf.get 4 (i * 4)
    if v ≠ 0 then
      let _ ← freeBlock fs v
    freeEntries buf n (i + 1)

/-- The loop over the entries of the double-indirect block; one that cannot be
read is skipped. -/
def freeIndirect (buf : Bytes) : (n i : Nat) → M Unit
  | 0, _ => return ()
  | n + 1, i => do
    let ind := buf.get 4 (i * 4)
    if ind ≠ 0 then
      if ← slabAlloc then
        if let some ibuf ← readBlock ind then
          freeEntries fs ibuf fs.ptrs_per_block 0
          let _ ← freeBlock fs ind
    freeIndirect buf n (i + 1)

def freeSingle (r : Nat) : M Bool := do
  let ind ← iBlock r EXT2_IND_BLOCK
  if ind = 0 then return true
  if !(← slabAlloc) then return false
  let some buf ← readBlock ind | return false
  freeEntries fs buf fs.ptrs_per_block 0
  let _ ← freeBlock fs ind
  setIBlock r EXT2_IND_BLOCK 0
  return true

def freeDouble (r : Nat) : M Bool := do
  let dind ← iBlock r EXT2_DIND_BLOCK
  if dind = 0 then return true
  if !(← slabAlloc) then return false
  let some buf ← readBlock dind | return false
  freeIndirect fs buf fs.ptrs_per_block 0
  let _ ← freeBlock fs dind
  setIBlock r EXT2_DIND_BLOCK 0
  return true

def freeAllBlocks (r : Nat) : M Bool := do
  freeDirect fs r 12 0
  if !(← freeSingle fs r) then return false
  freeDouble fs r

/-! ## Inode objects and their records on disk -/

def blocksOf (i_size : Nat) : Nat := u32 (i_size + fs.block_size - 1) / fs.block_size

/-- The loop of `ext2_refresh_i_blocks` over `n` more blocks, from `l` on. -/
def countBlocks (r : Nat) : (n l used : Nat) → M Nat
  | 0, _, used => return used
  | n + 1, l, used => do
    let some phys ← getBlock fs r l false | return used
    countBlocks r n (l + 1) (if phys ≠ 0 then used + 1 else used)

def refreshIBlocks (r : Nat) : M Unit := do
  let used ← countBlocks fs r (blocksOf fs (← inodeAt r).priv.i_size) 0 0
  update r fun i => { i with priv := { i.priv with i_blocks := u32 (used * (fs.block_size / 512)) } }

/-- Store `f 0 .. f (n - 1)` as the array `i_block` of an inode record. -/
def putIBlock (f : Nat → Nat) : Nat → Bytes → Bytes
  | 0, b => b
  | n + 1, b => (putIBlock f n b).put 4 (40 + 4 * n) (f n)

def privToDisk (priv : Priv) : Bytes :=
  putIBlock priv.i_block EXT2_N_BLOCKS <|
    Bytes.zero
      |>.put 2 0 priv.i_mode
      |>.put 2 2 priv.i_uid
      |>.put 4 4 priv.i_size
      |>.put 4 8 priv.i_atime
      |>.put 4 12 priv.i_ctime
      |>.put 4 16 priv.i_mtime
      |>.put 2 24 priv.i_gid
      |>.put 2 26 priv.i_links_count
      |>.put 4 28 priv.i_blocks

def diskToPriv (di : Bytes) (ino : Nat) : Priv where
  ino := ino
  i_uid := Di.i_uid di
  i_gid := Di.i_gid di
  i_size := Di.i_size di
  i_mode := Di.i_mode di
  i_links_count := Di.i_links_count di
  i_blocks := Di.i_blocks di
  i_atime := Di.i_atime di
  i_ctime := Di.i_ctime di
  i_mtime := Di.i_mtime di
  i_block := fun k => if k < EXT2_N_BLOCKS then Di.i_block di k else 0

def privSave (r : Nat) : M Bool := do
  let priv := (← inodeAt r).priv
  inodeWrite fs priv.ino (privToDisk priv)

/-- The inode object `ext2_inode_create` fills in. -/
def inodeOf (ino : Nat) (di : Bytes) : Inode where
  ino := ino
  mode := Di.i_mode di
  uid := Di.i_uid di
  gid := Di.i_gid di
  size := Di.i_size di
  priv := diskToPriv di ino

def inodeCreate (ino : Nat) (di : Bytes) : M (Option Nat) := do
  let inode ← slabAlloc
  let priv ← slabAlloc
  if !inode || !priv then return none
  return some (← newInode (inodeOf ino di))

end Ext2
