import Loeux.Ext2.Dir
/-!
# The operations the VFS calls

`inode_operations` and `file_operations` of ext2. A name is the bytes of the
C string without its terminator. `none` and `false` are the error result.
-/
open Lib

namespace Ext2

variable (fs : Fs)

def ifmt (mode : Nat) : Nat := mode &&& S_IFMT

def setTimes (t : Nat) (i : Inode) : Inode :=
  { i with priv := { i.priv with i_mtime := t, i_ctime := t } }

/-! ## Names -/

def lookup (dir : Nat) (name : List UInt8) : M (Option Nat) := do
  if ifmt (← inodeAt dir).mode ≠ S_IFDIR then return none
  if name = [46] ∨ name = [46, 46] then return none
  if VFS_NAME_MAX < name.length then return none
  let some ino ← dirFind fs dir name | return none
  let some di ← inodeRead fs ino | return none
  inodeCreate ino di

def fileRecord (mode now : Nat) : Bytes :=
  Bytes.zero |>.put 2 0 (S_IFREG ||| (mode &&& 0o777))
    |>.put 4 8 now |>.put 4 12 now |>.put 4 16 now |>.put 2 26 1

def dirRecord (mode now : Nat) : Bytes :=
  Bytes.zero |>.put 2 0 (S_IFDIR ||| (mode &&& 0o777)) |>.put 4 4 fs.block_size
    |>.put 4 8 now |>.put 4 12 now |>.put 4 16 now |>.put 2 26 2

def create (dir : Nat) (name : List UInt8) (mode : Nat) : M (Option Nat) := do
  let mode := if ifmt mode = 0 then mode ||| S_IFREG else mode
  if ifmt mode ≠ S_IFREG then return none
  if name.length = 0 ∨ VFS_NAME_MAX < name.length then return none
  if (← dirFind fs dir name).isSome then return none
  let some new_ino ← allocInode fs | return none
  let now ← now
  let di := fileRecord mode now
  if !(← inodeWrite fs new_ino di) then
    let _ ← freeInode fs new_ino
    return none
  if !(← dirAdd fs dir name new_ino EXT2_FT_REG_FILE) then
    let _ ← freeInode fs new_ino
    return none
  -- errors of the next two calls are ignored
  mark .calm
  update dir (setTimes now)
  refreshIBlocks fs dir
  let _ ← privSave fs dir
  mark .hold
  let some ni ← inodeCreate new_ino di
    | do
      let _ ← freeInode fs new_ino
      return none
  mark .calm
  let _ ← cacheFlush
  return some ni

def mkdir (dir : Nat) (name : List UInt8) (mode : Nat) : M (Option Nat) := do
  if ifmt mode ≠ S_IFDIR then return none
  if name.length = 0 ∨ VFS_NAME_MAX < name.length then return none
  if (← dirFind fs dir name).isSome then return none
  let some new_ino ← allocInode fs | return none
  let now ← now
  let di := dirRecord fs mode now
  if !(← inodeWrite fs new_ino di) then
    let _ ← freeInode fs new_ino
    return none
  if !(← dirAdd fs dir name new_ino EXT2_FT_DIR) then
    let _ ← freeInode fs new_ino
    return none
  mark .hold
  let some ni ← inodeCreate new_ino di
    | do
      let _ ← freeInode fs new_ino
      return none
  mark .unhold
  if !(← dirInitDot fs ni (← inodeAt dir).priv.ino) then
    mark .hold
    let _ ← dirRemove fs dir name
    let _ ← freeInode fs new_ino
    return none
  refreshIBlocks fs ni
  mark .hold
  if !(← privSave fs ni) then
    let _ ← dirRemove fs dir name
    let _ ← freeInode fs new_ino
    return none
  mark .calm
  update dir fun i =>
    setTimes now { i with priv := { i.priv with i_links_count := u32 (i.priv.i_links_count + 1) } }
  refreshIBlocks fs dir
  let _ ← privSave fs dir
  let _ ← cacheFlush
  return some ni

/-- `ext2_unlink`. The stack variable `target_priv` is an object of its own. -/
def unlink (dir : Nat) (name : List UInt8) : M Bool := do
  if name.length = 0 ∨ VFS_NAME_MAX < name.length then return false
  let some ino ← dirFind fs dir name | return false
  let some di ← inodeRead fs ino | return false
  if ifmt (Di.i_mode di) = S_IFDIR then return false
  if !(← dirRemove fs dir name) then return false
  let target ← newInode (inodeOf ino di)
  let _ ← freeAllBlocks fs target
  let links := if 0 < Di.i_links_count di then Di.i_links_count di - 1 else Di.i_links_count di
  let di := (di.put 2 26 links).put 4 20 (← now)
  if !(← inodeWrite fs ino di) then return false
  if links = 0 then
    let _ ← freeInode fs ino
  update dir (setTimes (← now))
  let _ ← privSave fs dir
  let _ ← cacheFlush
  return true

def rmdir (dir : Nat) (name : List UInt8) : M Bool := do
  if name.length = 0 ∨ VFS_NAME_MAX < name.length then return false
  let some ino ← dirFind fs dir name | return false
  let some di ← inodeRead fs ino | return false
  if ifmt (Di.i_mode di) ≠ S_IFDIR then return false
  let target ← newInode (inodeOf ino di)
  if 2 < Di.i_links_count di then return false
  if (← dirEmpty fs target) ≠ some true then return false
  if !(← dirRemove fs dir name) then return false
  let _ ← freeAllBlocks fs target
  let di := (di.put 4 20 (← now)).put 2 26 0
  if !(← inodeWrite fs ino di) then return false
  let _ ← freeInode fs ino
  update dir fun i => { i with priv := { i.priv with i_links_count := i.priv.i_links_count - 1 } }
  update dir (setTimes (← now))
  let _ ← privSave fs dir
  let _ ← cacheFlush
  return true

/-! ## Contents -/

def truncateFrom (r : Nat) : (n lblk : Nat) → M Bool
  | 0, _ => return true
  | n + 1, lblk => do
    let some phys ← getBlock fs r lblk false | return false
    if phys ≠ 0 then
      let _ ← freeBlock fs phys
      -- only direct pointers are cleared here
      if lblk < 12 then setIBlock r lblk 0
    truncateFrom r n (lblk + 1)

def newBlocks (size : Nat) : Nat := u32 (u64 (size + fs.block_size - 1) / fs.block_size)

def truncate (r size : Nat) : M Bool := do
  if ifmt (← inodeAt r).mode ≠ S_IFREG then return false
  let old_blocks := blocksOf fs (← inodeAt r).priv.i_size
  let new_blocks := newBlocks fs size
  if new_blocks < old_blocks then
    if !(← truncateFrom fs r (old_blocks - new_blocks) new_blocks) then return false
    if new_blocks = 0 then
      let _ ← freeAllBlocks fs r
  let mtime ← now
  let ctime ← now
  update r fun i =>
    { i with size := size, priv := { i.priv with i_size := u32 size, i_mtime := mtime, i_ctime := ctime } }
  refreshIBlocks fs r
  if !(← privSave fs r) then return false
  let _ ← cacheFlush
  return true

/-- The loop of `ext2_read_data`; each round transfers at least one byte. -/
def readFrom (r : Nat) : (fuel pos remaining : Nat) → (out : List UInt8) → M (Option (List UInt8))
  | 0, _, _, out => return some out
  | fuel + 1, pos, remaining, out => do
    if remaining = 0 then return some out
    let boff := pos % fs.block_size
    let n := if remaining < fs.block_size - boff then remaining else fs.block_size - boff
    let some phys ← getBlock fs r (u32 (pos / fs.block_size)) false | return none
    if phys = 0 then
      readFrom r fuel (pos + n) (remaining - n) (out ++ List.replicate n 0)
    else
      let some scratch ← readBlock phys | return none
      readFrom r fuel (pos + n) (remaining - n)
        (out ++ (List.range n).map fun i => scratch (boff + i))

def readData (r pos count : Nat) : M (Option (List UInt8)) := do
  let size := (← inodeAt r).size
  if size ≤ pos then return some []
  let count := if size - pos < count then size - pos else count
  if !(← slabAlloc) then return none
  readFrom fs r count pos count []

def writeFrom (r pos : Nat) (buf : Bytes) (stop : Nat) : (fuel f : Nat) → M Bool
  | 0, _ => return true
  | fuel + 1, f => do
    if stop ≤ f then return true
    let boff := f % fs.block_size
    let n := if stop - f < fs.block_size - boff then stop - f else fs.block_size - boff
    let ub : Bytes := fun i => buf (f - pos + i)
    let some phys ← getBlock fs r (u32 (f / fs.block_size)) true | return false
    if phys = 0 then return false
    if boff = 0 ∧ n = fs.block_size then
      if !(← writeBlock phys ub) then return false
    else
      let some scratch ← readBlock phys | return false
      if !(← writeBlock phys (scratch.copy n boff ub)) then return false
    writeFrom r pos buf stop fuel (f + n)

def Inode.setSizes (i : Inode) (size : Nat) : Inode :=
  { i with size := size, priv := { i.priv with i_size := u32 size } }

def writeData (r pos : Nat) (buf : Bytes) (count : Nat) : M (Option Nat) := do
  let stop := u64 (pos + count)
  if !(← slabAlloc) then return none
  if !(← writeFrom fs r pos buf stop (stop - pos) pos) then return none
  let grows := decide ((← inodeAt r).size < stop)
  if grows then
    update r fun i => i.setSizes stop
  update r (setTimes (← now))
  if pos < stop ∨ grows then
    refreshIBlocks fs r
    if !(← privSave fs r) then return none
  return some count

def read (f count : Nat) : M (Option (List UInt8)) := do
  let file ← fileAt f
  if ifmt (← inodeAt file.inode).mode ≠ S_IFREG then return none
  if count = 0 then return some []
  readData fs file.inode file.pos (if 0xFFFFFFFF < count then 0xFFFFFFFF else count)

def write (f : Nat) (buf : Bytes) (count : Nat) : M (Option Nat) := do
  let file ← fileAt f
  if ifmt (← inodeAt file.inode).mode ≠ S_IFREG then return none
  if count = 0 then return some 0
  let some out_len ←
    writeData fs file.inode file.pos buf (if 0xFFFFFFFF < count then 0xFFFFFFFF else count)
    | return none
  let _ ← cacheFlush
  return some out_len

/-- `ext2_seek`; it may go beyond the end. -/
def seek (f : Nat) (offset : Int) (whence : Nat) : M (Option Nat) := do
  let file ← fileAt f
  let size := (← inodeAt file.inode).size
  let npos : Option Int :=
    match whence with
    | 0 => some offset
    | 1 => some (file.pos + offset)
    | 2 => some (size + offset)
    | _ => none
  let some npos := npos | return none
  if npos < 0 then return none
  return some npos.toNat

end Ext2
