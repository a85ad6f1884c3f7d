import Loeux.Lib.Prog
import Loeux.Lib.Bytes
/-!
# The ext2 driver: data and operations

Structures on disk are packed, so they are kept as their bytes and read field
by field; structures in memory are records. A driver function is a program over
the operations in `Op`: block transfers through the cache, `slab_alloc`, and
accesses to the objects that live in memory. `serve` is a machine on which
nothing fails, `world` one on which every fallible operation may.
-/
open Lib

namespace Ext2

/-! ## Machine integers -/

def u16 (n : Nat) : Nat := n % 2 ^ 16
def u32 (n : Nat) : Nat := n % 2 ^ 32
def u64 (n : Nat) : Nat := n % 2 ^ 64

def divu (a b : Nat) : Nat := if b = 0 then 2 ^ 32 - 1 else a / b

theorem divu_of_pos {b : Nat} (hb : 0 < b) (a : Nat) : divu a b = a / b := if_neg hb.ne'

/-! ## Constants -/

def S_IFMT : Nat := 0o170000
def S_IFREG : Nat := 0o100000
def S_IFDIR : Nat := 0o040000

def EXT2_FT_REG_FILE : Nat := 1
def EXT2_FT_DIR : Nat := 2

def EXT2_N_BLOCKS : Nat := 15
def EXT2_IND_BLOCK : Nat := 12
def EXT2_DIND_BLOCK : Nat := 13

def VFS_NAME_MAX : Nat := 255

/-! ## Structures -/

/-- What a mounted volume keeps of its superblock (`struct ext2_fs_priv`). The
two free counters change and live in `St`. -/
structure Fs where
  block_size : Nat
  inodes_per_group : Nat
  blocks_per_group : Nat
  inode_size : Nat
  num_groups : Nat
  inodes_count : Nat
  blocks_count : Nat
  first_data_block : Nat
  ptrs_per_block : Nat
  deriving DecidableEq

/-- `struct ext2_inode_priv`. -/
structure Priv where
  ino : Nat
  i_uid : Nat
  i_gid : Nat
  i_size : Nat
  i_mode : Nat
  i_links_count : Nat
  i_blocks : Nat
  i_atime : Nat
  i_ctime : Nat
  i_mtime : Nat
  i_block : Nat → Nat

/-- An inode object in memory (`struct inode`), with its private part. -/
structure Inode where
  ino : Nat
  mode : Nat
  uid : Nat
  gid : Nat
  size : Nat
  priv : Priv

/-- An open file (`struct file`): the inode object it holds and its position. -/
structure File where
  inode : Nat
  pos : Nat

-- The fields of `struct ext2_superblock` the driver reads.
namespace Sb

def s_inodes_count (sb : Bytes) : Nat := sb.get 4 0
def s_blocks_count (sb : Bytes) : Nat := sb.get 4 4
def s_free_blocks_count (sb : Bytes) : Nat := sb.get 4 12
def s_free_inodes_count (sb : Bytes) : Nat := sb.get 4 16
def s_first_data_block (sb : Bytes) : Nat := sb.get 4 20
def s_log_block_size (sb : Bytes) : Nat := sb.get 4 24
def s_blocks_per_group (sb : Bytes) : Nat := sb.get 4 32
def s_inodes_per_group (sb : Bytes) : Nat := sb.get 4 40
def s_magic (sb : Bytes) : Nat := sb.get 2 56
def s_rev_level (sb : Bytes) : Nat := sb.get 4 76
def s_inode_size (sb : Bytes) : Nat := sb.get 2 88

end Sb

-- The fields of `struct ext2_bg_desc`, 32 bytes.
namespace Bg

def bg_block_bitmap (bg : Bytes) : Nat := bg.get 4 0
def bg_inode_bitmap (bg : Bytes) : Nat := bg.get 4 4
def bg_inode_table (bg : Bytes) : Nat := bg.get 4 8
def bg_free_blocks_count (bg : Bytes) : Nat := bg.get 2 12
def bg_free_inodes_count (bg : Bytes) : Nat := bg.get 2 14
def bg_used_dirs_count (bg : Bytes) : Nat := bg.get 2 16

end Bg

-- The fields of `struct ext2_inode`, 128 bytes.
namespace Di

def i_mode (di : Bytes) : Nat := di.get 2 0
def i_uid (di : Bytes) : Nat := di.get 2 2
def i_size (di : Bytes) : Nat := di.get 4 4
def i_atime (di : Bytes) : Nat := di.get 4 8
def i_ctime (di : Bytes) : Nat := di.get 4 12
def i_mtime (di : Bytes) : Nat := di.get 4 16
def i_gid (di : Bytes) : Nat := di.get 2 24
def i_links_count (di : Bytes) : Nat := di.get 2 26
def i_blocks (di : Bytes) : Nat := di.get 4 28
def i_block (di : Bytes) (k : Nat) : Nat := di.get 4 (40 + 4 * k)

end Di

/-! ## Operations -/

/-- The sleeplocks of the VFS: the one for metadata and one in each open file. -/
inductive Lock where
  | vfs_meta_lock
  | slk (f : Nat)
  deriving DecidableEq

/-- Ghost marks, which a program cannot see. `enter` to `leave` is a call of the block allocator, `alloc` and `free`
are its results. From `hold` to `unhold` (or `calm`) the driver owns something that no error path gives back;
`full`: no free block was found. -/
inductive Mark where
  | enter
  | leave
  | alloc (blk : Nat)
  | free (blk : Nat)
  | hold
  | unhold
  | calm
  | full

inductive Op where
  | read (blk : Nat)
  | write (blk : Nat) (data : Bytes)
  | flush
  | slab
  | inode (r : Nat)
  | update (r : Nat) (f : Inode → Inode)
  | create (i : Inode)
  | file (f : Nat)
  | advance (f : Nat) (n : Nat)
  | free_blocks (f : Nat → Nat)
  | free_inodes (f : Nat → Nat)
  | now
  | acquire (l : Lock)
  | release (l : Lock)
  | mark (m : Mark)

/-- What each operation answers: a read its data, a write, a flush and an
allocation whether they succeeded. -/
@[reducible] def Ans : Op → Type
  | .read _ => Option Bytes
  | .write _ _ => Bool
  | .flush => Bool
  | .slab => Bool
  | .inode _ => Inode
  | .update _ _ => Unit
  | .create _ => Nat
  | .file _ => File
  | .advance _ _ => Unit
  | .free_blocks _ => Unit
  | .free_inodes _ => Unit
  | .now => Nat
  | .acquire _ => Unit
  | .release _ => Unit
  | .mark _ => Unit

abbrev M (α : Type) := Prog Ans α

def readBlock (blk : Nat) : M (Option Bytes) := Prog.perform (Op.read blk)
def writeBlock (blk : Nat) (data : Bytes) : M Bool := Prog.perform (Op.write blk data)
def cacheFlush : M Bool := Prog.perform Op.flush
/-- `slab_alloc`; every size the driver asks for is within the slab's limit. -/
def slabAlloc : M Bool := Prog.perform Op.slab
def inodeAt (r : Nat) : M Inode := Prog.perform (Op.inode r)
def update (r : Nat) (f : Inode → Inode) : M Unit := Prog.perform (Op.update r f)
def newInode (i : Inode) : M Nat := Prog.perform (Op.create i)
def fileAt (f : Nat) : M File := Prog.perform (Op.file f)
def advance (f n : Nat) : M Unit := Prog.perform (Op.advance f n)
def setFreeBlocks (f : Nat → Nat) : M Unit := Prog.perform (Op.free_blocks f)
def setFreeInodes (f : Nat → Nat) : M Unit := Prog.perform (Op.free_inodes f)
def now : M Nat := Prog.perform Op.now
def mark (m : Mark) : M Unit := Prog.perform (Op.mark m)

/-! ## The machine -/

/-- The state a driver function works on. `disk` is what `ext2_read_block`
returns for each block, `inodes` the inode objects by reference, `crit` the
ghost count of open `hold` marks. -/
structure St where
  disk : Nat → Bytes
  inodes : Nat → Inode
  next : Nat
  files : Nat → File
  free_blocks : Nat
  free_inodes : Nat
  ticks : Nat
  crit : Nat

namespace St

def write (s : St) (blk : Nat) (data : Bytes) : St := { s with disk := Function.update s.disk blk data }

def modify (s : St) (r : Nat) (f : Inode → Inode) : St :=
  { s with inodes := Function.update s.inodes r (f (s.inodes r)) }

def create (s : St) (i : Inode) : St :=
  { s with inodes := Function.update s.inodes s.next i, next := s.next + 1 }

def advance (s : St) (f n : Nat) : St :=
  { s with files := Function.update s.files f { s.files f with pos := (s.files f).pos + n } }

def mark (s : St) : Mark → St
  | .hold => { s with crit := s.crit + 1 }
  | .unhold => { s with crit := s.crit - 1 }
  | .calm => { s with crit := 0 }
  | _ => s

end St

/-- What `ext2_now` makes of the timer: seconds after an epoch. -/
def clock (ticks : Nat) : Nat := u32 (u32 (ticks / 100) + 1700000000)

/-- The machine on which every operation succeeds. -/
def serve : Prog.Handler Ans St
  | .read blk, s => (some (s.disk blk), s)
  | .write blk data, s => (true, s.write blk data)
  | .flush, s => (true, s)
  | .slab, s => (true, s)
  | .inode r, s => (s.inodes r, s)
  | .update r f, s => ((), s.modify r f)
  | .create i, s => (s.next, s.create i)
  | .file f, s => (s.files f, s)
  | .advance f n, s => ((), s.advance f n)
  | .free_blocks f, s => ((), { s with free_blocks := f s.free_blocks })
  | .free_inodes f, s => ((), { s with free_inodes := f s.free_inodes })
  | .now, s => (clock s.ticks, s)
  | .acquire _, s => ((), s)
  | .release _, s => ((), s)
  | .mark m, s => ((), s.mark m)

def refusal : (e : Op) → Option (Ans e)
  | .read _ => some none
  | .write _ _ => some false
  | .flush => some false
  | .slab => some false
  | _ => none

end Ext2
