import Loeux.Fat32.Name
import Loeux.Fat32.Volume
/-!
# Directories (`fs/fat32.c`)

Entries of 32 bytes in the clusters of a directory's chain, and the functions that
look for one, list them, add one and remove one. A walk visits every slot and stops
at none of them by itself: a first byte of 0x00 or 0xE5 only marks a free slot.
-/

namespace Fat32

open Lib

def DIRENT_SIZE : Nat := 32

def ATTR_VOLUME_ID : UInt8 := 0x08

def ATTR_DIRECTORY : UInt8 := 0x10

def ATTR_ARCHIVE : UInt8 := 0x20

def ATTR_LONG_NAME : UInt8 := 0x0F

/-- `struct fat32_fat_time`. -/
structure Stamp where
  date : Nat
  time : Nat

/-! ## Entries: the fields of `struct fat32_dirent32` -/

namespace De

def dir_name (e : Bytes) : Name := (List.range 11).map e

def dir_attr (e : Bytes) : UInt8 := e 11

def dir_nt_reserved (e : Bytes) : UInt8 := e 12

/-- `dir_first_cluster_high` and `dir_first_cluster_low` together. -/
def first (e : Bytes) : Nat := e.get 2 20 <<< 16 ||| e.get 2 26

def dir_file_size (e : Bytes) : Nat := e.get 4 28

def setFirst (c : Nat) (e : Bytes) : Bytes := (e.put 2 20 (c >>> 16)).put 2 26 (c &&& 0xFFFF)

def new (dos : Name) (attr ntres : UInt8) (cluster : Nat) (now : Stamp) : Bytes :=
  let e : Bytes := fun i => if i < 11 then dos.getD i 0 else if i = 11 then attr else if i = 12 then ntres else 0
  let e := (((e.put 2 14 now.time).put 2 16 now.date).put 2 18 now.date).put 2 22 now.time
  setFirst cluster (e.put 2 24 now.date)

end De

/-- `fat32_dirent_basic`. -/
def isBasic (e : Bytes) : Bool :=
  !(e 0 = 0x00 || e 0 = 0xE5) && De.dir_attr e ≠ ATTR_LONG_NAME &&
    !(De.dir_attr e &&& ATTR_VOLUME_ID ≠ 0 && De.dir_attr e &&& ATTR_DIRECTORY = 0)

/-- `fat32_dirent_dot`. -/
def isDot (e : Bytes) : Bool := e 0 = DOT

def isListed (e : Bytes) : Bool := isBasic e && !isDot e

/-- What an inode is: `is_root`, and the type in `mode`. -/
inductive Kind
  | root
  | dir
  | reg
deriving DecidableEq

/-- The inode with its private data. -/
structure Inode where
  first_cluster : Nat
  kind : Kind
  size : Nat := 0
  attr : UInt8 := 0
  dir_cluster : Nat := 0
  dirent_off : Nat := 0
deriving DecidableEq

def Inode.is_root (inode : Inode) : Bool := inode.kind = .root

/-- `(mode & S_IFMT) == S_IFDIR`. -/
def Inode.dir (inode : Inode) : Bool := inode.kind ≠ .reg

abbrev Slot := Nat × Nat

def Volume.dirent (v : Volume) (s : Slot) : Bytes := (v.data s.1).slice DIRENT_SIZE s.2

/-- `fat32_dirent_store`. -/
def Volume.storeDirent (v : Volume) (s : Slot) (e : Bytes) : Volume :=
  { v with data := Function.update v.data s.1 ((v.data s.1).copy DIRENT_SIZE s.2 e) }

def inodeCreate (fs : Fs) (v : Volume) (e : Bytes) (s : Slot) : Inode where
  first_cluster := De.first e
  size := if De.dir_attr e &&& ATTR_DIRECTORY ≠ 0 then chainLen fs v (De.first e) * fs.clusterBytes else De.dir_file_size e
  attr := De.dir_attr e
  dir_cluster := s.1
  dirent_off := s.2
  kind := if De.dir_attr e &&& ATTR_DIRECTORY ≠ 0 then .dir else .reg

/-! ## Walking -/

def dirStart (fs : Fs) (dir : Inode) : Nat := if dir.is_root then fs.root_cluster else dir.first_cluster

/-- The clusters that `fat32_dir_walk` visits; the first argument is its guard. -/
def walkClusters (fs : Fs) (v : Volume) : Nat → Nat → List Nat
  | 0, _ => []
  | guard + 1, c => if fs.isValidCluster c then c :: walkClusters fs v guard (v.fat c) else []

def Fs.offsets (fs : Fs) : List Nat :=
  (List.range fs.sectors_per_cluster).flatMap fun s =>
    (List.range (fs.bytes_per_sector / DIRENT_SIZE)).map fun i => s * fs.bytes_per_sector + i * DIRENT_SIZE

def Fs.slotsOf (fs : Fs) (clusters : List Nat) : List Slot := clusters.flatMap fun c => fs.offsets.map fun off => (c, off)

def slots (fs : Fs) (v : Volume) (dir : Inode) : List Slot := fs.slotsOf (walkClusters fs v fs.cluster_count (dirStart fs dir))

def dirFind (fs : Fs) (v : Volume) (dir : Inode) (dos : Name) : Option Slot :=
  (slots fs v dir).find? fun s => isListed (v.dirent s) && De.dir_name (v.dirent s) = dos

/-- `fat32_dir_walk` with `fat32_cb_free_slot`. -/
def freeSlot (fs : Fs) (v : Volume) (dir : Inode) : Option Slot :=
  (slots fs v dir).find? fun s => v.dirent s 0 = 0x00 || v.dirent s 0 = 0xE5

/-- `struct vfs_dirent`. -/
structure VfsDirent where
  name : Name
  ino : Nat
  dir : Bool
deriving DecidableEq

def vfsDirent (v : Volume) (s : Slot) : VfsDirent where
  name := dosToName (De.dir_name (v.dirent s)) (De.dir_nt_reserved (v.dirent s))
  ino := s.1 * 512 + s.2
  dir := De.dir_attr (v.dirent s) &&& ATTR_DIRECTORY ≠ 0

/-- `fat32_dir_walk` with `fat32_cb_readdir`: the entry, and the cookie afterwards. -/
def readdirLoop (v : Volume) : List Slot → (pos offset : Nat) → Option VfsDirent × Nat
  | [], _, offset => (none, offset)
  | s :: slots, pos, offset =>
    if pos < offset then readdirLoop v slots (pos + DIRENT_SIZE) offset
    else if isListed (v.dirent s) then (some (vfsDirent v s), pos + DIRENT_SIZE)
    else readdirLoop v slots (pos + DIRENT_SIZE) (pos + DIRENT_SIZE)

def readdir (fs : Fs) (v : Volume) (dir : Inode) (offset : Nat) : Option VfsDirent × Nat :=
  if dir.dir then readdirLoop v (slots fs v dir) 0 (offset / DIRENT_SIZE * DIRENT_SIZE) else (none, offset)

/-- Calls of `fat32_readdir`, each with the cookie of the one before, until one fails. -/
def readdirAll (fs : Fs) (v : Volume) (dir : Inode) : Nat → Nat → List VfsDirent
  | 0, _ => []
  | calls + 1, offset =>
    match readdir fs v dir offset with
    | (some d, offset) => d :: readdirAll fs v dir calls offset
    | (none, _) => []

def listing (fs : Fs) (v : Volume) (dir : Inode) : List VfsDirent := readdirAll fs v dir ((slots fs v dir).length + 1) 0

/-! ## Changing a directory -/

def dirExtend (fs : Fs) (v : Volume) (dir : Inode) : Option (Volume × Nat) :=
  let tail := (tailLoop fs v fs.cluster_count (dirStart fs dir)).1
  if fs.isValidCluster tail then
    match allocCluster fs v with
    | none => none
    | some (v, c) => (fatSet fs v tail c).map fun v => (v, c)
  else none

def findSlot (fs : Fs) (v : Volume) (dir : Inode) : Option (Volume × Slot) :=
  match freeSlot fs v dir with
  | some s => some (v, s)
  | none => (dirExtend fs v dir).map fun r => (r.1, (r.2, 0))

def lookup (fs : Fs) (v : Volume) (dir : Inode) (name : Name) : Option Inode :=
  if dir.dir then
    match nameToDos name with
    | none => none
    | some dos => (dirFind fs v dir dos).map fun s => inodeCreate fs v (v.dirent s) s
  else none

/-- `fat32_dir_add` behind the check that the name is new: the cluster of a directory, the
slot, the entry. -/
def addEntry (fs : Fs) (v : Volume) (dir : Inode) (name dos : Name) (is_dir : Bool) (now : Stamp) : Volume × Option Inode :=
  match if is_dir then allocCluster fs v else some (v, 0) with
  | none => (v, none)
  | some (v, cluster) =>
    match findSlot fs v dir with
    | none => (if is_dir then freeChain fs cluster v else v, none)
    | some (v, s) =>
      let e := De.new dos (if is_dir then ATTR_DIRECTORY else ATTR_ARCHIVE) (ntReserved name) cluster now
      let v := v.storeDirent s e
      (v, some (inodeCreate fs v e s))

def dirAdd (fs : Fs) (v : Volume) (dir : Inode) (name : Name) (is_dir : Bool) (now : Stamp) : Volume × Option Inode :=
  if dir.dir then
    match nameToDos name with
    | none => (v, none)
    | some dos => if (dirFind fs v dir dos).isSome then (v, none) else addEntry fs v dir name dos is_dir now
  else (v, none)

def create (fs : Fs) (v : Volume) (dir : Inode) (name : Name) (now : Stamp) : Volume × Option Inode := dirAdd fs v dir name false now

end Fat32
