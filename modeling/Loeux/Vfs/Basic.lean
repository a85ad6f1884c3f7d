import Loeux.Lib.Act
import Loeux.Lib.Bytes
import Loeux.Vfs.Path
import Mathlib.Logic.Function.Basic
/-!
# The VFS: objects, the inode cache and descriptors

The kernel's part of `struct inode` (its reference count and cache key), open
files, the tasks' descriptor tables and working directories. What a mounted file
system does is a parameter, `FileSystem`: the operations it puts into
`inode_operations` and `file_operations`, over a state of its own.
-/
open Lib Function

namespace Vfs

/-! ## Constants -/

def S_IFMT : Nat := 0o170000
def S_IFREG : Nat := 0o100000
def S_IFDIR : Nat := 0o040000

def MAY_READ : Nat := 0x01
def MAY_WRITE : Nat := 0x02
def MAY_EXEC : Nat := 0x04

def O_RDONLY : Nat := 0x0000
def O_WRONLY : Nat := 0x0001
def O_RDWR : Nat := 0x0002
def O_ACCMODE : Nat := 0x0003
def O_CREAT : Nat := 0x0004
def O_EXCL : Nat := 0x0008
def O_TRUNC : Nat := 0x0010
def O_APPEND : Nat := 0x0020
def O_DIRECTORY : Nat := 0x0040

def NOFILE : Nat := 64
def NTASKS : Nat := 128

def ifmt (mode : Nat) : Nat := mode &&& S_IFMT

/-- A flag is set. -/
def has (flags flag : Nat) : Bool := flags &&& flag ≠ 0

/-! ## The file systems below -/

structure Attr where
  mode : Nat
  uid : Nat
  gid : Nat
  size : Nat

/-- What an open file is for: an inode, or a character device. -/
inductive Target where
  | inode (i : Nat)
  | device (d : Nat)
  deriving DecidableEq

/-- `file->inode`. -/
def Target.inode? : Target → Option Nat
  | inode i => some i
  | device _ => none

/-- The calls of `inode_operations`, `file_operations` and the devices'
operations, and the fields of an inode the VFS sets. -/
inductive Call where
  | lookup (dir : Nat) (name : Name)
  | create (dir : Nat) (name : Name) (mode : Nat)
  | mkdir (dir : Nat) (name : Name) (mode : Nat)
  | unlink (dir : Nat) (name : Name)
  | rmdir (dir : Nat) (name : Name)
  | truncate (i size : Nat)
  | setattr (i mode uid gid : Nat)
  | destroy (i : Nat)
  | devOpen (d flags : Nat)
  | read (x : Target) (pos count : Nat)
  | write (x : Target) (pos : Nat) (buf : Bytes) (count : Nat)
  | seek (x : Target) (pos : Nat) (offset : Int) (whence : Nat)
  | close (x : Target)

@[reducible] def Ans : Call → Type
  | .lookup _ _ => Option Nat
  | .create _ _ _ => Option Nat
  | .mkdir _ _ _ => Option Nat
  | .unlink _ _ => Bool
  | .rmdir _ _ => Bool
  | .truncate _ _ => Bool
  | .setattr _ _ _ _ => Unit
  | .destroy _ => Unit
  | .devOpen _ _ => Bool
  | .read _ _ _ => Option (List UInt8)
  | .write _ _ _ _ => Option Nat
  | .seek _ _ _ _ => Option Nat
  | .close _ => Unit

/-- The inode object a call returns a reference to. -/
def made : (c : Call) → Ans c → Option Nat
  | .lookup _ _, r => r
  | .create _ _ _, r => r
  | .mkdir _ _ _, r => r
  | _, _ => none

/-- What is mounted. The objects it returns are new ones. -/
structure FileSystem (σ : Type) where
  attr : σ → Nat → Attr
  /-- `vfs_find_chardev`. -/
  device : Name → Option Nat
  call : (c : Call) → σ → Ans c × σ
  /-- No object exists from here on. -/
  next : σ → Nat
  next_le : ∀ c s, next s ≤ next (call c s).2
  fresh : ∀ c s i, made c (call c s).1 = some i → next s ≤ i ∧ i < next (call c s).2

/-! ## State -/

/-- `struct inode_cache_key`; no parent is `VFS_ROOT_PARENT_SPECIAL`. -/
structure Key where
  parent : Option Nat
  name : Name
  deriving DecidableEq

/-- The rest of `struct inode`. An object without references is freed. -/
structure Inode where
  refcount : Nat
  cache_key : Key

/-- `struct file`. -/
structure File where
  target : Target
  pos : Nat
  flags : Nat
  refcount : Nat
  deriving DecidableEq

/-- `struct credentials`. -/
structure Cred where
  uid : Nat
  gid : Nat
  groups : List Nat

inductive TaskState where
  | initlized
  | running
  | zombie
  deriving DecidableEq

/-- What the VFS uses of `struct task_struct`. -/
structure Task where
  state : TaskState
  pid : Nat
  cred : Cred
  cwd : Option Nat
  cwd_path : Name
  ofile : Nat → Option Nat

/-- The kernel's file layer. `cache` are the inodes in the hash table, `slab` what the allocators will answer,
`current` the running task; the ghosts `gets` and `closes` count how often references to a file were taken and
its close action ran. -/
structure St (σ : Type) where
  fs : σ
  inodes : Nat → Inode
  cache : List Nat
  files : Nat → Option File
  nfiles : Nat
  tasks : Nat → Task
  current : Nat
  pid_counter : Nat
  mount : Option Mount
  slab : Nat → Bool
  gets : Nat → Nat
  closes : Nat → Nat

abbrev M (σ α : Type) := Act (St σ) α

namespace St

variable {σ : Type}

def setRef (s : St σ) (i n : Nat) : St σ :=
  { s with inodes := Function.update s.inodes i { s.inodes i with refcount := n } }

def setFs (s : St σ) (fs : σ) : St σ := { s with fs := fs }

def setSlab (s : St σ) (f : Nat → Bool) : St σ := { s with slab := f }

def setKey (s : St σ) (i : Nat) (k : Key) : St σ :=
  { s with inodes := Function.update s.inodes i { s.inodes i with cache_key := k } }

def setFile (s : St σ) (f : Nat) (file : Option File) : St σ :=
  { s with files := Function.update s.files f file }

def countGet (s : St σ) (f : Nat) : St σ := { s with gets := Function.update s.gets f (s.gets f + 1) }

def countClose (s : St σ) (f : Nat) : St σ := { s with closes := Function.update s.closes f (s.closes f + 1) }

def setTask (s : St σ) (t : Nat) (task : Task) : St σ :=
  { s with tasks := Function.update s.tasks t task }

def task (s : St σ) : Task := s.tasks s.current

def key (s : St σ) (i : Nat) : Key := (s.inodes i).cache_key

end St

section Ops

variable {σ : Type} (F : FileSystem σ)

/-- `slab_alloc`, and the page allocator. -/
def slabAlloc : M σ Bool := fun s => (s.slab 0, s.setSlab fun n => s.slab (n + 1))

/-- A call into the file system; an inode it returns has one reference. -/
def call (c : Call) : M σ (Ans c) := fun s =>
  let (r, fs) := F.call c s.fs
  (r, match made c r with
    | some i => (s.setFs fs).setRef i 1
    | none => s.setFs fs)

def attrOf (i : Nat) : M σ Attr := do
  return F.attr (← get).fs i

/-! ## References to inodes -/

def inodeGet (i : Nat) : M σ Unit := modify fun s => s.setRef i ((s.inodes i).refcount + 1)

def inodePut (i : Nat) : M σ Unit := do
  let n := ((← get).inodes i).refcount
  if n = 0 then return
  modify fun s => s.setRef i (n - 1)
  if n - 1 = 0 then
    let _ ← call F (.destroy i)

/-! ## The inode cache -/

def inodeCacheFind (parent : Nat) (name : Name) : M σ (Option Nat) := do
  if name = [] then return none
  if !(← slabAlloc) then return none
  if VFS_MAX_PATH_LEN ≤ name.length then return none
  let s ← get
  let some i := s.cache.find? fun i => s.key i = ⟨some parent, name⟩ | return none
  inodeGet i
  return some i

/-- `inode_cache_insert`. The hash table refuses a key it has and needs a node. -/
def inodeCacheInsert (i : Nat) : M σ Bool := do
  if ((← get).key i).name = [] then return false
  inodeGet i
  let s ← get
  if s.cache.any fun j => s.key j = s.key i then
    inodePut F i
    return false
  if !(← slabAlloc) then
    inodePut F i
    return false
  modify fun s => { s with cache := i :: s.cache }
  return true

def inodeCacheRemove (i : Nat) : M σ Unit := do
  let s ← get
  if s.cache.any fun j => s.key j = s.key i then
    modify fun s => { s with cache := s.cache.eraseP fun j => s.key j = s.key i }
    inodePut F i
    match (s.key i).parent with
    | none => return
    | some parent => inodePut F parent

/-! ## Permissions -/

def inGroup (cred : Cred) (gid : Nat) : Bool := cred.gid = gid || cred.groups.contains gid

def permission (a : Attr) (cred : Cred) (mask : Nat) : Bool :=
  if cred.uid = 0 then true
  else
    let perm :=
      if cred.uid = a.uid then a.mode >>> 6 &&& 0o7
      else if inGroup cred a.gid then a.mode >>> 3 &&& 0o7
      else a.mode &&& 0o7
    !(has mask MAY_READ && !has perm 0o4) && !(has mask MAY_WRITE && !has perm 0o2) &&
      !(has mask MAY_EXEC && !has perm 0o1)

/-- `vfs_permission` for the running task. -/
def mayI (i mask : Nat) : M σ Bool := do
  return permission (← attrOf F i) (← get).task.cred mask

/-! ## Open files and descriptors -/

def fileGet (f : Nat) : M σ Unit :=
  modify fun s =>
    (s.setFile f ((s.files f).map fun file => { file with refcount := file.refcount + 1 })).countGet f

def filePut (f : Nat) : M σ Unit := do
  let some file := (← get).files f | return
  let n := file.refcount - 1
  modify fun s => s.setFile f (some { file with refcount := n })
  if n = 0 then
    let _ ← call F (.close file.target)
    modify fun s => s.countClose f
    match file.target.inode? with
    | some i => inodePut F i
    | none => pure ⟨⟩
    modify fun s => s.setFile f none

/-- A new `struct file`, without references. -/
def newFile (file : File) : M σ Nat := do
  let f := (← get).nfiles
  modify fun s => { s.setFile f (some file) with nfiles := f + 1 }
  return f

/-- `slab_free` of a file. -/
def freeFile (f : Nat) : M σ Unit := modify fun s => s.setFile f none

def setFd (fd : Nat) (f : Option Nat) : M σ Unit :=
  modify fun s => s.setTask s.current { s.task with ofile := Function.update s.task.ofile fd f }

def fdAlloc (f : Nat) : M σ (Option Nat) := do
  let task := (← get).task
  let some fd := (List.range NOFILE).find? fun fd => task.ofile fd = none | return none
  setFd fd (some f)
  fileGet f
  return some fd

def fdGet (fd : Nat) : M σ (Option Nat) := do
  if NOFILE ≤ fd then return none
  let some f := (← get).task.ofile fd | return none
  fileGet f
  return some f

def dup (oldfd : Nat) : M σ (Option Nat) := do
  let some f ← fdGet oldfd | return none
  let newfd ← fdAlloc f
  filePut F f
  return newfd

def fdClose (fd : Nat) : M σ Bool := do
  if NOFILE ≤ fd then return false
  let some f := (← get).task.ofile fd | return false
  setFd fd none
  filePut F f
  return true

end Ops

end Vfs
