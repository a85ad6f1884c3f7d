import Loeux.Vfs.Basic
/-!
# The operations of the VFS

Each function takes references and gives them back on every way out; on success
the caller owns the one it is returned.
-/
open Lib

namespace Vfs

section

variable {σ : Type} (F : FileSystem σ)

/-! ## Walking a path -/

def walk : List Name → (current : Nat) → M σ (Option Nat)
  | [], current => return some current
  | name :: rest, current => do
    if VFS_MAX_PATH_LEN ≤ name.length then
      inodePut F current
      return none
    if !(← mayI F current MAY_EXEC) then
      inodePut F current
      return none
    match ← inodeCacheFind current name with
    | some next =>
      inodePut F current
      walk rest next
    | none =>
      let some next ← call F (.lookup current name)
        | inodePut F current
          return none
      modify fun s => s.setKey next ⟨some current, name⟩
      -- the cache holds a reference to the parent
      inodeGet current
      if !(← inodeCacheInsert F next) then
        inodePut F current
        inodePut F next
        inodePut F current
        return none
      inodePut F current
      walk rest next

def lookupImpl (path : Name) : M σ (Option Nat) := do
  let s ← get
  let start : Option (Nat × Name) :=
    if path.head? = some slash then
      s.mount.map fun m =>
        let (mnt, root) := m.find path
        (root, path.drop mnt.length)
    else s.task.cwd.map fun cwd => (cwd, path)
  let some (current, relative) := start | return none
  let relative := if relative.head? = some slash then relative.tail else relative
  inodeGet current
  if relative = [] then return some current
  if !(← slabAlloc) then
    inodePut F current
    return none
  walk F (components relative) current

def lookup (path : Name) : M σ (Option Nat) := do
  if !(← slabAlloc) then return none
  let some path := normalize path (← get).task.cwd_path | return none
  lookupImpl F path

/-- `vfs_lookup_parent`: the parent directory and the last component. -/
def lookupParent (path : Name) : M σ (Option (Nat × Name)) := do
  if !(← slabAlloc) then return none
  let some path := normalize path (← get).task.cwd_path | return none
  let some (parent_path, name) := splitParent path | return none
  if !(← slabAlloc) then return none
  let some parent ← lookup F parent_path | return none
  return some (parent, name)

/-! ## Directories -/

/-- The head of `vfs_create`, `vfs_mkdir`, `vfs_unlink` and `vfs_rmdir`: the parent
directory, which the task may change, and the last component. -/
def enterParent (path : Name) : M σ (Option (Nat × Name)) := do
  if !(← slabAlloc) then return none
  let some (parent, name) ← lookupParent F path | return none
  if ifmt (← attrOf F parent).mode ≠ S_IFDIR then
    inodePut F parent
    return none
  if !(← mayI F parent (MAY_WRITE ||| MAY_EXEC)) then
    inodePut F parent
    return none
  return some (parent, name)

/-- What `vfs_create` and `vfs_mkdir` do with a new inode: the permission bits and
the owner are set, and it goes into the cache. -/
def adopt (parent : Nat) (name : Name) (mode new_inode : Nat) : M σ Bool := do
  let a ← attrOf F new_inode
  let cred := (← get).task.cred
  call F (.setattr new_inode (ifmt a.mode ||| mode) cred.uid cred.gid)
  modify fun s => s.setKey new_inode ⟨some parent, name⟩
  inodeGet parent
  if !(← inodeCacheInsert F new_inode) then
    inodePut F parent
    inodePut F new_inode
    inodePut F parent
    return false
  return true

def create (path : Name) (mode : Nat) : M σ (Option Nat) := do
  let some (parent, name) ← enterParent F path | return none
  let mode := mode &&& 0o777
  if let some exist ← inodeCacheFind parent name then
    inodePut F exist
    inodePut F parent
    return none
  let some new_inode ← call F (.create parent name (S_IFREG ||| mode))
    | inodePut F parent
      return none
  if !(← adopt F parent name mode new_inode) then return none
  -- a reference for the caller instead of the one the file system returned
  inodeGet new_inode
  inodePut F new_inode
  inodePut F parent
  return some new_inode

def mkdir (path : Name) (mode : Nat) : M σ Bool := do
  let some (parent, name) ← enterParent F path | return false
  let mode := mode &&& 0o777
  if let some exist ← inodeCacheFind parent name then
    inodePut F exist
    inodePut F parent
    return false
  let some new_inode ← call F (.mkdir parent name (S_IFDIR ||| mode))
    | inodePut F parent
      return false
  if !(← adopt F parent name mode new_inode) then return false
  inodePut F new_inode
  inodePut F parent
  return true

/-- `vfs_unlink` and `vfs_rmdir`: remove an entry whose inode is in the cache and
for which `ok` holds of the file type. -/
def remove (path : Name) (ok : Nat → Bool) (op : Nat → Name → M σ Bool) : M σ Bool := do
  let some (parent, name) ← enterParent F path | return false
  let some inode ← inodeCacheFind parent name
    | inodePut F parent
      return false
  if !ok (ifmt (← attrOf F inode).mode) then
    inodePut F inode
    inodePut F parent
    return false
  if !(← op parent name) then
    inodePut F inode
    inodePut F parent
    return false
  inodeCacheRemove F inode
  inodePut F inode
  inodePut F parent
  return true

def unlink (path : Name) : M σ Bool :=
  remove F path (· ≠ S_IFDIR) fun parent name => call F (.unlink parent name)

def rmdir (path : Name) : M σ Bool :=
  remove F path (· = S_IFDIR) fun parent name => call F (.rmdir parent name)

def truncate (i size : Nat) : M σ Bool := do
  if !(← mayI F i MAY_WRITE) then return false
  call F (.truncate i size)

/-! ## Files -/

/-- `"/dev/"`: the first five bytes of the string `vfs_open` compares with. -/
def devDir : Name := [47, 100, 101, 118, 47]

def install (file : File) : M σ (Option Nat) := do
  let f ← newFile file
  let some fd ← fdAlloc f
    | match file.target.inode? with
      | some i => inodePut F i
      | none => pure ⟨⟩
      freeFile f
      return none
  return some fd

/-- The permissions that an access mode asks for. -/
def accessMask (flags : Nat) : Option Nat :=
  match flags &&& O_ACCMODE with
  | 0 => some MAY_READ
  | 1 => some MAY_WRITE
  | 2 => some (MAY_READ ||| MAY_WRITE)
  | _ => none

def openInode (path : Name) (flags : Nat) : M σ (Option Nat) := do
  if has flags O_CREAT then
    match ← lookup F path with
    | none => create F path 0o666
    | some i =>
      if has flags O_EXCL then
        inodePut F i
        return none
      return some i
  else lookup F path

/-- The checks of `vfs_open` on the inode, and truncation. -/
def prepare (i flags : Nat) : M σ Bool := do
  if has flags O_DIRECTORY && ifmt (← attrOf F i).mode ≠ S_IFDIR then return false
  let some mask := accessMask flags | return false
  if !(← mayI F i mask) then return false
  if has flags O_TRUNC then
    if flags &&& O_ACCMODE = O_RDONLY then return false
    if !(← truncate F i 0) then return false
  return true

/-- `vfs_open`. -/
def openPath (path : Name) (flags : Nat) : M σ (Option Nat) := do
  if path.take 5 = devDir then
    let some d := F.device (path.drop 5) | return none
    if !(← call F (.devOpen d flags)) then return none
    if !(← slabAlloc) then return none
    install F { target := .device d, pos := 0, flags, refcount := 0 }
  else
    let some i ← openInode F path flags | return none
    if !(← prepare F i flags) then
      inodePut F i
      return none
    if !(← slabAlloc) then
      inodePut F i
      return none
    let size := (← attrOf F i).size
    install F { target := .inode i, pos := if has flags O_APPEND then size else 0, flags, refcount := 0 }

def setPos (f pos : Nat) : M σ Unit :=
  modify fun s => s.setFile f ((s.files f).map fun file => { file with pos := pos % 2 ^ 64 })

def read (f count : Nat) : M σ (Option (List UInt8)) := do
  let some file := (← get).files f | return none
  let some data ← call F (.read file.target file.pos count) | return none
  setPos f (file.pos + data.length)
  return some data

def write (f : Nat) (buf : Bytes) (count : Nat) : M σ (Option Nat) := do
  let some file := (← get).files f | return none
  let some n ← call F (.write file.target file.pos buf count) | return none
  setPos f (file.pos + n)
  return some n

def seek (f : Nat) (offset : Int) (whence : Nat) : M σ (Option Nat) := do
  let some file := (← get).files f | return none
  let some pos ← call F (.seek file.target file.pos offset whence) | return none
  setPos f pos
  return some pos

def PG_4K_SIZE : Nat := 4096

/-- `sys_read`; `copied` is whether the bytes reach the caller's memory. -/
def sysRead (fd count : Nat) (copied : Bool) : M σ (Option (List UInt8)) := do
  let max := if PG_4K_SIZE < count then PG_4K_SIZE else count
  if !(← slabAlloc) then return none
  let some f ← fdGet fd | return none
  let ret ← read F f max
  filePut F f
  let some data := ret | return none
  if !copied then return none
  return some data

/-- `sys_write`; `kbuf` is what could be copied from the caller's memory. -/
def sysWrite (fd : Nat) (kbuf : Option Bytes) (count : Nat) : M σ (Option Nat) := do
  let max := if PG_4K_SIZE < count then PG_4K_SIZE else count
  if !(← slabAlloc) then return none
  let some kbuf := kbuf | return none
  let some f ← fdGet fd | return none
  let ret ← write F f kbuf max
  filePut F f
  return ret

/-! ## Tasks -/

/-- `set_cwd` for the running task. -/
def setCwd (path : Name) : M σ Bool := do
  if !(← slabAlloc) then return false
  let normalized := buildUserPath path (← get).task.cwd_path
  if normalized = [] ∨ 128 ≤ normalized.length then return false
  let some i ← lookup F normalized | return false
  if ifmt (← attrOf F i).mode ≠ S_IFDIR then
    inodePut F i
    return false
  let old := (← get).task.cwd
  modify fun s => s.setTask s.current { s.task with cwd := some i, cwd_path := normalized }
  match old with
  | some old => inodePut F old
  | none => pure ⟨⟩
  return true

def closeFrom (t : Nat) : (n fd : Nat) → M σ Unit
  | 0, _ => return
  | n + 1, fd => do
    let f := ((← get).tasks t).ofile fd
    modify fun s => s.setTask t { s.tasks t with ofile := Function.update (s.tasks t).ofile fd none }
    match f with
    | some f => filePut F f
    | none => pure ⟨⟩
    closeFrom t n (fd + 1)

def exitFs (t : Nat) : M σ Unit := do
  closeFrom F t NOFILE 0
  match ((← get).tasks t).cwd with
  | some cwd =>
    inodePut F cwd
    modify fun s => s.setTask t { s.tasks t with cwd := none }
  | none => pure ⟨⟩
  modify fun s => s.setTask t { s.tasks t with cwd_path := [] }

/-- `free_task`: what it does to the file layer. -/
def freeTask (t : Nat) : M σ Unit := do
  exitFs F t
  modify fun s => s.setTask t { s.tasks t with state := .initlized, pid := 0 }

def allocTask : M σ (Option Nat) := do
  let s ← get
  let some t := (List.range NTASKS).find? fun t => (s.tasks t).state = .initlized | return none
  modify fun s =>
    { s.setTask t { s.tasks t with state := .running, pid := s.pid_counter } with
      pid_counter := s.pid_counter + 1 }
  -- the trap frame and the page table
  if !(← slabAlloc) then
    freeTask F t
    return none
  return some t

/-- The loop of `kfork` that shares the descriptors from `fd` on, `n` more. -/
def shareFrom (father new : Nat) : (n fd : Nat) → M σ Unit
  | 0, _ => return
  | n + 1, fd => do
    let f := ((← get).tasks father).ofile fd
    match f with
    | some f => fileGet f
    | none => pure ⟨⟩
    modify fun s => s.setTask new { s.tasks new with ofile := Function.update (s.tasks new).ofile fd f }
    shareFrom father new n (fd + 1)

/-- `kfork`: the new task. -/
def kfork : M σ (Option Nat) := do
  let father := (← get).current
  let some new ← allocTask F | return none
  -- the copies of the program, the stack and the heap
  if !(← slabAlloc) then
    freeTask F new
    return none
  let cwd := (← get).task.cwd
  modify fun s => s.setTask new { s.tasks new with cwd_path := s.task.cwd_path, cwd := cwd }
  match cwd with
  | some cwd => inodeGet cwd
  | none => pure ⟨⟩
  shareFrom father new NOFILE 0
  return some new

inductive LoadStep where
  | read (count : Nat)
  | seek (offset : Int) (whence : Nat)

def load (f : Nat) : List LoadStep → M σ Unit
  | [] => return
  | .read count :: rest => do
    let _ ← read F f count
    load f rest
  | .seek offset whence :: rest => do
    let _ ← seek F f offset whence
    load f rest

/-- `kexec`: the file is opened, read and closed again. Which reads there are
depends on its contents; the memory image is left out. -/
def kexec (path : Name) (steps : List LoadStep) : M σ Bool := do
  let some fd ← openPath F path O_RDONLY | return false
  let some ef ← fdGet fd
    | let _ ← fdClose F fd
      return false
  load F ef steps
  filePut F ef
  let _ ← fdClose F fd
  return true

/-- `kexit`: the task with pid 1 stays. -/
def kexit : M σ Unit := do
  let s ← get
  if s.task.pid = 1 then return
  exitFs F s.current
  modify fun s => s.setTask s.current { s.task with state := .zombie }

/-- What `kwait` does with the zombie it finds. -/
def reap (t : Nat) : M σ Unit :=
  modify fun s => if (s.tasks t).state = .zombie then s.setTask t { s.tasks t with state := .initlized, pid := 0 } else s

end

end Vfs
