import Loeux.Ext2.Map
/-!
# Directories

A directory block is a chain of records (`struct ext2_dirent`), each `rec_len`
bytes after the one before it; a record with inode 0 is free. The loops inside
one block are functions of its bytes. They take a fuel argument: a step moves
at least 8 bytes on, so one unit for each byte of the block is never used up.
-/
open Lib

namespace Ext2

-- The fields of the record (`struct ext2_dirent`) at byte `off` of a block.
namespace De

def inode (b : Bytes) (off : Nat) : Nat := b.get 4 off
def rec_len (b : Bytes) (off : Nat) : Nat := b.get 2 (off + 4)
def name_len (b : Bytes) (off : Nat) : Nat := (b (off + 6)).toNat
def file_type (b : Bytes) (off : Nat) : Nat := (b (off + 7)).toNat
/-- The first `n` bytes of the name. -/
def name (b : Bytes) (off n : Nat) : List UInt8 := (List.range n).map fun i => b (off + 8 + i)

def setInode (off v : Nat) (b : Bytes) : Bytes := b.put 4 off v
def setRecLen (off v : Nat) (b : Bytes) : Bytes := b.put 2 (off + 4) v
def setNameLen (off v : Nat) (b : Bytes) : Bytes := b.put 1 (off + 6) v
def setFileType (off v : Nat) (b : Bytes) : Bytes := b.put 1 (off + 7) v
def setName (off : Nat) (s : List UInt8) (b : Bytes) : Bytes :=
  b.copy s.length (off + 8) fun i => s.getD i 0

def isNamed (b : Bytes) (off : Nat) (s : List UInt8) : Bool :=
  inode b off != 0 && name_len b off == s.length && name b off s.length == s

end De

/-- The bytes a record with a name of this length takes, a multiple of 4. -/
def recLen (name_len : Nat) : Nat := u16 ((8 + name_len + 3) / 4 * 4)

section Blocks

variable (bs : Nat) (buf : Bytes) (name : List UInt8)

/-! ## One block -/

def findIn : (fuel off : Nat) → Option Nat
  | 0, _ => none
  | fuel + 1, off =>
    if bs < off + 8 then none
    else if De.rec_len buf off < 8 then none
    else if De.isNamed buf off name then some (De.inode buf off)
    else findIn fuel (off + De.rec_len buf off)

/-- The inner loop of `ext2_dir_empty`: there is a record besides `.` and `..`. -/
def occupiedIn : (fuel off : Nat) → Bool
  | 0, _ => false
  | fuel + 1, off =>
    if bs < off + 8 then false
    else if De.rec_len buf off < 8 then false
    else if De.inode buf off ≠ 0 ∧
        ¬(De.name_len buf off = 1 ∧ buf (off + 8) = 46) ∧
        ¬(De.name_len buf off = 2 ∧ buf (off + 8) = 46 ∧ buf (off + 9) = 46) then true
    else occupiedIn fuel (off + De.rec_len buf off)

/-- Put the new record into the free record at `off`; what is left of it, if a
header fits, stays a free record. -/
def fillFree (off need ino file_type : Nat) : Bytes :=
  let rest := De.rec_len buf off - need
  let buf :=
    if 8 ≤ rest then
      buf |> De.setRecLen off need
        |> De.setInode (off + need) 0 |> De.setRecLen (off + need) rest
        |> De.setNameLen (off + need) 0 |> De.setFileType (off + need) 0
    else buf
  buf |> De.setInode off ino |> De.setNameLen off name.length
    |> De.setFileType off file_type |> De.setName off name

/-- Put the new record into the last `tail` bytes of the record at `off`. -/
def fillTail (off real_len tail ino file_type : Nat) : Bytes :=
  buf |> De.setRecLen off real_len
    |> De.setInode (off + real_len) ino |> De.setRecLen (off + real_len) tail
    |> De.setNameLen (off + real_len) name.length
    |> De.setFileType (off + real_len) file_type |> De.setName (off + real_len) name

/-- The inner loop of `ext2_dir_add`: the block with the new record in a free
one, or the offset and length of the last record of the chain. -/
def addScan (need ino file_type : Nat) : (fuel off last_off last_rec : Nat) → Bytes ⊕ (Nat × Nat)
  | 0, _, last_off, last_rec => .inr (last_off, last_rec)
  | fuel + 1, off, last_off, last_rec =>
    if bs < off + 8 then .inr (last_off, last_rec)
    else if De.rec_len buf off < 8 then .inr (last_off, last_rec)
    else if De.inode buf off = 0 ∧ need ≤ De.rec_len buf off then
      .inl (fillFree buf name off need ino file_type)
    else addScan need ino file_type fuel (off + De.rec_len buf off) off (De.rec_len buf off)

/-- What `ext2_dir_add` does with one block: the block with the record added,
or `none` when there is no room in it. -/
def addIn (ino file_type : Nat) : Option Bytes :=
  let need := recLen name.length
  match addScan bs buf name need ino file_type bs 0 0 0 with
  | .inl buf => some buf
  | .inr (last_off, last_rec) =>
    if last_rec = 0 then none
    else
      let real_len := recLen (De.name_len buf last_off)
      let tail := u16 (last_rec + (2 ^ 16 - real_len))
      if need ≤ tail then some (fillTail buf name last_off real_len tail ino file_type) else none

/-- The loop in `ext2_dir_remove` that looks for the record before `off`, from
`p` on, and gives it the space of the one at `off`. -/
def mergePrev (off : Nat) : (fuel p : Nat) → Bytes
  | 0, _ => buf
  | fuel + 1, p =>
    if off ≤ p then buf
    else if p + De.rec_len buf p = off then
      De.setRecLen p (De.rec_len buf p + De.rec_len buf off) buf
    else mergePrev off fuel (p + De.rec_len buf p)

def removeIn : (fuel off : Nat) → Option Bytes
  | 0, _ => none
  | fuel + 1, off =>
    if bs < off + 8 then none
    else if De.rec_len buf off < 8 then none
    else if De.isNamed buf off name then
      some (De.setInode off 0 (if off = 0 then buf else mergePrev buf off bs 0))
    else removeIn fuel (off + De.rec_len buf off)

def freshBlock (ino file_type : Nat) : Bytes :=
  Bytes.zero |> De.setInode 0 ino |> De.setRecLen 0 bs |> De.setNameLen 0 name.length
    |> De.setFileType 0 file_type |> De.setName 0 name

def dotBlock (ino parent_ino : Nat) : Bytes :=
  Bytes.zero |> De.setInode 0 ino |> De.setRecLen 0 12 |> De.setNameLen 0 1
    |> De.setFileType 0 EXT2_FT_DIR |> De.setName 0 [46]
    |> De.setInode 12 parent_ino |> De.setRecLen 12 (bs - 12) |> De.setNameLen 12 2
    |> De.setFileType 12 EXT2_FT_DIR |> De.setName 12 [46, 46]

end Blocks

/-! ## All blocks -/

section Dirs

variable (fs : Fs) (dir : Nat)

/-- The outer loop of `ext2_dir_find` over `n` more blocks, from `lblk` on. -/
def dirFindFrom (name : List UInt8) : (n lblk : Nat) → M (Option Nat)
  | 0, _ => return none
  | n + 1, lblk => do
    let some phys ← getBlock fs dir lblk false | return none
    if phys = 0 then dirFindFrom name n (lblk + 1)
    else
      let some buf ← readBlock phys | return none
      match findIn fs.block_size buf name fs.block_size 0 with
      | some ino => return some ino
      | none => dirFindFrom name n (lblk + 1)

def dirFind (name : List UInt8) : M (Option Nat) := do
  if !(← slabAlloc) then return none
  dirFindFrom fs dir name (blocksOf fs (← inodeAt dir).priv.i_size) 0

/-- The first loop of `ext2_dir_add`: `none` is an error, otherwise whether the
record was added. -/
def dirAddFrom (name : List UInt8) (ino file_type : Nat) : (n lblk : Nat) → M (Option Bool)
  | 0, _ => return some false
  | n + 1, lblk => do
    let some phys ← getBlock fs dir lblk false | return none
    if phys = 0 then dirAddFrom name ino file_type n (lblk + 1)
    else
      let some buf ← readBlock phys | return none
      match addIn fs.block_size buf name ino file_type with
      | some buf =>
        if !(← writeBlock phys buf) then return none
        return some true
      | none => dirAddFrom name ino file_type n (lblk + 1)

def Inode.setSize (i : Inode) (size : Nat) : Inode := { i with priv := { i.priv with i_size := size } }

/-- The second part of `ext2_dir_add`: a new block at the end of the directory. -/
def dirExtend (name : List UInt8) (ino file_type new_lblk : Nat) : M Bool := do
  let some new_phys ← getBlock fs dir new_lblk true | return false
  if new_phys = 0 then return false
  if !(← writeBlock new_phys (freshBlock fs.block_size name ino file_type)) then return false
  update dir fun i => i.setSize (u32 ((new_lblk + 1) * fs.block_size))
  return true

def dirAdd (name : List UInt8) (ino file_type : Nat) : M Bool := do
  if !(← slabAlloc) then return false
  let max_blk := blocksOf fs (← inodeAt dir).priv.i_size
  let some added ← dirAddFrom fs dir name ino file_type max_blk 0 | return false
  if added then return true
  dirExtend fs dir name ino file_type max_blk

def dirRemoveFrom (name : List UInt8) : (n lblk : Nat) → M Bool
  | 0, _ => return false
  | n + 1, lblk => do
    let some phys ← getBlock fs dir lblk false | return false
    if phys = 0 then dirRemoveFrom name n (lblk + 1)
    else
      let some buf ← readBlock phys | return false
      match removeIn fs.block_size buf name fs.block_size 0 with
      | some buf => writeBlock phys buf
      | none => dirRemoveFrom name n (lblk + 1)

def dirRemove (name : List UInt8) : M Bool := do
  if !(← slabAlloc) then return false
  dirRemoveFrom fs dir name (blocksOf fs (← inodeAt dir).priv.i_size) 0

def dirEmptyFrom : (n lblk : Nat) → M (Option Bool)
  | 0, _ => return some true
  | n + 1, lblk => do
    let some phys ← getBlock fs dir lblk false | return none
    if phys = 0 then dirEmptyFrom n (lblk + 1)
    else
      let some buf ← readBlock phys | return none
      if occupiedIn fs.block_size buf fs.block_size 0 then return some false
      dirEmptyFrom n (lblk + 1)

def dirEmpty : M (Option Bool) := do
  if !(← slabAlloc) then return none
  dirEmptyFrom fs dir (blocksOf fs (← inodeAt dir).priv.i_size) 0

def dirInitDot (parent_ino : Nat) : M Bool := do
  let some phys ← getBlock fs dir 0 true | return false
  if phys = 0 then return false
  if !(← slabAlloc) then return false
  let ret ← writeBlock phys (dotBlock fs.block_size (← inodeAt dir).priv.ino parent_ino)
  update dir fun i => i.setSize fs.block_size
  return ret

end Dirs

end Ext2
