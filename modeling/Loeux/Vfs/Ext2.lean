import Loeux.Ext2.DirMap
import Loeux.Vfs.Basic
/-!
# ext2 below the VFS

The operations of ext2 as a `FileSystem`, on a device and with an allocator that
do not fail. The VFS refers to the inode objects of the driver; objects are
never reused, so those the driver returns are new.
-/
open Lib Prog

namespace Vfs

/-! ## New objects -/

section New

variable {α β : Type}

theorem serve_next (e : Ext2.Op) (s : Ext2.St) : s.next ≤ (Ext2.serve e s).2.next := by
  cases e with
  | create i => exact Nat.le_succ _
  | mark m => cases m <;> exact le_rfl
  | _ => exact le_rfl

theorem run_next (p : Ext2.M α) (s : Ext2.St) : s.next ≤ (p.run Ext2.serve s).2.next := by
  induction p generalizing s with
  | ret a => exact le_rfl
  | op e k ih => exact (serve_next e s).trans (ih _ _)

/-- A reference that the program returns was not there before. -/
def Makes (p : Ext2.M (Option Nat)) : Prop :=
  ∀ s r, (p.run Ext2.serve s).1 = some r → s.next ≤ r ∧ r < (p.run Ext2.serve s).2.next

theorem Makes.none : Makes (pure none) := fun _ _ h => by cases h

theorem Makes.bind {p : Ext2.M α} {f : α → Ext2.M (Option Nat)} (hf : ∀ a, Makes (f a)) : Makes (p >>= f) := by
  intro s r h
  rw [run_bind] at h ⊢
  obtain ⟨h1, h2⟩ := hf _ _ r h
  exact ⟨(run_next p s).trans h1, h2⟩

theorem Makes.ite {c : Prop} [Decidable c] {p q : Ext2.M (Option Nat)} (hp : Makes p) (hq : Makes q) :
    Makes (if c then p else q) := by
  split
  · exact hp
  · exact hq

def Returns (n : Nat) (p : Ext2.M (Option Nat)) : Prop := ∀ s r, (p.run Ext2.serve s).1 = some r → r = n

theorem Returns.none {n : Nat} : Returns n (pure none) := fun _ _ h => by cases h

theorem Returns.some {n : Nat} : Returns n (pure (some n)) := fun _ _ h => (Option.some.inj h).symm

theorem Returns.bind {n : Nat} {p : Ext2.M α} {f : α → Ext2.M (Option Nat)} (hf : ∀ a, Returns n (f a)) :
    Returns n (p >>= f) := by
  intro s r h
  rw [run_bind] at h
  exact hf _ _ r h

theorem Returns.ite {n : Nat} {c : Prop} [Decidable c] {p q : Ext2.M (Option Nat)} (hp : Returns n p)
    (hq : Returns n q) : Returns n (if c then p else q) := by
  split
  · exact hp
  · exact hq

theorem Makes.keep {p : Ext2.M (Option Nat)} {f : Option Nat → Ext2.M (Option Nat)} (hp : Makes p)
    (hn : Makes (f .none)) (hf : ∀ n, Returns n (f (.some n))) : Makes (p >>= f) := by
  intro s r h
  rw [run_bind] at h ⊢
  cases hr : (p.run Ext2.serve s).1 with
  | none =>
    rw [hr] at h
    obtain ⟨h1, h2⟩ := hn _ r h
    exact ⟨(run_next p s).trans h1, h2⟩
  | some n =>
    rw [hr] at h
    obtain rfl := hf n _ r h
    obtain ⟨h1, h2⟩ := hp s r hr
    exact ⟨h1, h2.trans_le (run_next _ _)⟩

theorem makes_inodeCreate (ino : Nat) (di : Bytes) : Makes (Ext2.inodeCreate ino di) := by
  intro s r h
  cases h
  exact ⟨le_rfl, Nat.lt_succ_self _⟩

theorem makes_lookup (fs : Ext2.Fs) (dir : Nat) (name : Name) : Makes (Ext2.lookup fs dir name) := by
  unfold Ext2.lookup
  refine Makes.bind fun i => .ite .none <| .ite .none <| .ite .none <| .bind fun r => ?_
  cases r with
  | none => exact .none
  | some ino =>
    refine Makes.bind fun di => ?_
    cases di with
    | none => exact .none
    | some di => exact makes_inodeCreate ino di

theorem makes_create (fs : Ext2.Fs) (dir : Nat) (name : Name) (mode : Nat) : Makes (Ext2.create fs dir name mode) := by
  unfold Ext2.create
  refine Makes.ite .none <| .ite .none <| .bind fun _ => .ite .none <| .bind fun r => ?_
  cases r with
  | none => exact .none
  | some ino =>
    refine Makes.bind fun t => .bind fun _ => .ite (.bind fun _ => .none) <| .bind fun _ =>
      .ite (.bind fun _ => .none) <| .bind fun _ => .bind fun _ => .bind fun _ => .bind fun _ => .bind fun _ => ?_
    exact (makes_inodeCreate ino _).keep (.bind fun _ => .none) fun n =>
      .bind fun _ => .bind fun _ => .some

theorem makes_mkdir (fs : Ext2.Fs) (dir : Nat) (name : Name) (mode : Nat) : Makes (Ext2.mkdir fs dir name mode) := by
  unfold Ext2.mkdir
  refine Makes.ite .none <| .ite .none <| .bind fun _ => .ite .none <| .bind fun r => ?_
  cases r with
  | none => exact .none
  | some ino =>
    refine Makes.bind fun t => .bind fun _ => .ite (.bind fun _ => .none) <| .bind fun _ =>
      .ite (.bind fun _ => .none) <| .bind fun _ => ?_
    refine (makes_inodeCreate ino _).keep (.bind fun _ => .none) fun n => ?_
    refine .bind fun _ => .bind fun _ => .bind fun _ =>
      .ite (.bind fun _ => .bind fun _ => .bind fun _ => .none) ?_
    refine .bind fun _ => .bind fun _ => .bind fun _ => .ite (.bind fun _ => .bind fun _ => .none) ?_
    exact .bind fun _ => .bind fun _ => .bind fun _ => .bind fun _ => .bind fun _ => .some

end New

/-! ## The file system -/

/-- A call of `file_operations` on an open file with this inode and position. -/
def onFile {α : Type} (p : Ext2.M α) (i pos : Nat) (s : Ext2.St) : α × Ext2.St :=
  p.run Ext2.serve { s with files := Function.update s.files 0 ⟨i, pos⟩ }

/-- The calls of ext2. There are no character devices. -/
def ext2Call (fs : Ext2.Fs) : (c : Call) → Ext2.St → Ans c × Ext2.St
  | .lookup dir name, s => (Ext2.lookup fs dir name).run Ext2.serve s
  | .create dir name mode, s => (Ext2.create fs dir name mode).run Ext2.serve s
  | .mkdir dir name mode, s => (Ext2.mkdir fs dir name mode).run Ext2.serve s
  | .unlink dir name, s => (Ext2.unlink fs dir name).run Ext2.serve s
  | .rmdir dir name, s => (Ext2.rmdir fs dir name).run Ext2.serve s
  | .truncate i size, s => (Ext2.truncate fs i size).run Ext2.serve s
  | .setattr i mode uid gid, s => ((), s.modify i fun o => { o with mode, uid, gid })
  | .destroy _, s => ((), s)
  | .devOpen _ _, s => (false, s)
  | .read (.inode i) pos count, s => onFile (Ext2.read fs 0 count) i pos s
  | .read (.device _) _ _, s => (none, s)
  | .write (.inode i) pos buf count, s => onFile (Ext2.write fs 0 buf count) i pos s
  | .write (.device _) _ _ _, s => (none, s)
  | .seek (.inode i) pos offset whence, s => onFile (Ext2.seek 0 offset whence) i pos s
  | .seek (.device _) _ _ _, s => (none, s)
  | .close _, s => ((), s)

theorem ext2Call_next (fs : Ext2.Fs) (c : Call) (s : Ext2.St) : s.next ≤ (ext2Call fs c s).2.next := by
  have hfile : ∀ {α : Type} (p : Ext2.M α) i pos, s.next ≤ (onFile p i pos s).2.next := fun p i pos =>
    run_next p { s with files := Function.update s.files 0 ⟨i, pos⟩ }
  cases c with
  | lookup dir name => exact run_next _ _
  | create dir name mode => exact run_next _ _
  | mkdir dir name mode => exact run_next _ _
  | unlink dir name => exact run_next _ _
  | rmdir dir name => exact run_next _ _
  | truncate i size => exact run_next _ _
  | read x pos count =>
    cases x with
    | inode i => exact hfile _ i pos
    | device d => exact le_rfl
  | write x pos buf count =>
    cases x with
    | inode i => exact hfile _ i pos
    | device d => exact le_rfl
  | seek x pos offset whence =>
    cases x with
    | inode i => exact hfile _ i pos
    | device d => exact le_rfl
  | _ => exact le_rfl

/-- ext2 on a mounted volume. -/
def ext2 (fs : Ext2.Fs) : FileSystem Ext2.St where
  attr s i := { mode := (s.inodes i).mode, uid := (s.inodes i).uid, gid := (s.inodes i).gid, size := (s.inodes i).size }
  device _ := none
  call := ext2Call fs
  next := Ext2.St.next
  next_le := ext2Call_next fs
  fresh c s i h := by
    cases c with
    | lookup dir name => exact makes_lookup fs dir name s i h
    | create dir name mode => exact makes_create fs dir name mode s i h
    | mkdir dir name mode => exact makes_mkdir fs dir name mode s i h
    | _ => cases h

end Vfs
