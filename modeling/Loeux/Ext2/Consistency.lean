import Loeux.Ext2.OpSpec
/-!
# Runs of calls on a mounted volume

The VFS makes calls on the inode objects it holds. A run is a sequence of
successful calls; `ext2_create` and `ext2_mkdir` add the object they return, and
the objects of an inode whose name was removed are not used again.
-/
open Lib

namespace Ext2

/-- The state and the inode objects in use. -/
structure Mount where
  st : St
  held : List Nat

inductive Call where
  | create (dir : Nat) (name : List UInt8) (mode : Nat)
  | mkdir (dir : Nat) (name : List UInt8) (mode : Nat)
  | unlink (dir : Nat) (name : List UInt8)
  | rmdir (dir : Nat) (name : List UInt8)
  | write (r pos : Nat) (buf : Bytes) (count : Nat)
  | truncate (r size : Nat)

def Call.object : Call → Nat
  | .create dir _ _ => dir
  | .mkdir dir _ _ => dir
  | .unlink dir _ => dir
  | .rmdir dir _ => dir
  | .write r _ _ _ => r
  | .truncate r _ => r

inductive Does (fs : Fs) (m : Mount) : Call → Mount → Prop
  | create {dir name mode r s'} : (create fs dir name mode).run serve m.st = (some r, s') →
      Does fs m (.create dir name mode) ⟨s', r :: m.held⟩
  | mkdir {dir name mode r s'} : (mkdir fs dir name mode).run serve m.st = (some r, s') →
      Does fs m (.mkdir dir name mode) ⟨s', r :: m.held⟩
  | unlink {dir name n s'} : m.st.find fs dir name = some n → (unlink fs dir name).run serve m.st = (true, s') →
      Does fs m (.unlink dir name) ⟨s', m.st.besides m.held n⟩
  | rmdir {dir name n s'} : m.st.find fs dir name = some n → (rmdir fs dir name).run serve m.st = (true, s') →
      Does fs m (.rmdir dir name) ⟨s', m.st.besides m.held n⟩
  | write {r pos buf count c s'} : (writeData fs r pos buf count).run serve m.st = (some c, s') →
      Does fs m (.write r pos buf count) ⟨s', m.held⟩
  | truncate {r size s'} : (truncate fs r size).run serve m.st = (true, s') →
      Does fs m (.truncate r size) ⟨s', m.held⟩

namespace Does

variable {fs : Fs} {m : Mount}

theorem create_of {dir : Nat} {name : List UInt8} {mode r : Nat}
    (h : ((Ext2.create fs dir name mode).run serve m.st).1 = some r) :
    Does fs m (.create dir name mode) ⟨((Ext2.create fs dir name mode).run serve m.st).2, r :: m.held⟩ :=
  .create (Prod.ext h rfl)

theorem truncate_of {r size : Nat} (h : ((Ext2.truncate fs r size).run serve m.st).1 = true) :
    Does fs m (.truncate r size) ⟨((Ext2.truncate fs r size).run serve m.st).2, m.held⟩ :=
  .truncate (Prod.ext h rfl)

end Does

/-- Calls are made on objects in use. -/
def Step (fs : Fs) (m : Mount) (c : Call) (m' : Mount) : Prop := c.object ∈ m.held ∧ Does fs m c m'

/-! ## Which calls keep a volume consistent -/

namespace Layout

variable (L : Layout)

/-- The logical blocks behind the direct ones that a truncation to `size` cuts. -/
def CutsIndirect (s : St) (r size l : Nat) : Prop :=
  12 ≤ l ∧ newBlocks L.fs size ≤ l ∧ l < blocksOf L.fs (s.inodes r).priv.i_size ∧ l < L.maxBlocks

/-- The calls that keep the blocks of a volume in order. A truncation that keeps
a block cuts no mapped block behind the direct ones, and a name is only removed
if its inode is live and has no other, or has no blocks. -/
def Safe (m : Mount) : Call → Prop
  | .truncate r size => newBlocks L.fs size = 0 ∨
      ∀ l, L.CutsIndirect m.st r size l → L.pointer m.st (m.st.ino r) l = 0
  | .unlink dir name => ∀ n, m.st.find L.fs dir name = some n →
      (L.vol m.st).live n ∧ Di.i_links_count ((L.vol m.st).inode n) ≤ 1 ∨ (L.vol m.st).NoBlocks n
  | .rmdir dir name => ∀ n, m.st.find L.fs dir name = some n → (L.vol m.st).live n ∨ (L.vol m.st).NoBlocks n
  | _ => True

/-- The calls that also keep the free counters right: no mapped block behind the
direct ones is cut at all, and an inode that is given back was marked used. -/
def Exact (m : Mount) : Call → Prop
  | .truncate r size => ∀ l, L.CutsIndirect m.st r size l → L.pointer m.st (m.st.ino r) l = 0
  | .unlink dir name => ∀ n, m.st.find L.fs dir name = some n →
      Di.i_links_count ((L.vol m.st).inode n) ≤ 1 → (L.vol m.st).live n
  | .rmdir dir name => ∀ n, m.st.find L.fs dir name = some n → (L.vol m.st).live n
  | _ => True

end Layout

section Runs

variable {L : Layout} {cnt : Prop} {m m' : Mount} {c : Call}

theorem Step.mounted (h : Mounted L cnt m.held m.st) (hs : L.Safe m c) (hc : cnt → L.Exact m c)
    (hstep : Step L.fs m c m') : Mounted L cnt m'.held m'.st := by
  obtain ⟨hobj, hdo⟩ := hstep
  cases hdo with
  | @create dir name mode r s' he =>
    have := run_of_wp (create_run h hobj name mode) he r rfl
    exact this.1
  | @mkdir dir name mode r s' he =>
    have := run_of_wp (mkdir_run h hobj name mode) he r rfl
    exact this.1
  | unlink hf he =>
    obtain ⟨n, hn, hm, -⟩ := run_of_wp (unlink_run h hobj _ hs fun n hn hcnt => hc hcnt n hn) he rfl
    obtain rfl := Option.some.inj (hf.symm.trans hn)
    exact hm
  | rmdir hf he =>
    obtain ⟨n, hn, hm, -⟩ := run_of_wp (rmdir_run h hobj _ hs fun n hn hcnt => hc hcnt n hn) he rfl
    obtain rfl := Option.some.inj (hf.symm.trans hn)
    exact hm
  | write he => exact (run_of_wp (writeData_run h hobj _ _ _) he _ rfl).2.1.mounted
  | truncate he =>
    exact (run_of_wp (truncate_run h hobj _ (hs.imp id fun hs l h1 h2 h3 h4 => hs l ⟨h1, h2, h3, h4⟩)
      fun hcnt l h1 h2 h3 h4 => hc hcnt l ⟨h1, h2, h3, h4⟩) he rfl).mounted

theorem safe_run_mounted {cs : List Call} (h : Mounted L False m.held m.st)
    (hrun : Run (Guarded L.Safe (Step L.fs)) m cs m') : Mounted L False m'.held m'.st :=
  hrun.inv (fun m => Mounted L False m.held m.st) (fun _ _ _ hm hs hstep => hstep.mounted hm hs fun hF => hF.elim) h

/-- Runs of safe calls keep the volume consistent: a block is marked used exactly
when it is metadata or is named by one slot of one live inode. -/
theorem safe_run_owns {cs : List Call} (h : Mounted L False m.held m.st)
    (hrun : Run (Guarded L.Safe (Step L.fs)) m cs m') :
    Owns L (L.vol m'.st).live (L.vol m'.st).blocks (L.vol m'.st) := by
  have h' := safe_run_mounted h hrun
  exact h'.owns

/-- Runs of exact calls keep the free counters equal to the bitmaps. -/
theorem exact_run_counted {cs : List Call} (h : Mounted L True m.held m.st)
    (hrun : Run (Guarded (fun m c => L.Safe m c ∧ L.Exact m c) (Step L.fs)) m cs m') :
    L.Counted (L.vol m'.st) := by
  have h' : Mounted L True m'.held m'.st := hrun.inv (fun m => Mounted L True m.held m.st)
    (fun _ _ _ hm hs hstep => hstep.mounted hm hs.1 fun _ => hs.2) h
  exact h'.counted trivial

end Runs

namespace Sample

set_option maxRecDepth 100000

def mount : Mount := ⟨st, [0, 1]⟩

def cut (size : Nat) : Mount := ⟨((truncate layout.fs 0 size).run serve mount.st).2, mount.held⟩

theorem cut_step {size : Nat} (h : ((truncate layout.fs 0 size).run serve mount.st).1 = true) :
    Step layout.fs mount (.truncate 0 size) (cut size) := ⟨List.mem_cons_self, .truncate_of h⟩

/-- Truncating the file with blocks behind the direct ones to nothing is safe. -/
theorem truncate_zero_owns : Run (Guarded layout.Safe (Step layout.fs)) mount [.truncate 0 0] (cut 0) ∧
    Owns layout (layout.vol (cut 0).st).live (layout.vol (cut 0).st).blocks (layout.vol (cut 0).st) := by
  have hrun : Run (Guarded layout.Safe (Step layout.fs)) mount [.truncate 0 0] (cut 0) :=
    .one ⟨.inl (by decide +kernel), cut_step (by decide +kernel)⟩
  have hm : Mounted layout False mount.held mount.st := { mounted with counted := fun h => h.elim }
  exact ⟨hrun, safe_run_owns hm hrun⟩

/-- Truncating it to 13 blocks leaves the pointer to the block that was cut, which
is marked free. -/
theorem truncate_breaks_owns : Mounted layout True mount.held mount.st ∧
    Run (Step layout.fs) mount [.truncate 0 13312] (cut 13312) ∧
    ¬Owns layout (layout.vol (cut 13312).st).live (layout.vol (cut 13312).st).blocks (layout.vol (cut 13312).st) := by
  refine ⟨mounted, .one (cut_step (by decide +kernel)), fun h => ?_⟩
  have hx : layout.IsSlot (layout.vol (cut 13312).st).live ((11, 12), [1]) :=
    ⟨by simp only [Vol.live]; decide, by decide, by decide, by decide⟩
  have hfree : (layout.vol (cut 13312).st).used 9 = false := by decide
  rw [(h.used 9 (by decide)).2 ⟨_, hx, by decide +kernel⟩] at hfree
  cases hfree

/-- Truncating it to nothing frees the blocks behind the direct ones twice. -/
theorem truncate_miscounts : Mounted layout True mount.held mount.st ∧
    Run (Step layout.fs) mount [.truncate 0 0] (cut 0) ∧ ¬layout.Counted (layout.vol (cut 0).st) := by
  refine ⟨mounted, .one (cut_step (by decide +kernel)), fun h => ?_⟩
  have h1 := h.blocks.each 0 (by decide)
  have h2 : (layout.vol (cut 0).st).bfree 0 ≠ Tally.count 64 (layout.freeBit (layout.vol (cut 0).st) 0) := by
    decide +kernel
  exact h2 h1

def made : Mount := ⟨((create layout.fs 1 [104] 0o644).run serve mount.st).2, 2 :: mount.held⟩

/-- A new file keeps the counters. -/
theorem create_counted :
    Run (Guarded (fun m c => layout.Safe m c ∧ layout.Exact m c) (Step layout.fs)) mount [.create 1 [104] 0o644] made ∧
      layout.Counted (layout.vol made.st) := by
  have hrun : Run (Guarded (fun m c => layout.Safe m c ∧ layout.Exact m c) (Step layout.fs)) mount
      [.create 1 [104] 0o644] made :=
    .one ⟨⟨trivial, trivial⟩, by decide, .create_of (by decide +kernel)⟩
  exact ⟨hrun, exact_run_counted mounted hrun⟩

end Sample

end Ext2
