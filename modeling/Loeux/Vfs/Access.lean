import Loeux.Vfs.Files
import Loeux.Ext2.Sizes
/-!
# Reading and writing through descriptors

`vfs_open` checks the access mode and puts the position of a file opened with
`O_APPEND` at its end. Afterwards the flags of the file object are not looked at:
what a call does depends on the object's target and position alone.
-/
open Lib Act Function Nat

namespace Vfs

section

variable {σ : Type} {F : FileSystem σ} {s s' : St σ} {f fd : Nat} {file : File}

/-! ## What reaches the file system -/

theorem wp_call_iff {c : Call} {Q : Ans c → St σ → Prop} (hc : ∀ r, made c r = none) :
    wp (call F c) Q s ↔ Q (F.call c s.fs).1 (s.setFs (F.call c s.fs).2) := by
  unfold wp call
  simp only [hc]

theorem wp_slabAlloc_iff {Q : Bool → St σ → Prop} :
    wp slabAlloc Q s ↔ Q (s.slab 0) (s.setSlab fun n => s.slab (n + 1)) := Iff.rfl

theorem wp_write {Q : Option Nat → St σ → Prop} (hf : s.files f = some file) (buf : Bytes) (count : Nat)
    (hQ : ∀ s', s'.fs = (F.call (.write file.target file.pos buf count) s.fs).2 →
      (∀ n, (F.call (.write file.target file.pos buf count) s.fs).1 = some n →
        s'.files = update s.files f (some { file with pos := (file.pos + n) % 2 ^ 64 })) →
      Q (F.call (.write file.target file.pos buf count) s.fs).1 s') : wp (write F f buf count) Q s := by
  unfold write
  rw [wp_bind, wp_get, hf]
  dsimp only
  rw [wp_bind, wp_call_iff fun _ => rfl]
  generalize F.call (.write file.target file.pos buf count) s.fs = x at hQ ⊢
  obtain ⟨r, fs⟩ := x
  cases r with
  | none =>
    refine hQ _ rfl fun n e => ?_
    cases e
  | some n =>
    refine hQ _ rfl fun m e => ?_
    cases e
    show update s.files f ((s.files f).map _) = _
    rw [hf]
    rfl

end

/-! ## Appending -/

section

variable {L : Ext2.Layout} {cnt : Prop} {held : List Nat} {s s' : St Ext2.St} {f i k : Nat} {file : File}

theorem mounted_setFile {o : Ext2.St} (h : Ext2.Mounted L cnt held o) (x : Ext2.File) :
    Ext2.Mounted L cnt held { o with files := update o.files 0 x } :=
  ⟨⟨h.valid.1, h.valid.2, h.valid.3, h.valid.4, h.valid.5⟩, h.owns, h.counted, h.fresh, h.live, h.agree, h.distinct⟩

variable {buf : Bytes}

theorem wrote_setFile {o o' : Ext2.St} {x : Ext2.File} {pos stop : Nat}
    (h : L.Wrote cnt held { o with files := update o.files 0 x } i pos stop buf o') :
    L.Wrote cnt held o i pos stop buf o' :=
  ⟨h.mounted, ⟨h.spares.live, h.spares.block, h.spares.inodes, h.spares.pointer, h.spares.record, h.spares.next,
    h.spares.ino⟩, ⟨h.steady.1, h.steady.2⟩, h.size, h.i_size, h.mode, h.content, h.limit⟩

theorem ext2_write_wrote {o : Ext2.St} {pos count : Nat} (h : Ext2.Mounted L cnt held o) (hi : i ∈ held)
    (hr : ((ext2 L.fs).call (.write (.inode i) pos buf count) o).1 = some k) :
    k = 0 ∧ ((ext2 L.fs).call (.write (.inode i) pos buf count) o).2 = { o with files := update o.files 0 ⟨i, pos⟩ } ∨
      0 < k ∧ k < 2 ^ 32 ∧ L.Wrote cnt held o i pos (Ext2.u64 (pos + k)) buf
        ((ext2 L.fs).call (.write (.inode i) pos buf count) o).2 := by
  have hrun := (Ext2.wp_world_false _ _ _).1 (Ext2.write_run (mounted_setFile h ⟨i, pos⟩) (update_self ..) hi buf count)
  exact (hrun k hr).imp id fun ⟨h1, h2, h3⟩ => ⟨h1, h2, wrote_setFile h3⟩

/-- The `k` bytes of `buf` stand after the end that the file of object `i` had in
`o`, and what it had is unchanged. -/
structure Appended (L : Ext2.Layout) (i k : Nat) (buf : Bytes) (o s : Ext2.St) : Prop where
  size : (s.inodes i).size = (o.inodes i).size + k
  kept : ∀ off, off < (o.inodes i).size → L.content s (o.ino i) off = L.content o (o.ino i) off
  stored : ∀ j, j < k → L.content s (o.ino i) ((o.inodes i).size + j) = buf j

theorem appended_iff {o o' : Ext2.St} {pos : Nat}
    (hw : L.Wrote cnt held o i pos (Ext2.u64 (pos + k)) buf o') (hk : 0 < k) (hk' : k < 2 ^ 32) (hpos : pos < 2 ^ 64)
    (hsize : (o.inodes i).size ≤ L.maxBytes) : Appended L i k buf o o' ↔ pos = (o.inodes i).size := by
  have hmax := L.maxBytes_lt
  constructor
  · -- the new end is at `pos + k` or further
    intro h
    have h1 := hw.size.symm.trans h.size
    rw [Ext2.u64] at h1
    split_ifs at h1 <;> omega
  · intro hp
    have hstop : Ext2.u64 (pos + k) = (o.inodes i).size + k := by
      rw [hp]
      exact mod_eq_of_lt (by omega)
    rw [hstop] at hw
    have hfit := hw.limit (by omega) (hp ▸ hsize)
    refine ⟨?_, fun off hoff => ?_, fun j hj => ?_⟩
    · rw [hw.size, if_pos (by omega)]
    · rw [hw.content hfit off (by omega), if_neg (by omega)]
    · rw [hw.content hfit _ (by omega), if_pos (by omega), hp, Nat.add_sub_cancel_left]

/-- The volume is mounted, and every open file is one of its objects, with a size
below the limit of the format and the position not behind it. -/
structure Ready (L : Ext2.Layout) (cnt : Prop) (held : List Nat) (s : St Ext2.St) : Prop where
  mounted : Ext2.Mounted L cnt held s.fs
  file : ∀ f file i, s.files f = some file → file.target = .inode i →
    i ∈ held ∧ file.pos ≤ (s.fs.inodes i).size ∧ (s.fs.inodes i).size ≤ L.maxBytes

/-- One `vfs_write`. It succeeds, or it fails before it has changed the volume. -/
def WriteStep (L : Ext2.Layout) (s : St Ext2.St) (e : Nat × Bytes × Nat) (s' : St Ext2.St) : Prop :=
  ∃ r, write (ext2 L.fs) e.1 e.2.1 e.2.2 s = (r, s') ∧ (r = none → ∃ files, s'.fs = { s.fs with files := files })

theorem write_failed {count : Nat} (hw : write (ext2 L.fs) f buf count s = (none, s')) : s'.files = s.files := by
  have key : wp (write (ext2 L.fs) f buf count) (fun r s' => r = none → s'.files = s.files) s := by
    unfold write
    rw [wp_bind, wp_get]
    cases s.files f with
    | none => exact fun _ => rfl
    | some file =>
      dsimp only
      rw [wp_bind, wp_call_iff fun _ => rfl]
      generalize (ext2 L.fs).call (.write file.target file.pos buf count) s.fs = x
      obtain ⟨r, fs⟩ := x
      cases r with
      | none => exact fun _ => rfl
      | some n => exact fun e => by cases e
  exact Act.run_of_wp key hw rfl

theorem Ready.failed {files : Nat → Ext2.File} (h : Ready L cnt held s) (hfs : s'.fs = { s.fs with files := files })
    (hfiles : s'.files = s.files) : Ready L cnt held s' := by
  refine ⟨?_, fun g file i hg ht => ?_⟩
  · rw [hfs]
    exact ⟨⟨h.mounted.valid.1, h.mounted.valid.2, h.mounted.valid.3, h.mounted.valid.4, h.mounted.valid.5⟩, h.mounted.owns,
      h.mounted.counted, h.mounted.fresh, h.mounted.live, h.mounted.agree, h.mounted.distinct⟩
  · rw [hfs]
    rw [hfiles] at hg
    exact h.file g file i hg ht

theorem write_step {count : Nat} (h : Ready L cnt held s)
    (hw : write (ext2 L.fs) f buf count s = (some k, s')) : ∃ file i, s.files f = some file ∧ file.target = .inode i ∧
      s'.files = update s.files f (some { file with pos := (file.pos + k) % 2 ^ 64 }) ∧
      (k = 0 ∧ s'.fs = { s.fs with files := update s.fs.files 0 ⟨i, file.pos⟩ } ∨
        0 < k ∧ k < 2 ^ 32 ∧ L.Wrote cnt held s.fs i file.pos (Ext2.u64 (file.pos + k)) buf s'.fs) := by
  cases hf : s.files f with
  | none =>
    have key : wp (write (ext2 L.fs) f buf count) (fun r _ => r = none) s := by
      unfold write
      rw [wp_bind, wp_get, hf]
      rfl
    cases Act.run_of_wp key hw
  | some file =>
    have key := wp_write (F := ext2 L.fs) (Q := fun r s' => ∀ k, r = some k → ∃ i, file.target = .inode i ∧
      s'.files = update s.files f (some { file with pos := (file.pos + k) % 2 ^ 64 }) ∧
      (k = 0 ∧ s'.fs = { s.fs with files := update s.fs.files 0 ⟨i, file.pos⟩ } ∨
        0 < k ∧ k < 2 ^ 32 ∧ L.Wrote cnt held s.fs i file.pos (Ext2.u64 (file.pos + k)) buf s'.fs)) hf buf count ?_
    · obtain ⟨i, h1, h2⟩ := Act.run_of_wp key hw k rfl
      exact ⟨file, i, rfl, h1, h2⟩
    intro s1 h₁ hfiles k hr
    have hfiles := hfiles k hr
    cases ht : file.target with
    | device d =>
      rw [ht] at hr
      cases hr
    | inode i =>
      rw [ht] at hr h₁
      rw [h₁]
      exact ⟨i, rfl, ht ▸ hfiles, ext2_write_wrote h.mounted (h.file f file i hf ht).1 hr⟩

theorem WriteStep.ready {e : Nat × Bytes × Nat} (hs : WriteStep L s e s') (h : Ready L cnt held s) :
    Ready L cnt held s' := by
  obtain ⟨_ | k, hw, hfail⟩ := hs
  · obtain ⟨files, hfs⟩ := hfail rfl
    exact h.failed hfs (write_failed hw)
  obtain ⟨file, i, hf, ht, hfiles, hcase⟩ := write_step h hw
  obtain ⟨hi, hpos, hsize⟩ := h.file _ _ _ hf ht
  have hmax := L.maxBytes_lt
  -- sizes do not shrink and stay below the limit; the new position is not behind the end
  suffices hfs : Ext2.Mounted L cnt held s'.fs ∧ file.pos + k ≤ (s'.fs.inodes i).size ∧
      ∀ j ∈ held, (s.fs.inodes j).size ≤ L.maxBytes →
        (s.fs.inodes j).size ≤ (s'.fs.inodes j).size ∧ (s'.fs.inodes j).size ≤ L.maxBytes by
    obtain ⟨hm, hend, hmono⟩ := hfs
    refine ⟨hm, fun g file' j hg htj => ?_⟩
    rw [hfiles, update_apply] at hg
    split_ifs at hg with e
    · cases hg
      obtain rfl : i = j := Target.inode.inj (ht.symm.trans htj)
      refine ⟨hi, ?_, (hmono i hi hsize).2⟩
      show (file.pos + k) % 2 ^ 64 ≤ _
      exact (mod_le _ _).trans hend
    · obtain ⟨hj, hposj, hsizej⟩ := h.file g file' j hg htj
      obtain ⟨h1, h2⟩ := hmono j hj hsizej
      exact ⟨hj, hposj.trans h1, h2⟩
  obtain ⟨rfl, hfs⟩ | ⟨hk, hk', hwrote⟩ := hcase
  · rw [hfs]
    exact ⟨mounted_setFile h.mounted _, hpos, fun j _ hj => ⟨le_rfl, hj⟩⟩
  · have hstop : Ext2.u64 (file.pos + k) = file.pos + k := mod_eq_of_lt (by omega)
    rw [hstop] at hwrote
    have hfit := hwrote.limit (by omega) (by omega)
    have hnew := hwrote.size
    refine ⟨hwrote.mounted, by split_ifs at hnew <;> omega, fun j hj hsizej => ?_⟩
    by_cases e : j = i
    · subst e
      split_ifs at hnew <;> omega
    · have hne : s'.fs.ino j ≠ s.fs.ino i := by
        rw [hwrote.steady.ino]
        exact fun e' => e (h.mounted.distinct j hj i hi e')
      rw [hwrote.spares.inodes j hj hne]
      exact ⟨le_rfl, hsizej⟩

/-- In every run of `vfs_write` calls, a write that succeeds appends its bytes exactly if the position of the file object
is the size of the file just before the call, whatever the flags. -/
theorem writes_run_append_iff {s₀ : St Ext2.St} {es : List (Nat × Bytes × Nat)} {count : Nat}
    (h₀ : Ready L cnt held s₀) (hrun : Run (WriteStep L) s₀ es s) (hf : s.files f = some file)
    (ht : file.target = .inode i) (hw : write (ext2 L.fs) f buf count s = (some k, s')) (hk : 0 < k) :
    Appended L i k buf s.fs s'.fs ↔ file.pos = (s.fs.inodes i).size := by
  have h : Ready L cnt held s := by
    induction hrun with
    | nil => exact h₀
    | cons hs _ ih => exact ih (hs.ready h₀) hf hw
  obtain ⟨file', i', hf', ht', -, hcase⟩ := write_step h hw
  obtain rfl : file = file' := Option.some.inj (hf.symm.trans hf')
  obtain rfl : i = i' := Target.inode.inj (ht.symm.trans ht')
  obtain ⟨-, hpos, hsize⟩ := h.file f file i hf ht
  have hmax := L.maxBytes_lt
  obtain ⟨rfl, -⟩ | ⟨-, hk', hwrote⟩ := hcase
  · exact absurd hk (lt_irrefl 0)
  · exact appended_iff hwrote hk hk' (by omega) hsize

end

/-! ## Access modes -/

section

variable {L : Ext2.Layout} {cnt : Prop} {held : List Nat} {s : St Ext2.St} {f fd i : Nat} {file : File}

def Kept (L : Ext2.Layout) (i : Nat) (o s : Ext2.St) : Prop :=
  (s.inodes i).size = (o.inodes i).size ∧
    ∀ off, off < (o.inodes i).size → L.content s (o.ino i) off = L.content o (o.ino i) off

/-- The call is refused: an error, and the file is as before. -/
def Refused (L : Ext2.Layout) (i : Nat) (o : Ext2.St) (r : Option Nat × Ext2.St) : Prop := r.1 = none ∧ Kept L i o r.2

theorem Kept.refl (o : Ext2.St) : Kept L i o o := ⟨rfl, fun _ _ => rfl⟩

/-- The calls of a task: those on descriptors, and transfers through them. -/
inductive SysCall
  | file (c : FileCall)
  | write (fd : Nat) (kbuf : Option Bytes) (count : Nat)
  | read (fd count : Nat) (copied : Bool)

def SysCall.run (F : FileSystem σ) : SysCall → M σ Unit
  | .file c => do
    let _ ← c.run F
  | .write fd kbuf count => do
    let _ ← sysWrite F fd kbuf count
  | .read fd count copied => do
    let _ ← sysRead F fd count copied

end

namespace Sample

set_option maxRecDepth 100000

def byte (b : UInt8) : Bytes := fun _ => b

/-- The file of the sample volume is open, with the position at its end. -/
def atEnd : St Ext2.St :=
  start.setFile 0 (some ⟨.inode 0, 14336, O_WRONLY ||| O_APPEND, 1⟩)

theorem ready_atEnd : Ready Ext2.Sample.layout True [0, 1] atEnd := by
  refine ⟨Ext2.Sample.mounted, fun f file i hf ht => ?_⟩
  have hf : update start.files 0 (some ⟨.inode 0, 14336, O_WRONLY ||| O_APPEND, 1⟩) f = some file := hf
  rw [update_apply] at hf
  split_ifs at hf with e
  · cases hf
    cases ht
    exact ⟨by decide, by decide, by decide⟩
  · cases hf

def longer : St Ext2.St := (write (ext2 Ext2.Sample.layout.fs) 0 (byte 88) 1 atEnd).2

/-- And another one, behind the first. -/
theorem longer_appends : Appended Ext2.Sample.layout 0 1 (byte 89) longer.fs
    (write (ext2 Ext2.Sample.layout.fs) 0 (byte 89) 1 longer).2.fs := by
  have hrun : Run (WriteStep Ext2.Sample.layout) atEnd [(0, byte 88, 1)] longer :=
    .one ⟨some 1, Prod.ext (by decide) rfl, nofun⟩
  have hf : longer.files 0 = some ⟨.inode 0, 14337, O_WRONLY ||| O_APPEND, 1⟩ := by decide
  exact (writes_run_append_iff ready_atEnd hrun hf rfl (Prod.ext (by decide) rfl) Nat.one_pos).2
    (by decide)

def openedTwice : St Ext2.St :=
  after 0 (after 0 start (.openPath [47, 102] (O_WRONLY ||| O_APPEND))) (.openPath [47, 102] (O_WRONLY ||| O_APPEND))

def oneWritten : St Ext2.St := (write (ext2 Ext2.Sample.layout.fs) 0 (byte 88) 1 openedTwice).2

def bothWritten : St Ext2.St := (write (ext2 Ext2.Sample.layout.fs) 1 (byte 89) 1 oneWritten).2

/-- The byte that goes through the second one overwrites it. -/
theorem append_overwrites :
    (write (ext2 Ext2.Sample.layout.fs) 0 (byte 88) 1 openedTwice).1 = some 1 ∧
      (write (ext2 Ext2.Sample.layout.fs) 1 (byte 89) 1 oneWritten).1 = some 1 ∧
      (oneWritten.files 1).map File.flags = some (O_WRONLY ||| O_APPEND) ∧
      (oneWritten.files 1).map File.target = some (.inode 2) ∧
      Ext2.Sample.layout.content oneWritten.fs 11 14336 = 88 ∧ Ext2.Sample.layout.content bothWritten.fs 11 14336 = 89 ∧
      ¬Appended Ext2.Sample.layout 2 1 (byte 89) oneWritten.fs bothWritten.fs := by
  refine ⟨by decide +kernel, by decide +kernel, by decide +kernel, by decide +kernel, by decide +kernel,
    by decide +kernel, fun h => ?_⟩
  have h1 : (bothWritten.fs.inodes 2).size ≠ (oneWritten.fs.inodes 2).size + 1 := by decide +kernel
  exact h1 h.size

end Sample

end Vfs
