import Loeux.Lib.Sparse
import Loeux.Ext2.Consistency
/-!
# Files as byte arrays

What `ext2_read_data` returns after a run of calls: each write stores its buffer
in the file it is made on and in no other, and a truncation cuts the array if it
leaves no bytes in a block that stays mapped.
-/
open Lib List

namespace Ext2

open Layout

/-- What a call means for the bytes of object `r`. -/
def Call.apply (r : Nat) (a : Sparse) : Call → Sparse
  | .write r' pos buf count => if r' = r then a.write pos buf count else a
  | .truncate r' size => if r' = r then a.resize size else a
  | _ => a

namespace Layout

variable (L : Layout)

def view (s : St) (r : Nat) : Sparse := ⟨(s.inodes r).size, L.content s (s.ino r)⟩

/-- The logical blocks that a truncation to `size` takes from object `r`. -/
def Cuts (s : St) (r size l : Nat) : Prop :=
  newBlocks L.fs size < blocksOf L.fs (s.inodes r).priv.i_size ∧ newBlocks L.fs size ≤ l ∧
    (l < blocksOf L.fs (s.inodes r).priv.i_size ∨ newBlocks L.fs size = 0)

def Clears (s : St) (r size : Nat) : Prop :=
  ∀ off, size ≤ off → off < L.maxBytes → L.Cuts s r size (off / L.fs.block_size) ∨ L.content s (s.ino r) off = 0

/-- The calls that treat the file of object `r` as a byte array: they keep within the
limit of the block map, what a truncation cuts is gone, and no name of the file is
removed. -/
def Keeps (r : Nat) (m : Mount) : Call → Prop
  | .write r' pos _ count => r' = r → pos + count ≤ L.maxBytes
  | .truncate r' size => r' = r → size ≤ L.maxBytes ∧ L.Clears m.st r size
  | .create dir _ _ => dir ≠ r
  | .mkdir dir _ _ => dir ≠ r
  | .unlink dir name => dir ≠ r ∧ m.st.find L.fs dir name ≠ some (m.st.ino r)
  | .rmdir dir name => dir ≠ r ∧ m.st.find L.fs dir name ≠ some (m.st.ino r)

/-- The file of object `r` shows the array `a`. -/
structure Shows (m : Mount) (r : Nat) (a : Sparse) : Prop where
  mounted : Mounted L False m.held m.st
  held : r ∈ m.held
  size : a.size = (m.st.inodes r).size
  size_le : a.size ≤ L.maxBytes
  data : ∀ off, off < L.maxBytes → a.data off = L.content m.st (m.st.ino r) off

end Layout

section Runs

variable {L : Layout} {m m' : Mount} {r : Nat} {a : Sparse} {c : Call}

theorem Layout.shows_view (h : Mounted L False m.held m.st) (hr : r ∈ m.held) (hsize : (m.st.inodes r).size ≤ L.maxBytes) :
    L.Shows m r (L.view m.st r) :=
  ⟨h, hr, rfl, hsize, fun _ _ => rfl⟩

theorem Layout.Shows.read (h : L.Shows m r a) (pos count : Nat) :
    ((readData L.fs r pos count).run serve m.st).1 = some (a.read pos count) := by
  have hsize := h.size_le
  rw [h.size] at hsize
  obtain ⟨-, hrun⟩ := (wp_world_false _ _ _).1 (readData_slice h.mounted h.held hsize pos count)
  rw [hrun]
  refine congrArg some ?_
  unfold Sparse.read Layout.slice
  rw [h.size]
  refine map_congr_left fun j hj => ?_
  have := mem_range.1 hj
  exact (h.data _ (by omega)).symm

theorem Layout.Truncated.content {cnt : Prop} {held : List Nat} {s s' : St} {size off : Nat}
    (h : L.Truncated cnt held s r size s') (hoff : off < L.maxBytes) :
    (L.Cuts s r size (off / L.fs.block_size) → L.content s' (s.ino r) off = 0) ∧
      (¬L.Cuts s r size (off / L.fs.block_size) → L.content s' (s.ino r) off = L.content s (s.ino r) off) := by
  have hp := h.pointer _ (div_lt_maxBlocks hoff)
  unfold Layout.pointer at hp
  rw [h.data] at hp
  unfold Layout.Cuts Layout.content Layout.byte Layout.blk block
  rw [h.data]
  constructor
  · intro hcut
    rw [if_pos hcut] at hp
    rw [if_pos hp]
    rfl
  · intro hcut
    rw [if_neg hcut] at hp
    rw [hp]

theorem Layout.not_cuts {s : St} {size off : Nat} (hsize : size ≤ L.maxBytes) (hoff : off < size) :
    ¬L.Cuts s r size (off / L.fs.block_size) := by
  rintro ⟨-, hle, -⟩
  have hpos := L.block_size_pos
  have hbs := L.block_size_le
  have hmax := L.maxBytes_lt
  have hnew : newBlocks L.fs size = (size + L.fs.block_size - 1) / L.fs.block_size := by
    have h1 : u64 (size + L.fs.block_size - 1) = size + L.fs.block_size - 1 := Nat.mod_eq_of_lt (by omega)
    have h2 : (size + L.fs.block_size - 1) / L.fs.block_size ≤ L.maxBlocks := by
      rw [Nat.div_le_iff_le_mul_add_pred hpos]
      have : size ≤ L.maxBlocks * L.fs.block_size := hsize
      rw [Nat.mul_comm] at this
      omega
    rw [newBlocks, h1]
    exact Nat.mod_eq_of_lt (h2.trans_lt L.maxBlocks_lt)
  rw [hnew, Nat.div_le_iff_le_mul_add_pred hpos] at hle
  have := Nat.mul_div_le off L.fs.block_size
  omega

section

variable (h : L.Shows m r a)

include h

theorem Layout.Shows.spared {S : Nat → Prop} {held : List Nat}
    (hm : Mounted L False m'.held m'.st) (hr : r ∈ held) (hsub : ∀ r ∈ held, r ∈ m'.held) (hS : ¬S (m.st.ino r))
    (hsp : L.Spares held S m.st (L.vol m'.st).blocks m'.st) : L.Shows m' r a := by
  have hino := hsp.ino r hr (h.mounted.fresh r h.held)
  have hobj := hsp.inodes r hr (by rw [hino]; exact hS)
  refine ⟨hm, hsub r hr, by rw [hobj, h.size], h.size_le, fun off hoff => ?_⟩
  rw [hino, hsp.content (h.mounted.live r h.held) hS hoff]
  exact h.data off hoff

omit h in
theorem Mounted.ino_ne {cnt : Prop} {held : List Nat} {s : St} {r' : Nat} (h : Mounted L cnt held s) (hr : r ∈ held)
    (hr' : r' ∈ held) (hne : r' ≠ r) : s.ino r ≠ s.ino r' := fun e => hne (h.distinct r' hr' r hr e.symm)

theorem Layout.Shows.wrote {pos count : Nat} {buf : Bytes} {s' : St}
    (hw : L.Wrote False m.held m.st r pos (u64 (pos + count)) buf s') (hfit : pos + count ≤ L.maxBytes) :
    L.Shows ⟨s', m.held⟩ r (a.write pos buf count) := by
  have hmax := L.maxBytes_lt
  have hle := h.size_le
  have hstop : u64 (pos + count) = pos + count := Nat.mod_eq_of_lt (by omega)
  rw [hstop] at hw
  refine ⟨hw.mounted, h.held, ?_, ?_, fun off hoff => ?_⟩
  · show max a.size (pos + count) = (s'.inodes r).size
    rw [hw.size, h.size]
    split_ifs <;> omega
  · show max a.size (pos + count) ≤ _
    omega
  · show (if pos ≤ off ∧ off < pos + count then buf (off - pos) else a.data off) = L.content s' (s'.ino r) off
    rw [hw.steady.ino, hw.content hfit off hoff, h.data off hoff]

theorem Layout.Shows.truncated {size : Nat} {s' : St}
    (ht : L.Truncated False m.held m.st r size s') (hsize : size ≤ L.maxBytes) (hclear : L.Clears m.st r size) :
    L.Shows ⟨s', m.held⟩ r (a.resize size) := by
  refine ⟨ht.mounted, h.held, ht.size.symm, hsize, fun off hoff => ?_⟩
  obtain ⟨hcut, hkeep⟩ := ht.content hoff
  show (if off < size then a.data off else 0) = L.content s' (s'.ino r) off
  rw [ht.steady.ino]
  split_ifs with hlt
  · rw [hkeep (not_cuts hsize hlt), h.data off hoff]
  · by_cases hc : L.Cuts m.st r size (off / L.fs.block_size)
    · rw [hcut hc]
    · rw [hkeep hc, (hclear off (Nat.not_lt.1 hlt) hoff).resolve_left hc]

theorem Layout.Shows.not_makes {dir : Nat} (hdir : dir ∈ m.held) (hne : dir ≠ r) : ¬L.Makes m.st dir (m.st.ino r) := by
  rintro (e | hl)
  · exact h.mounted.ino_ne h.held hdir hne e
  · exact hl (h.mounted.live r h.held)

theorem Layout.Shows.not_removes {dir n : Nat} {name : List UInt8} (hdir : dir ∈ m.held)
    (hf : m.st.find L.fs dir name = some n) (hk : dir ≠ r ∧ m.st.find L.fs dir name ≠ some (m.st.ino r)) :
    r ∈ m.st.besides m.held n ∧ ¬Removes m.st dir n (m.st.ino r) := by
  have hne : m.st.ino r ≠ n := fun e => hk.2 (by rw [e]; exact hf)
  refine ⟨St.mem_besides.2 ⟨h.held, hne⟩, ?_⟩
  rintro (e | e)
  · exact h.mounted.ino_ne h.held hdir hk.1 e
  · exact hne e

theorem Step.shows (hs : L.Safe m c) (hk : L.Keeps r m c) (hstep : Step L.fs m c m') : L.Shows m' r (c.apply r a) := by
  have hm' := hstep.mounted h.mounted hs fun hF => hF.elim
  obtain ⟨hobj, hdo⟩ := hstep
  cases hdo with
  | @create dir name mode r1 s' he =>
    obtain ⟨-, hsp, -⟩ := run_of_wp (create_run h.mounted hobj name mode) he r1 rfl
    exact h.spared hm' h.held (fun _ => mem_cons_of_mem _) (h.not_makes hobj hk) hsp
  | @mkdir dir name mode r1 s' he =>
    obtain ⟨-, hsp, -⟩ := run_of_wp (mkdir_run h.mounted hobj name mode) he r1 rfl
    exact h.spared hm' h.held (fun _ => mem_cons_of_mem _) (h.not_makes hobj hk) hsp
  | @unlink dir name n s' hf he =>
    obtain ⟨n', hn', -, hsp⟩ := run_of_wp (unlink_run h.mounted hobj name hs fun _ _ hF => hF.elim) he rfl
    obtain rfl := Option.some.inj (hf.symm.trans hn')
    obtain ⟨hr, hS⟩ := h.not_removes hobj hf hk
    exact h.spared hm' hr (fun _ => id) hS hsp
  | @rmdir dir name n s' hf he =>
    obtain ⟨n', hn', -, hsp⟩ := run_of_wp (rmdir_run h.mounted hobj name hs fun _ _ hF => hF.elim) he rfl
    obtain rfl := Option.some.inj (hf.symm.trans hn')
    obtain ⟨hr, hS⟩ := h.not_removes hobj hf hk
    exact h.spared hm' hr (fun _ => id) hS hsp
  | @write r' pos buf count c s' he =>
    obtain ⟨-, hw, -⟩ := run_of_wp (writeData_run h.mounted hobj pos buf count) he _ rfl
    by_cases e : r' = r
    · subst e
      simp only [Call.apply, if_true]
      exact h.wrote hw (hk rfl)
    · simp only [Call.apply, e, if_false]
      exact h.spared (S := (· = m.st.ino r')) hm' h.held (fun _ => id) (h.mounted.ino_ne h.held hobj e) hw.spares
  | @truncate r' size s' he =>
    have ht := run_of_wp (truncate_run h.mounted hobj size (hs.imp id fun hs l h1 h2 h3 h4 => hs l ⟨h1, h2, h3, h4⟩)
      fun hF => hF.elim) he rfl
    by_cases e : r' = r
    · subst e
      simp only [Call.apply, if_true]
      exact h.truncated ht (hk rfl).1 (hk rfl).2
    · simp only [Call.apply, e, if_false]
      exact h.spared (S := (· = m.st.ino r')) hm' h.held (fun _ => id) (h.mounted.ino_ne h.held hobj e) ht.spares

end

variable (L) in
def Layout.Writing (_ : Mount) (c : Call) : Prop :=
  ∃ r pos buf count, c = .write r pos buf count ∧ pos + count ≤ L.maxBytes

/-- The file's bytes at the start: those below its size, and zeros. -/
def Layout.initial (L : Layout) (s : St) (r : Nat) : Sparse := (L.view s r).resize (s.inodes r).size

/-- Behind the size of the file its blocks hold zeros. -/
def Layout.ZeroTail (L : Layout) (s : St) (r : Nat) : Prop :=
  ∀ off, (s.inodes r).size ≤ off → off < L.maxBytes → L.content s (s.ino r) off = 0

theorem Layout.shows_initial (h : Mounted L False m.held m.st) (hr : r ∈ m.held) (hsize : (m.st.inodes r).size ≤ L.maxBytes)
    (hzero : L.ZeroTail m.st r) : L.Shows m r (L.initial m.st r) := by
  refine ⟨h, hr, rfl, hsize, fun off hoff => ?_⟩
  show (if off < (m.st.inodes r).size then L.content m.st (m.st.ino r) off else 0) = _
  split_ifs with hlt
  · rfl
  · exact (hzero off (Nat.not_lt.1 hlt) hoff).symm

/-- After a run of writes to any files, each file whose blocks hold zeros behind its size has the bytes it had at the
start with each write to it stored at its position and zeros elsewhere, and its size is the largest of the old one and
the ends of these writes. -/
theorem writes_run_read {cs : List Call} (h : Mounted L False m.held m.st)
    (hrun : Run (Guarded L.Writing (Step L.fs)) m cs m') (hr : r ∈ m.held)
    (hsize : (m.st.inodes r).size ≤ L.maxBytes) (hzero : L.ZeroTail m.st r) :
    (m'.st.inodes r).size = (cs.foldl (Call.apply r) (L.initial m.st r)).size ∧
      ∀ pos count, ((readData L.fs r pos count).run serve m'.st).1 =
        some ((cs.foldl (Call.apply r) (L.initial m.st r)).read pos count) := by
  have hshows := hrun.simulate (Call.apply r) (fun m a => L.Shows m r a) (fun m a c m' hR hw hstep => by
    obtain ⟨r', pos, buf, count, rfl, hfit⟩ := hw
    exact hstep.shows hR trivial fun _ => hfit) (shows_initial h hr hsize hzero)
  exact ⟨hshows.size.symm, hshows.read⟩

variable (L) in
/-- The calls after a truncation: the file is truncated again only to grow, or
again so that what is cut is gone. -/
def Layout.Later (r : Nat) (m : Mount) : Call → Prop
  | .truncate r' size => r' = r → size ≤ L.maxBytes ∧ ((m.st.inodes r).size ≤ size ∨ L.Clears m.st r size)
  | c => L.Keeps r m c

theorem Layout.Shows.keeps_of_later (h : L.Shows m r a) (hclear : a.Clear) (hl : L.Later r m c) : L.Keeps r m c := by
  cases c with
  | truncate r' size =>
    intro e
    obtain ⟨hsize, hgrow | hc⟩ := hl e
    · refine ⟨hsize, fun off hoff hmax => .inr ?_⟩
      rw [← h.data off hmax]
      refine hclear off ?_
      rw [h.size]
      exact hgrow.trans hoff
    · exact ⟨hsize, hc⟩
  | _ => exact hl

theorem Call.apply_clear (hclear : a.Clear) (c : Call) : (c.apply r a).Clear := by
  cases c with
  | write r' pos buf count =>
    by_cases e : r' = r
    · simp only [Call.apply, e, if_true]
      exact hclear.write pos buf count
    · simp only [Call.apply, e, if_false]
      exact hclear
  | truncate r' size =>
    by_cases e : r' = r
    · simp only [Call.apply, e, if_true]
      exact a.clear_resize size
    · simp only [Call.apply, e, if_false]
      exact hclear
  | _ => exact hclear

/-- After any run of calls whose truncations leave no bytes in blocks that stay mapped, what is read is what was left
of the old bytes, what was written since, and zeros. -/
theorem truncate_run_read {size : Nat} {m₁ : Mount} {cs : List Call} (h : Mounted L False m.held m.st)
    (hr : r ∈ m.held) (hold : (m.st.inodes r).size ≤ L.maxBytes) (hsize : size ≤ L.maxBytes)
    (hsafe : L.Safe m (.truncate r size)) (hclear : L.Clears m.st r size)
    (hcut : Step L.fs m (.truncate r size) m₁)
    (hrun : Run (Guarded (fun m c => L.Safe m c ∧ L.Later r m c) (Step L.fs)) m₁ cs m') :
    ∀ pos count, ((readData L.fs r pos count).run serve m'.st).1 =
      some ((cs.foldl (Call.apply r) ((L.view m.st r).resize size)).read pos count) := by
  have h1 : L.Shows m₁ r ((L.view m.st r).resize size) := by
    have := hcut.shows (shows_view h hr hold) hsafe fun _ => ⟨hsize, hclear⟩
    simpa only [Call.apply, if_true] using this
  have hshows := hrun.simulate (Call.apply r) (fun m a => L.Shows m r a ∧ a.Clear) (fun m a c m' hR hg hstep =>
    ⟨hstep.shows hR.1 hg.1 (hR.1.keeps_of_later hR.2 hg.2), c.apply_clear hR.2⟩) ⟨h1, Sparse.clear_resize _ _⟩
  exact hshows.1.read

end Runs

namespace Sample

set_option maxRecDepth 100000

def byte (b : UInt8) : Bytes := fun _ => b

def written (m : Mount) (pos : Nat) (b : UInt8) : Mount :=
  ⟨((writeData layout.fs 0 pos (byte b) 1).run serve m.st).2, m.held⟩

theorem written_step {m : Mount} {pos : Nat} {b : UInt8} (hr : 0 ∈ m.held)
    (h : ((writeData layout.fs 0 pos (byte b) 1).run serve m.st).1 = some 1) :
    Step layout.fs m (.write 0 pos (byte b) 1) (written m pos b) := ⟨hr, .write (Prod.ext h rfl)⟩

theorem uncounted : Mounted layout False mount.held mount.st := { mounted with counted := fun h => h.elim }

theorem pointer_zero {l : Nat} (h14 : 14 ≤ l) : layout.pointer st 11 l = 0 := by
  have hp : layout.fs.ptrs_per_block = 256 := rfl
  unfold Layout.pointer Layout.slotOf
  rw [if_neg (by omega), hp]
  split_ifs with h
  · rw [ptr_cons]
    split_ifs
    · rfl
    · by_contra hne
      have := entry_eq (l - 12) (by omega) hne
      omega
  · rw [ptr_cons, ptr_cons, if_pos (if_pos (by decide))]

/-- The file ends with its last mapped block. -/
theorem zero_tail : layout.ZeroTail st 0 := by
  intro off hoff _
  have hoff : 14336 ≤ off := hoff
  have hbs : layout.fs.block_size = 1024 := rfl
  have h := pointer_zero (l := off / layout.fs.block_size) (by rw [hbs]; omega)
  unfold Layout.pointer at h
  have hino : st.ino 0 = 11 := by decide
  rw [hino]
  unfold Layout.content Layout.byte Layout.blk block
  rw [if_pos h]
  rfl

/-- Two writes that overlap, then one behind the end, which leaves a hole. -/
theorem written_run : Run (Guarded layout.Writing (Step layout.fs)) mount
    [.write 0 0 (byte 88) 1, .write 0 0 (byte 89) 1, .write 0 14338 (byte 90) 1]
    (written (written (written mount 0 88) 0 89) 14338 90) :=
  .cons ⟨⟨0, 0, byte 88, 1, rfl, by decide⟩, written_step mem_cons_self (by decide)⟩ <|
    .cons ⟨⟨0, 0, byte 89, 1, rfl, by decide⟩, written_step mem_cons_self (by decide +kernel)⟩ <|
    .one ⟨⟨0, 14338, byte 90, 1, rfl, by decide⟩, written_step mem_cons_self (by decide +kernel)⟩

theorem written_read : ((readData layout.fs 0 14336 3).run serve (written (written (written mount 0 88) 0 89) 14338 90).st).1 =
    some ([Call.write 0 0 (byte 88) 1, .write 0 0 (byte 89) 1, .write 0 14338 (byte 90) 1].foldl (Call.apply 0)
      (layout.initial st 0) |>.read 14336 3) :=
  (writes_run_read uncounted written_run mem_cons_self (by decide) zero_tail).2 14336 3

/-- The file ends inside its last block. A byte is written behind its end, and the byte before that one, which is no
byte of the file and which the run does not write, is not 0. -/
theorem write_shows_tail : Mounted layout False (cut 14334).held (cut 14334).st ∧ ((cut 14334).st.inodes 0).size = 14334 ∧
    Run (Guarded layout.Writing (Step layout.fs)) (cut 14334) [.write 0 14335 (byte 88) 1] (written (cut 14334) 14335 88) ∧
    ((readData layout.fs 0 14334 1).run serve (written (cut 14334) 14335 88).st).1 = some [66] := by
  refine ⟨?_, by decide, .one ⟨⟨0, 14335, byte 88, 1, rfl, by decide⟩, written_step mem_cons_self (by decide +kernel)⟩,
    by decide +kernel⟩
  have hsafe : layout.Safe mount (.truncate 0 14334) :=
    Or.inr fun l hl => absurd (hl.2.1.trans_lt hl.2.2.1) (by decide)
  exact (cut_step (by decide)).mounted uncounted hsafe fun hF => hF.elim

/-- The file is cut to nothing and then written again, behind its end. -/
theorem cut_written_read : ((readData layout.fs 0 0 6).run serve (written (cut 0) 5 88).st).1 =
    some ((Call.apply 0 ((layout.view st 0).resize 0) (.write 0 5 (byte 88) 1)).read 0 6) := by
  have hclear : layout.Clears mount.st 0 0 := fun off _ _ => .inl ⟨by decide +kernel, Nat.zero_le _, .inr (by decide +kernel)⟩
  have hrun : Run (Guarded (fun m c => layout.Safe m c ∧ layout.Later 0 m c) (Step layout.fs)) (cut 0)
      [.write 0 5 (byte 88) 1] (written (cut 0) 5 88) := by
    have hfit : 5 + 1 ≤ layout.maxBytes := by decide
    exact .one ⟨⟨trivial, fun _ => hfit⟩, written_step mem_cons_self (by decide +kernel)⟩
  exact truncate_run_read uncounted mem_cons_self (by decide +kernel) (Nat.zero_le _) (.inl (by decide +kernel))
    hclear (cut_step (by decide)) hrun 0 6

/-- The last byte of the file is cut and the file grows again by one: the byte is
still there. -/
def regrown : Mount := ⟨((truncate layout.fs 0 14336).run serve (cut 14335).st).2, mount.held⟩

theorem truncate_leaves_tail : Mounted layout True mount.held mount.st ∧
    Run (Step layout.fs) mount [.truncate 0 14335, .truncate 0 14336] regrown ∧
    ((readData layout.fs 0 14335 1).run serve regrown.st).1 = some [66] := by
  refine ⟨mounted, .cons (cut_step (by decide)) (.one ⟨mem_cons_self, ?_⟩), by decide⟩
  exact .truncate_of (m := cut 14335) (by decide)

end Sample

end Ext2
