import Loeux.Ext2.Consistency
/-!
# Errors while a file is read

On a machine that may refuse any transfer and any allocation, what
`ext2_read_data` delivers when it reports success, and whether it met an error on
the way. An error in reading the last pointer block above a data block is dropped,
so no error is lost exactly when no block of the range is below a pointer block.
-/
open Lib List Prog Nat

namespace Ext2

open Layout

namespace Layout

variable (L : Layout)

def raw (s : St) : Vol := { L.vol s with data := s.disk }

def fileBytes (s : St) (r pos m : Nat) : List UInt8 := L.bytes (s.objectPtrs r) (L.raw s) 0 pos m

/-- There is a pointer block whose entry names logical block `l`. -/
def Through (s : St) (r l : Nat) : Prop :=
  match L.slotOf 0 l with
  | (_, []) => False
  | (k, _ :: p) => ptr (s.objectPtrs r) s.disk (k, p) ≠ 0

end Layout

/-- The operations that change the device, an object or a counter. -/
def Op.changes : Op → Bool
  | .write _ _ | .update _ _ | .create _ | .advance _ _ | .free_blocks _ | .free_inodes _ => true
  | _ => false

/-- The machine of `world`, with a note whether it has refused an operation or an operation has changed anything. -/
def watched (F : Prop) : Prog.Demon Ans (St × Bool) := fun e Q x =>
  Q (serve e x.1).1 ((serve e x.1).2, x.2 || e.changes) ∧ ∀ a, refusal e = some a → F → x.1.crit = 0 → Q a (x.1, true)

theorem watched_mono (F : Prop) : Prog.Demon.Mono (watched F) := by
  rintro e Q Q' s hQ ⟨hs, hr⟩
  exact ⟨hQ _ _ hs, fun a ha hF hc => hQ _ _ (hr a ha hF hc)⟩

section

variable {L : Layout} {F : Prop} {s : St} {r l : Nat} {b : Bool}

theorem watched_readBlock (blk : Nat) (Q : Option Bytes → St × Bool → Prop) :
    wp (watched F) (readBlock blk) Q (s, b) ↔ Q (some (s.disk blk)) (s, b) ∧ (F → s.crit = 0 → Q none (s, true)) := by
  simp [readBlock, watched, serve, refusal, Op.changes]

theorem watched_slabAlloc (Q : Bool → St × Bool → Prop) :
    wp (watched F) slabAlloc Q (s, b) ↔ Q true (s, b) ∧ (F → s.crit = 0 → Q false (s, true)) := by
  simp [slabAlloc, watched, serve, refusal, Op.changes]

theorem watched_inodeAt (Q : Inode → St × Bool → Prop) :
    wp (watched F) (inodeAt r) Q (s, b) ↔ Q (s.inodes r) (s, b) := by
  simp [inodeAt, watched, serve, refusal, Op.changes]

theorem watched_indGet (P i : Nat) (Q : Option Nat → St × Bool → Prop) :
    wp (watched F) (indGet P i) Q (s, b) ↔
      Q (some (entry s.disk P i)) (s, b) ∧ (F → s.crit = 0 → Q none (s, true)) := by
  simp [indGet, entry, watched_slabAlloc, watched_readBlock]

theorem wp_getBlock (hl : l < L.maxBlocks) (Q : Option Nat → St × Bool → Prop) :
    wp (watched F) (getBlock L.fs r l false) Q (s, b) ↔
      Q (some (ptr (s.objectPtrs r) s.disk (L.slotOf 0 l))) (s, b) ∧
        (F → s.crit = 0 → (L.Through s r l → Q (some 0) (s, true)) ∧
          (12 + L.fs.ptrs_per_block ≤ l → (s.inodes r).priv.i_block EXT2_DIND_BLOCK ≠ 0 → Q none (s, true))) := by
  have hmax := L.maxBlocks_eq
  rw [hmax] at hl
  unfold getBlock Layout.Through Layout.slotOf
  by_cases h1 : l < 12
  · have h2 : ¬12 + L.fs.ptrs_per_block ≤ l := by omega
    simp [h1, h2, iBlock, watched_inodeAt]
    rfl
  by_cases h2 : l < 12 + L.fs.ptrs_per_block
  · have h3 : ¬12 + L.fs.ptrs_per_block ≤ l := by omega
    simp only [h1, h2, if_true, if_false, Bool.false_eq_true, iBlock, wp_bind, watched_inodeAt, wp_pure, ptr_cons]
    have hroot : ptr (s.objectPtrs r) s.disk ((0, EXT2_IND_BLOCK), []) = (s.inodes r).priv.i_block EXT2_IND_BLOCK := rfl
    rw [hroot]
    by_cases h0 : (s.inodes r).priv.i_block EXT2_IND_BLOCK = 0
    · simp [h0, h3]
    · simp [h0, h3, watched_indGet]
  · have h3 : 12 + L.fs.ptrs_per_block ≤ l := by omega
    simp only [h1, h2, h3, hl, if_true, if_false, Bool.false_eq_true, iBlock, wp_bind, watched_inodeAt, wp_pure, true_implies]
    set i1 := (l - (12 + L.fs.ptrs_per_block)) / L.fs.ptrs_per_block
    set i2 := (l - (12 + L.fs.ptrs_per_block)) % L.fs.ptrs_per_block
    have e1 := @ptr_cons (s.objectPtrs r) s.disk (0, EXT2_DIND_BLOCK) i1 []
    have e2 := @ptr_cons (s.objectPtrs r) s.disk (0, EXT2_DIND_BLOCK) i2 [i1]
    have hroot : ptr (s.objectPtrs r) s.disk ((0, EXT2_DIND_BLOCK), []) = (s.inodes r).priv.i_block EXT2_DIND_BLOCK := rfl
    rw [hroot] at e1
    by_cases h0 : (s.inodes r).priv.i_block EXT2_DIND_BLOCK = 0
    · rw [if_pos h0] at e1
      rw [if_pos e1] at e2
      simp [h0, e1, e2]
    · rw [if_neg h0] at e1
      simp only [h0, if_false, wp_bind, watched_indGet, true_implies, ne_eq, not_false_eq_true, ← e1]
      by_cases h4 : ptr (s.objectPtrs r) s.disk ((0, EXT2_DIND_BLOCK), [i1]) = 0
      · rw [if_pos h4] at e2
        simp [h4, e2]
      · rw [if_neg h4] at e2
        simp only [h4, e2, watched_indGet, if_false, wp_bind, wp_pure, not_false_eq_true, true_implies, Option.getD_some, Option.getD_none]
        tauto

theorem wp_getBlock_beyond (hl : L.maxBlocks ≤ l) (Q : Option Nat → St × Bool → Prop) :
    wp (watched F) (getBlock L.fs r l false) Q (s, b) ↔ Q none (s, b) := by
  have hmax := L.maxBlocks_eq
  have h1 : ¬l < 12 := by omega
  have h2 : ¬l < 12 + L.fs.ptrs_per_block := by omega
  have h3 : ¬l < 12 + L.fs.ptrs_per_block + L.fs.ptrs_per_block * L.fs.ptrs_per_block := by omega
  unfold getBlock
  simp only [h1, h2, h3, if_false, wp_pure]

theorem Layout.fileBytes_eq {pos m : Nat} (hm : pos % L.fs.block_size + m ≤ L.fs.block_size) :
    L.fileBytes s r pos m = (List.range m).map fun i =>
      block (s.objectPtrs r) s.disk (L.slotOf 0 (pos / L.fs.block_size)) (pos % L.fs.block_size + i) := by
  unfold Layout.fileBytes
  rw [bytes_eq _ hm]
  rfl

theorem map_zero (m : Nat) : ((List.range m).map fun _ => (0 : UInt8)) = List.replicate m 0 := by
  rw [map_const', length_range]

def Layout.round (L : Layout) (pos remaining : Nat) : Nat :=
  if remaining < L.fs.block_size - pos % L.fs.block_size then remaining else L.fs.block_size - pos % L.fs.block_size

theorem Layout.round_spec (L : Layout) (pos : Nat) {remaining : Nat} (h0 : remaining ≠ 0) :
    0 < L.round pos remaining ∧ pos % L.fs.block_size + L.round pos remaining ≤ L.fs.block_size ∧ L.round pos remaining ≤ remaining := by
  have hmod := mod_lt pos L.block_size_pos
  unfold Layout.round
  split_ifs <;> omega

theorem Layout.div_round {pos i : Nat} (hi : pos % L.fs.block_size + i < L.fs.block_size) :
    (pos + i) / L.fs.block_size = pos / L.fs.block_size := by
  have h1 := div_add_mod pos L.fs.block_size
  refine Nat.div_eq_of_lt_le ?_ ?_
  · rw [Nat.mul_comm]
    omega
  · rw [Nat.add_mul, Nat.one_mul, Nat.mul_comm]
    omega

variable {fuel pos remaining : Nat}

theorem wp_readRound (hc : s.crit = 0) (h0 : remaining ≠ 0) (hl : pos / L.fs.block_size < L.maxBlocks)
    (out : List UInt8) (Q : Option (List UInt8) → St × Bool → Prop) :
    wp (watched True) (readFrom L.fs r (fuel + 1) pos remaining out) Q (s, b) ↔
      wp (watched True) (readFrom L.fs r fuel (pos + L.round pos remaining) (remaining - L.round pos remaining)
        (out ++ L.fileBytes s r pos (L.round pos remaining))) Q (s, b) ∧
      (ptr (s.objectPtrs r) s.disk (L.slotOf 0 (pos / L.fs.block_size)) ≠ 0 → Q none (s, true)) ∧
      (L.Through s r (pos / L.fs.block_size) →
        wp (watched True) (readFrom L.fs r fuel (pos + L.round pos remaining) (remaining - L.round pos remaining)
          (out ++ List.replicate (L.round pos remaining) 0)) Q (s, true)) ∧
      (12 + L.fs.ptrs_per_block ≤ pos / L.fs.block_size → (s.inodes r).priv.i_block EXT2_DIND_BLOCK ≠ 0 →
        Q none (s, true)) := by
  obtain ⟨-, hfit, -⟩ := L.round_spec pos h0
  have h32 : u32 (pos / L.fs.block_size) = pos / L.fs.block_size := mod_eq_of_lt (hl.trans maxBlocks_lt)
  rw [fileBytes_eq hfit]
  conv_lhs => unfold readFrom
  rw [if_neg h0]
  simp only [wp_bind, h32]
  rw [wp_getBlock hl]
  simp only [hc, true_implies]
  unfold block
  by_cases hp : ptr (s.objectPtrs r) s.disk (L.slotOf 0 (pos / L.fs.block_size)) = 0
  · simp only [hp, if_true, Bytes.zero, map_zero, ne_eq, not_true_eq_false, false_implies, true_and]
    rfl
  · simp only [hp, if_false, wp_bind, watched_readBlock, ne_eq, not_false_eq_true, true_implies, hc, if_true, and_assoc]
    rfl

theorem readFrom_beyond (hc : s.crit = 0) (h0 : remaining ≠ 0) (hfuel : remaining ≤ fuel)
    (hend : pos + remaining ≤ L.fs.block_size * 2 ^ 32) (hbeyond : L.maxBytes < pos + remaining) (out : List UInt8) :
    wp (watched True) (readFrom L.fs r fuel pos remaining out) (fun a _ => a = none) (s, b) := by
  induction fuel generalizing pos remaining out b with
  | zero => omega
  | succ fuel ih =>
    obtain ⟨hpos, hfit, hle⟩ := L.round_spec pos h0
    rcases Nat.lt_or_ge (pos / L.fs.block_size) L.maxBlocks with hl | hl
    · -- the block ends within the limit, so something is left
      have hleft : pos + L.round pos remaining ≤ L.maxBytes := by
        have h1 := div_add_mod pos L.fs.block_size
        have h2 : L.fs.block_size * (pos / L.fs.block_size + 1) ≤ L.fs.block_size * L.maxBlocks := Nat.mul_le_mul_left _ hl
        have h3 : L.maxBytes = L.fs.block_size * L.maxBlocks := Nat.mul_comm _ _
        rw [Nat.mul_add, Nat.mul_one] at h2
        omega
      have hnext := fun b out => @ih b (pos + L.round pos remaining) (remaining - L.round pos remaining) (by omega) (by omega)
        (by omega) (by omega) out
      exact (wp_readRound hc h0 hl out _).2 ⟨hnext _ _, fun _ => rfl, fun _ => hnext _ _, fun _ _ => rfl⟩
    · have hlt : pos / L.fs.block_size < 2 ^ 32 := (Nat.div_lt_iff_lt_mul L.block_size_pos).2 (by rw [Nat.mul_comm]; omega)
      have h32 : u32 (pos / L.fs.block_size) = pos / L.fs.block_size := mod_eq_of_lt hlt
      unfold readFrom
      rw [if_neg h0]
      simp only [wp_bind, h32]
      rw [wp_getBlock_beyond hl]
      rfl

theorem Layout.fileBytes_round (h0 : remaining ≠ 0) : L.fileBytes s r pos remaining =
    L.fileBytes s r pos (L.round pos remaining) ++
      L.fileBytes s r (pos + L.round pos remaining) (remaining - L.round pos remaining) := by
  obtain ⟨-, -, hle⟩ := L.round_spec pos h0
  unfold Layout.fileBytes
  rw [← bytes_append, Nat.add_sub_cancel' hle]

theorem readFrom_right (hc : s.crit = 0) (hfuel : remaining ≤ fuel) (hend : pos + remaining ≤ L.maxBytes)
    (ht : ∀ off, pos ≤ off → off < pos + remaining → ¬L.Through s r (off / L.fs.block_size)) (out : List UInt8) :
    wp (watched True) (readFrom L.fs r fuel pos remaining out)
      (fun a x => ∀ bytes, a = some bytes → bytes = out ++ L.fileBytes s r pos remaining ∧ x.2 = false) (s, false) := by
  induction fuel generalizing pos remaining out with
  | zero =>
    obtain rfl : remaining = 0 := by omega
    simp [readFrom, Layout.fileBytes, Layout.bytes]
  | succ fuel ih =>
    by_cases h0 : remaining = 0
    · subst h0
      unfold readFrom
      simp [Layout.fileBytes, Layout.bytes]
    obtain ⟨hpos, -, hle⟩ := L.round_spec pos h0
    have hnext := @ih (pos + L.round pos remaining) (remaining - L.round pos remaining) (by omega) (by omega)
      (fun off h1 h2 => ht off (by omega) (by omega)) (out ++ L.fileBytes s r pos (L.round pos remaining))
    rw [append_assoc, ← fileBytes_round h0] at hnext
    exact (wp_readRound hc h0 (div_lt_maxBlocks (by omega)) out _).2 ⟨hnext, fun _ _ h => (by cases h),
      fun h => absurd h (ht pos (Nat.le_refl _) (by omega)), fun _ _ _ h => (by cases h)⟩

/-- Without a further error the read succeeds. -/
theorem readFrom_good (hc : s.crit = 0) (hfuel : remaining ≤ fuel) (hend : pos + remaining ≤ L.maxBytes)
    (out : List UInt8) {Q : Option (List UInt8) → St × Bool → Prop}
    (h : wp (watched True) (readFrom L.fs r fuel pos remaining out) Q (s, b)) :
    Q (some (out ++ L.fileBytes s r pos remaining)) (s, b) := by
  induction fuel generalizing pos remaining out with
  | zero =>
    obtain rfl : remaining = 0 := by omega
    simpa [readFrom, Layout.fileBytes, Layout.bytes] using h
  | succ fuel ih =>
    by_cases h0 : remaining = 0
    · subst h0
      unfold readFrom at h
      simpa [Layout.fileBytes, Layout.bytes] using h
    obtain ⟨hpos, -, hle⟩ := L.round_spec pos h0
    obtain ⟨hgood, -⟩ := (wp_readRound hc h0 (div_lt_maxBlocks (by omega)) out _).1 h
    rw [fileBytes_round h0, ← append_assoc]
    exact @ih (pos + L.round pos remaining) _ (by omega) (by omega) _ hgood

/-- The error at the pointer block above a byte of the range is lost. -/
theorem readFrom_lost {off : Nat} (hc : s.crit = 0) (hfuel : remaining ≤ fuel) (hend : pos + remaining ≤ L.maxBytes)
    (h1 : pos ≤ off) (h2 : off < pos + remaining) (ht : L.Through s r (off / L.fs.block_size)) (out : List UInt8)
    {Q : Option (List UInt8) → St × Bool → Prop} (h : wp (watched True) (readFrom L.fs r fuel pos remaining out) Q (s, b)) :
    ∃ bytes, Q (some bytes) (s, true) := by
  induction fuel generalizing pos remaining out with
  | zero => omega
  | succ fuel ih =>
    have h0 : remaining ≠ 0 := by omega
    obtain ⟨hpos, hfit, hle⟩ := L.round_spec pos h0
    obtain ⟨hgood, -, hlost, -⟩ := (wp_readRound hc h0 (div_lt_maxBlocks (by omega)) out _).1 h
    rcases Nat.lt_or_ge off (pos + L.round pos remaining) with hin | hout
    · have hdiv : off / L.fs.block_size = pos / L.fs.block_size := by
        obtain ⟨i, rfl⟩ := Nat.exists_eq_add_of_le h1
        exact div_round (by omega)
      exact ⟨_, readFrom_good hc (by omega) (by omega) _ (hlost (hdiv ▸ ht))⟩
    · exact @ih (pos + L.round pos remaining) (remaining - L.round pos remaining) (by omega) (by omega) hout (by omega) _
        hgood

/-! ## Reading a file -/

/-- How many bytes a read is to deliver. -/
def St.available (s : St) (r pos count : Nat) : Nat := min count ((s.inodes r).size - pos)

variable (L s r) in
/-- Whatever transfers and allocations fail, a read that reports success has delivered the bytes of the file, and
nothing has failed while it ran. -/
def Layout.ReadsRight (pos count : Nat) : Prop :=
  Prog.wp (watched True) (readData L.fs r pos count)
    (fun a x => ∀ bytes, a = some bytes →
      bytes = L.fileBytes s r pos (s.available r pos count) ∧ x.2 = false) (s, false)

theorem St.available_eq (pos count : Nat) :
    (if (s.inodes r).size - pos < count then (s.inodes r).size - pos else count) = s.available r pos count := by
  unfold St.available
  split_ifs <;> omega

theorem Layout.ReadsRight.not_through {pos count off : Nat} (h : L.ReadsRight s r pos count) (hc : s.crit = 0)
    (hmax : pos + s.available r pos count ≤ L.maxBytes) (h1 : pos ≤ off) (h2 : off < pos + s.available r pos count) :
    ¬L.Through s r (off / L.fs.block_size) := by
  intro ht
  have hle : ¬(s.inodes r).size ≤ pos := by
    unfold St.available at h2
    omega
  unfold Layout.ReadsRight at h
  simp only [readData, wp_bind, watched_inodeAt, if_neg hle, St.available_eq, watched_slabAlloc, if_not_true] at h
  obtain ⟨bytes, hlost⟩ := readFrom_lost hc (Nat.le_refl _) hmax h1 h2 ht [] h.1
  exact Bool.noConfusion (hlost bytes rfl).2

/-- Every successful read delivers the bytes of the file and has met no error, if and only if the range goes beyond
what can be mapped or has no block below a pointer block. -/
theorem reads_right_iff (hc : s.crit = 0) (hsize : (s.inodes r).size ≤ L.fs.block_size * 2 ^ 32) (pos count : Nat) :
    L.ReadsRight s r pos count ↔
      (pos + s.available r pos count ≤ L.maxBytes → ∀ off, pos ≤ off → off < pos + s.available r pos count →
        ¬L.Through s r (off / L.fs.block_size)) := by
  refine ⟨fun h hmax off h1 h2 => h.not_through hc hmax h1 h2, fun h => ?_⟩
  unfold Layout.ReadsRight
  simp only [readData, wp_bind, watched_inodeAt]
  by_cases hle : (s.inodes r).size ≤ pos
  · have h0 : s.available r pos count = 0 := by
      unfold St.available
      omega
    rw [if_pos hle, h0]
    simp [Layout.fileBytes, Layout.bytes]
  have hend : pos + s.available r pos count ≤ L.fs.block_size * 2 ^ 32 := by
    unfold St.available
    omega
  rw [if_neg hle, St.available_eq]
  simp only [wp_bind, watched_slabAlloc, Bool.not_true, Bool.not_false, Bool.false_eq_true, if_false, if_true,
    hc, true_implies, wp_pure]
  refine ⟨?_, fun _ h => (by cases h)⟩
  rcases Nat.lt_or_ge L.maxBytes (pos + s.available r pos count) with hbeyond | hmax
  · by_cases h0 : s.available r pos count = 0
    · rw [h0]
      simp [readFrom, Layout.fileBytes, Layout.bytes]
    · refine wp_mono (watched_mono True) (fun a _ ha bytes hb => ?_) (readFrom_beyond hc h0 (Nat.le_refl _) hend hbeyond [])
      rw [ha] at hb
      cases hb
  · exact readFrom_right hc (Nat.le_refl _) hmax (h hmax) []

end

namespace Sample

set_option maxRecDepth 100000

/-- A machine on which the read of the indirect block of the file fails. -/
def pointerLost : Prog.Handler Ans St
  | .read 7, s => (none, s)
  | e, s => serve e s

/-- The byte behind the indirect block is delivered as zero. -/
theorem pointer_error_read_as_zero : st.crit = 0 ∧ (st.inodes 0).size ≤ layout.fs.block_size * 2 ^ 32 ∧
    layout.fileBytes st 0 12288 1 = [65] ∧ ((readData layout.fs 0 12288 1).run pointerLost st).1 = some [0] ∧
    ¬layout.ReadsRight st 0 12288 1 := by
  refine ⟨rfl, by decide, by decide, by decide, fun h => ?_⟩
  have hthrough : layout.Through st 0 (12288 / layout.fs.block_size) :=
    show ptr (st.objectPtrs 0) st.disk ((0, 12), []) ≠ 0 by decide
  exact h.not_through rfl (by decide) (Nat.le_refl _) (by decide) hthrough

/-- The file without its indirect block. -/
def sparse : St := st.modify 0 fun i => { i with priv.i_block := Function.update i.priv.i_block 12 0 }

/-- The range goes from the last direct block to the first two behind it, which have no pointer block. -/
theorem sparse_reads_right : sparse.crit = 0 ∧ (sparse.inodes 0).size ≤ layout.fs.block_size * 2 ^ 32 ∧
    layout.ReadsRight sparse 0 12000 2336 := by
  refine ⟨rfl, by decide, (reads_right_iff rfl (by decide) 12000 2336).2 fun _ off h1 h2 => ?_⟩
  have hav : sparse.available 0 12000 2336 = 2336 := by decide
  have hnone : ∀ l, 11 ≤ l → l < 14 → ¬layout.Through sparse 0 l := by
    intro l h11 h14
    obtain rfl | rfl | rfl : l = 11 ∨ l = 12 ∨ l = 13 := by omega
    · exact id
    all_goals exact fun h => h (by decide)
  have hbs : layout.fs.block_size = 1024 := rfl
  rw [hav] at h2
  rw [hbs]
  exact hnone _ (by omega) (by omega)

end Sample

end Ext2
