import Loeux.Ext2.SaveSpec
import Loeux.Ext2.Dir
/-!
# What the directory functions do to the blocks of a directory

The functions go over the blocks of the directory in order. A hole in the
directory is as good as a block of zeros: there is no record in it and no room.
-/
open Lib List Prog

namespace Ext2

/-! ## Blocks without records -/

section Holes

variable (bs : Nat) (name : List UInt8)

theorem rec_len_zero (off : Nat) : De.rec_len Bytes.zero off = 0 := Bytes.get_zero 2 _

theorem findIn_zero (fuel off : Nat) : findIn bs Bytes.zero name fuel off = none := by
  cases fuel <;> simp [findIn, rec_len_zero]

theorem removeIn_zero (fuel off : Nat) : removeIn bs Bytes.zero name fuel off = none := by
  cases fuel <;> simp [removeIn, rec_len_zero]

theorem occupiedIn_zero (fuel off : Nat) : occupiedIn bs Bytes.zero fuel off = false := by
  cases fuel <;> simp [occupiedIn, rec_len_zero]

theorem addIn_zero (ino file_type : Nat) : addIn bs Bytes.zero name ino file_type = none := by
  have : addScan bs Bytes.zero name (recLen name.length) ino file_type bs 0 0 0 = .inr (0, 0) := by
    cases bs <;> simp [addScan, rec_len_zero]
  simp [addIn, this]

end Holes

/-! ## Functions that only read -/

section Same

variable {F : Prop} {s : St} (fs : Fs) (r : Nat)

theorem dirFindFrom_same (name : List UInt8) (n l : Nat) :
    wp (world F) (dirFindFrom fs r name n l) (fun _ s' => s' = s) s := by
  induction n generalizing l with
  | zero => simp [dirFindFrom]
  | succ n ih =>
    rw [dirFindFrom]
    refine wp_then (getBlock_false_same fs r l) ?_
    rintro (_ | phys) s' rfl
    · simp
    · dsimp only
      split_ifs
      · exact ih _
      · rw [wp_bind, wp_readBlock]
        refine ⟨?_, by simp⟩
        dsimp only
        split
        · simp
        · exact ih _

theorem dirFind_same (name : List UInt8) : wp (world F) (dirFind fs r name) (fun _ s' => s' = s) s := by
  simp only [dirFind, wp_bind, wp_slabAlloc]
  refine ⟨?_, by simp⟩
  simpa using dirFindFrom_same fs r name _ 0

theorem dirEmptyFrom_same (n l : Nat) : wp (world F) (dirEmptyFrom fs r n l) (fun _ s' => s' = s) s := by
  induction n generalizing l with
  | zero => simp [dirEmptyFrom]
  | succ n ih =>
    rw [dirEmptyFrom]
    refine wp_then (getBlock_false_same fs r l) ?_
    rintro (_ | phys) s' rfl
    · simp
    · dsimp only
      split_ifs
      · exact ih _
      · rw [wp_bind, wp_readBlock]
        refine ⟨?_, by simp⟩
        dsimp only
        split_ifs
        · simp
        · exact ih _

theorem dirEmpty_same : wp (world F) (dirEmpty fs r) (fun _ s' => s' = s) s := by
  simp only [dirEmpty, wp_bind, wp_slabAlloc]
  refine ⟨?_, by simp⟩
  simpa using dirEmptyFrom_same fs r _ 0

end Same

/-! ## The blocks of a directory -/

def Layout.blk (L : Layout) (ib : Nat → Nat → Nat) (v : Vol) (n l : Nat) : Bytes :=
  block ib v.data (L.slotOf n l)

section Blocks

variable {L : Layout} {F : Prop} {live : Nat → Prop} {n r : Nat} {ib : Nat → Nat → Nat} {s : St}

section

variable (h : DataPtrs L n ib (L.vol s).data)

include h

variable (hr : (s.inodes r).priv.i_block = ib n)

include hr

theorem readBlk_spec {α : Type} {none' : α} {skip : M α} {k : Nat → Bytes → M α} {Q : α → St → Prop} {l : Nat}
    (hblk : l < L.maxBlocks → ptr ib (L.vol s).data (L.slotOf n l) ≠ 0 →
      wp (world F) (k (ptr ib (L.vol s).data (L.slotOf n l)) (L.blk ib (L.vol s) n l)) Q s)
    (hhole : ptr ib (L.vol s).data (L.slotOf n l) = 0 ∨ F → wp (world F) skip Q s)
    (herr : F ∧ s.crit = 0 ∨ L.maxBlocks ≤ l → Q none' s) :
    wp (world F) (do
        let some phys ← getBlock L.fs r l false | return none'
        if phys = 0 then skip
        else
          let some buf ← readBlock phys | return none'
          k phys buf) Q s := by
  refine wp_then (getBlock_false_spec h hr l) ?_
  rintro a s' ⟨rfl, ⟨hl, rfl⟩ | ⟨hge, rfl⟩ | ⟨hF, hc, rfl | rfl⟩⟩
  · dsimp only
    split_ifs with h0
    · exact hhole (.inl h0)
    · have hd := h _ (L.isSlot_self n hl) h0
      rw [wp_bind, wp_readBlock]
      refine ⟨?_, fun hF hc => by simpa using herr (.inl ⟨hF, hc⟩)⟩
      have := hblk hl h0
      rw [Layout.blk, block, if_neg h0, vol_data hd] at this
      exact this
  · simpa using herr (.inr hge)
  · simpa using herr (.inl ⟨hF, hc⟩)
  · simpa using hhole (.inr hF)

theorem dirFindFrom_run (name : List UInt8) (m l : Nat) : wp (world False) (dirFindFrom L.fs r name m l)
      (fun a s' => s' = s ∧ a = (range' l (min m (L.maxBlocks - l))).findSome? fun j =>
        findIn L.fs.block_size (L.blk ib (L.vol s) n j) name L.fs.block_size 0) s := by
  induction m generalizing l with
  | zero => simp [dirFindFrom]
  | succ m ih =>
    have hrest := ih (l + 1)
    unfold dirFindFrom
    by_cases hl : L.maxBlocks ≤ l
    · rw [show min (m + 1) (L.maxBlocks - l) = 0 by omega]
      exact readBlk_spec h hr (fun hlt _ => absurd hlt (by omega))
        (fun _ => by rw [show min m (L.maxBlocks - (l + 1)) = 0 by omega] at hrest; exact hrest)
        fun _ => ⟨rfl, rfl⟩
    rw [show min (m + 1) (L.maxBlocks - l) = min m (L.maxBlocks - (l + 1)) + 1 by omega, range'_succ, findSome?_cons]
    refine readBlk_spec h hr (fun _ _ => ?_) (fun h0 => ?_) fun he =>
      he.elim (fun h => h.1.elim) fun h => by omega
    · cases hf : findIn L.fs.block_size (L.blk ib (L.vol s) n l) name L.fs.block_size 0 with
      | some ino => simp
      | none => exact hrest
    · have h0 := h0.resolve_right id
      have : L.blk ib (L.vol s) n l = Bytes.zero := by rw [Layout.blk, block, if_pos h0]
      rw [this, findIn_zero]
      exact hrest

omit hr in
omit h in
def Layout.dirBlocks (L : Layout) (i_size : Nat) : Nat := min (blocksOf L.fs i_size) L.maxBlocks

theorem dirFind_run (name : List UInt8) : wp (world False) (dirFind L.fs r name)
      (fun a s' => s' = s ∧ a = (range (L.dirBlocks (s.inodes r).priv.i_size)).findSome? fun j =>
        findIn L.fs.block_size (L.blk ib (L.vol s) n j) name L.fs.block_size 0) s := by
  simp only [dirFind, wp_bind, wp_slabAlloc, false_imp_iff, and_true]
  simpa [range_eq_range', Layout.dirBlocks] using dirFindFrom_run h hr name _ 0

omit hr in
omit h in
def Layout.Refused (L : Layout) (ib : Nat → Nat → Nat) (v : Vol) (n : Nat) (g : Bytes → Option Bytes)
    (l m : Nat) : Prop :=
  ∀ j, l ≤ j → j < l + m → g (L.blk ib v n j) = none

omit hr in
omit h in
/-- `s'` is `s` with one of the `m` blocks from `l` on changed by `g`; it is the
first that `g` changes, unless failures (`F`) made the loop skip blocks. -/
def Layout.Changed (L : Layout) (F : Prop) (ib : Nat → Nat → Nat) (n : Nat) (g : Bytes → Option Bytes)
    (l m : Nat) (s s' : St) : Prop :=
  ∃ j d, l ≤ j ∧ j < l + m ∧ j < L.maxBlocks ∧ g (L.blk ib (L.vol s) n j) = some d ∧
    (¬F → L.Refused ib (L.vol s) n g l (j - l)) ∧ ptr ib (L.vol s).data (L.slotOf n j) ≠ 0 ∧
    s' = s.write (ptr ib (L.vol s).data (L.slotOf n j)) d

omit hr in
omit h in
theorem Layout.Refused.cons {v : Vol} {g : Bytes → Option Bytes} {l m : Nat} (h : L.Refused ib v n g (l + 1) m)
    (hl : g (L.blk ib v n l) = none) : L.Refused ib v n g l (m + 1) := by
  intro j h1 h2
  rcases Nat.eq_or_lt_of_le h1 with rfl | h1
  · exact hl
  · exact h j h1 (by omega)

omit hr in
omit h in
theorem Layout.Changed.cons {g : Bytes → Option Bytes} {l m : Nat} {s' : St}
    (h : L.Changed F ib n g (l + 1) m s s') (hl : ¬F → g (L.blk ib (L.vol s) n l) = none) :
    L.Changed F ib n g l (m + 1) s s' := by
  obtain ⟨j, d, h1, h2, hj, hg, hb, h0, rfl⟩ := h
  refine ⟨j, d, by omega, by omega, hj, hg, fun hF => ?_, h0, rfl⟩
  have := (hb hF).cons (hl hF)
  rwa [show j - (l + 1) + 1 = j - l by omega] at this

theorem dirAddFrom_spec (name : List UInt8) (ino ft m l : Nat) : wp (world F) (dirAddFrom L.fs r name ino ft m l)
      (fun a s' =>
        (a = none ∧ (F ∧ s.crit = 0 ∨ L.maxBlocks < l + m) ∧ s' = s) ∨
        (a = some false ∧ s' = s ∧ (¬F → L.Refused ib (L.vol s) n (addIn L.fs.block_size · name ino ft) l m)) ∨
        (a = some true ∧ L.Changed F ib n (addIn L.fs.block_size · name ino ft) l m s s')) s := by
  induction m generalizing l with
  | zero =>
    rw [dirAddFrom, wp_pure]
    exact .inr (.inl ⟨rfl, rfl, fun _ j h1 h2 => absurd h1 (by omega)⟩)
  | succ m ih =>
    unfold dirAddFrom
    refine readBlk_spec h hr (fun hj h0 => ?_) (fun h0 => ?_) fun he => .inl ⟨rfl, he.imp_right (by omega), rfl⟩
    · cases hadd : addIn L.fs.block_size (L.blk ib (L.vol s) n l) name ino ft with
      | none =>
        refine wp_weaken (ih (l + 1)) ?_
        rintro a s' (⟨rfl, he, rfl⟩ | ⟨rfl, rfl, hno⟩ | ⟨rfl, hch⟩)
        · exact .inl ⟨rfl, he.imp_right (by omega), rfl⟩
        · exact .inr (.inl ⟨rfl, rfl, fun hF => (hno hF).cons hadd⟩)
        · exact .inr (.inr ⟨rfl, hch.cons fun _ => hadd⟩)
      | some d =>
        simp only [wp_bind, wp_writeBlock]
        refine ⟨?_, fun hF hc => ?_⟩
        · simp only [if_not_true, wp_pure]
          exact .inr (.inr ⟨trivial, l, d, le_rfl, by omega, hj, hadd, fun _ i h1 h2 => absurd h1 (by omega), h0, rfl⟩)
        · simp only [Bool.not_false, if_true, wp_pure]
          exact .inl ⟨trivial, .inl ⟨hF, hc⟩, trivial⟩
    · -- a hole, or a block that could not be read
      have hno : ¬F → addIn L.fs.block_size (L.blk ib (L.vol s) n l) name ino ft = none := by
        intro hF
        rw [Layout.blk, block, if_pos (h0.resolve_right hF), addIn_zero]
      refine wp_weaken (ih (l + 1)) ?_
      rintro a s' (⟨rfl, he, rfl⟩ | ⟨rfl, rfl, hno'⟩ | ⟨rfl, hch⟩)
      · exact .inl ⟨rfl, he.imp_right (by omega), rfl⟩
      · exact .inr (.inl ⟨rfl, rfl, fun hF => (hno' hF).cons (hno hF)⟩)
      · exact .inr (.inr ⟨rfl, hch.cons hno⟩)

theorem dirRemoveFrom_run (name : List UInt8) (m l : Nat) : wp (world False) (dirRemoveFrom L.fs r name m l)
      (fun a s' =>
        (a = false ∧ s' = s ∧ L.Refused ib (L.vol s) n (removeIn L.fs.block_size · name L.fs.block_size 0) l
          (min m (L.maxBlocks - l))) ∨
        (a = true ∧ L.Changed False ib n (removeIn L.fs.block_size · name L.fs.block_size 0) l m s s')) s := by
  induction m generalizing l with
  | zero =>
    rw [dirRemoveFrom, wp_pure]
    exact .inl ⟨rfl, rfl, fun j h1 h2 => absurd h1 (by omega)⟩
  | succ m ih =>
    have hrest : removeIn L.fs.block_size (L.blk ib (L.vol s) n l) name L.fs.block_size 0 = none →
        wp (world False) (dirRemoveFrom L.fs r name m (l + 1)) (fun a s' =>
            (a = false ∧ s' = s ∧ L.Refused ib (L.vol s) n (removeIn L.fs.block_size · name L.fs.block_size 0) l
              (min (m + 1) (L.maxBlocks - l))) ∨
            (a = true ∧
              L.Changed False ib n (removeIn L.fs.block_size · name L.fs.block_size 0) l (m + 1) s s')) s := by
      intro hno
      refine wp_weaken (ih (l + 1)) ?_
      rintro a s' (⟨rfl, rfl, hno'⟩ | ⟨rfl, hch⟩)
      · exact .inl ⟨rfl, rfl, fun j h1 h2 => hno'.cons hno j h1 (by omega)⟩
      · exact .inr ⟨rfl, hch.cons fun _ => hno⟩
    unfold dirRemoveFrom
    refine readBlk_spec h hr (fun hj h0 => ?_) (fun h0 => hrest ?_) fun he =>
      .inl ⟨rfl, rfl, fun j h1 h2 => he.elim (fun h => h.1.elim) fun h => absurd h2 (by omega)⟩
    · cases hrem : removeIn L.fs.block_size (L.blk ib (L.vol s) n l) name L.fs.block_size 0 with
      | none => exact hrest hrem
      | some d =>
        simp only [wp_writeBlock, false_imp_iff, and_true]
        exact .inr ⟨trivial, l, d, le_rfl, by omega, hj, hrem, fun _ i h1 h2 => absurd h1 (by omega), h0, rfl⟩
    · rw [Layout.blk, block, if_pos (h0.resolve_right id), removeIn_zero]

/-- `ext2_dir_empty` says so if all blocks are within the limit of the block map
and none has another record than `.` and `..`. -/
theorem dirEmptyFrom_run (m l : Nat) : wp (world False) (dirEmptyFrom L.fs r m l)
      (fun a s' => s' = s ∧ (a = some true ↔ (m = 0 ∨ l + m ≤ L.maxBlocks) ∧ ∀ j, l ≤ j → j < l + m →
        occupiedIn L.fs.block_size (L.blk ib (L.vol s) n j) L.fs.block_size 0 = false)) s := by
  induction m generalizing l with
  | zero =>
    rw [dirEmptyFrom, wp_pure]
    exact ⟨rfl, fun _ => ⟨.inl rfl, fun j h1 h2 => absurd h1 (by omega)⟩, fun _ => rfl⟩
  | succ m ih =>
    have hrest : l < L.maxBlocks → occupiedIn L.fs.block_size (L.blk ib (L.vol s) n l) L.fs.block_size 0 = false →
        wp (world False) (dirEmptyFrom L.fs r m (l + 1))
          (fun a s' => s' = s ∧ (a = some true ↔ (m + 1 = 0 ∨ l + (m + 1) ≤ L.maxBlocks) ∧
            ∀ j, l ≤ j → j < l + (m + 1) →
              occupiedIn L.fs.block_size (L.blk ib (L.vol s) n j) L.fs.block_size 0 = false)) s := by
      intro hl hno
      refine wp_weaken (ih (l + 1)) ?_
      rintro a s' ⟨rfl, hiff⟩
      refine ⟨rfl, hiff.trans ⟨fun ⟨h1, h2⟩ => ⟨.inr (by omega), fun j h3 h4 => ?_⟩, fun ⟨h1, h2⟩ =>
        ⟨.inr (by omega), fun j h3 h4 => h2 j (by omega) (by omega)⟩⟩⟩
      rcases Nat.eq_or_lt_of_le h3 with rfl | h3
      · exact hno
      · exact h2 j h3 (by omega)
    unfold dirEmptyFrom
    by_cases hl : l < L.maxBlocks
    · refine readBlk_spec h hr (fun _ _ => ?_) (fun h0 => hrest hl ?_) fun he =>
        he.elim (fun h => h.1.elim) fun h => absurd hl (by omega)
      · by_cases hocc : occupiedIn L.fs.block_size (L.blk ib (L.vol s) n l) L.fs.block_size 0 = true
        · rw [if_pos hocc, wp_pure]
          refine ⟨rfl, fun h => (by cases h), fun ⟨_, h2⟩ => ?_⟩
          rw [h2 l le_rfl (by omega)] at hocc
          cases hocc
        · rw [if_neg hocc]
          exact hrest hl (by simpa using hocc)
      · rw [Layout.blk, block, if_pos (h0.resolve_right id), occupiedIn_zero]
    · have hfar : ¬((m + 1 = 0 ∨ l + (m + 1) ≤ L.maxBlocks) ∧ ∀ j, l ≤ j → j < l + (m + 1) →
          occupiedIn L.fs.block_size (L.blk ib (L.vol s) n j) L.fs.block_size 0 = false) := by
        rintro ⟨h1, -⟩
        omega
      refine wp_then (getBlock_false_spec h hr l) ?_
      rintro a s' ⟨rfl, ⟨hlt, -⟩ | ⟨-, rfl⟩ | ⟨hF, -⟩⟩
      · exact absurd hlt hl
      · exact ⟨rfl, fun h => (by cases h), fun h => absurd h hfar⟩
      · exact hF.elim

/-! ## Whole calls -/

omit hr in
omit h in
/-- `s'` is `s` with `data` written to logical block `l` of inode `n`, linked if
need be, and the size in the object set. -/
def Layout.Put (L : Layout) (live : Nat → Prop) (n r : Nat) (ib : Nat → Nat → Nat) (s : St) (l : Nat)
    (data : Bytes) (size : Nat) (ib' : Nat → Nat → Nat) (s' : St) : Prop :=
  ∃ s₁, L.Extends live n r (fun x => Leaf x → x = L.slotOf n l) ib s ib' s₁ ∧ l < L.maxBlocks ∧ ptr ib' (L.vol s₁).data (L.slotOf n l) ≠ 0 ∧
    s' = (s₁.write (ptr ib' (L.vol s₁).data (L.slotOf n l)) data).modify r fun i => i.setSize size

omit hr in
omit h in
theorem dirExtend_spec (hv : L.Valid s) (h : Owns L live ib (L.vol s)) (hn : live n)
    (hr : (s.inodes r).priv.i_block = ib n) (name : List UInt8) (ino ft l : Nat) :
    wp (world F) (dirExtend L.fs r name ino ft l) (fun a s' =>
        (a = false ∧ (F → L.Clean s s')) ∨
        (a = true ∧ ∃ ib', L.Put live n r ib s l (freshBlock L.fs.block_size name ino ft)
          (u32 ((l + 1) * L.fs.block_size)) ib' s')) s := by
  rw [dirExtend]
  refine wp_then (getBlock_true_spec hv h hn hr l) ?_
  rintro a s1 (⟨rfl, hc⟩ | ⟨b, ib', rfl, hl, hb, hext, rfl⟩)
  · exact .inl ⟨rfl, fun hF => (hc hF).2⟩
  simp only [hb, if_false, wp_bind, wp_writeBlock]
  refine ⟨?_, fun hF hc => ?_⟩
  · simp only [if_not_true, wp_bind, wp_update, wp_pure]
    exact .inr ⟨trivial, ib', s1, hext, hl, hb, rfl⟩
  · obtain rfl := hext.calm hc
    simp only [Bool.not_false, if_true, wp_pure]
    exact .inl ⟨trivial, fun _ => .refl hv⟩

omit hr in
omit h in
theorem dirAdd_spec (hv : L.Valid s) (h : Owns L live ib (L.vol s)) (hn : live n)
    (hr : (s.inodes r).priv.i_block = ib n) (name : List UInt8) (ino ft : Nat) :
    wp (world F) (dirAdd L.fs r name ino ft) (fun a s' =>
        (a = false ∧ (F → L.Clean s s')) ∨
        (a = true ∧ L.Changed F ib n (addIn L.fs.block_size · name ino ft) 0
          (blocksOf L.fs (s.inodes r).priv.i_size) s s') ∨
        (a = true ∧ (¬F → L.Refused ib (L.vol s) n (addIn L.fs.block_size · name ino ft) 0
            (blocksOf L.fs (s.inodes r).priv.i_size)) ∧
          ∃ ib', L.Put live n r ib s (blocksOf L.fs (s.inodes r).priv.i_size) (freshBlock L.fs.block_size name ino ft)
            (u32 ((blocksOf L.fs (s.inodes r).priv.i_size + 1) * L.fs.block_size)) ib' s')) s := by
  simp only [dirAdd, wp_bind, wp_slabAlloc]
  refine ⟨?_, fun _ _ => by simpa using fun _ => Layout.Clean.refl hv⟩
  simp only [if_not_true, wp_bind, wp_inodeAt]
  refine wp_weaken (dirAddFrom_spec (h.dataPtrs hn) hr name ino ft _ 0) ?_
  rintro a s1 (⟨rfl, -, rfl⟩ | ⟨rfl, rfl, hno⟩ | ⟨rfl, hch⟩)
  · exact .inl ⟨rfl, fun _ => .refl hv⟩
  · refine wp_weaken (dirExtend_spec hv h hn hr name ino ft _) ?_
    rintro a s2 (⟨rfl, hc⟩ | ⟨rfl, hput⟩)
    · exact .inl ⟨rfl, hc⟩
    · exact .inr (.inr ⟨rfl, hno, hput⟩)
  · exact .inr (.inl ⟨rfl, hch⟩)

theorem dirRemove_run (name : List UInt8) : wp (world False) (dirRemove L.fs r name) (fun a s' =>
        (a = false ∧ s' = s ∧ L.Refused ib (L.vol s) n (removeIn L.fs.block_size · name L.fs.block_size 0) 0
          (L.dirBlocks (s.inodes r).priv.i_size)) ∨
        (a = true ∧ L.Changed False ib n (removeIn L.fs.block_size · name L.fs.block_size 0) 0
          (blocksOf L.fs (s.inodes r).priv.i_size) s s')) s := by
  simp only [dirRemove, wp_bind, wp_slabAlloc, false_imp_iff, and_true, Bool.not_true,
    Bool.false_eq_true, if_false, wp_inodeAt]
  simpa [Layout.dirBlocks] using dirRemoveFrom_run h hr name (blocksOf L.fs (s.inodes r).priv.i_size) 0

theorem dirEmpty_run : wp (world False) (dirEmpty L.fs r)
      (fun a s' => s' = s ∧ (a = some true ↔ blocksOf L.fs (s.inodes r).priv.i_size ≤ L.maxBlocks ∧
        ∀ j, j < L.dirBlocks (s.inodes r).priv.i_size →
          occupiedIn L.fs.block_size (L.blk ib (L.vol s) n j) L.fs.block_size 0 = false)) s := by
  simp only [dirEmpty, wp_bind, wp_slabAlloc, false_imp_iff, and_true, Bool.not_true,
    Bool.false_eq_true, if_false, wp_inodeAt]
  refine wp_weaken (dirEmptyFrom_run h hr _ 0) ?_
  rintro a s' ⟨rfl, hiff⟩
  refine ⟨rfl, hiff.trans ⟨fun h => ⟨by omega, fun j hj => h.2 j (Nat.zero_le _) ?_⟩, fun h =>
    ⟨.inr (by omega), fun j _ hj => h.2 j ?_⟩⟩⟩
  · unfold Layout.dirBlocks at hj
    omega
  · unfold Layout.dirBlocks
    omega

end

theorem dirInitDot_spec (hv : L.Valid s) (h : Owns L live ib (L.vol s)) (hn : live n)
    (hr : (s.inodes r).priv.i_block = ib n) (h0 : ib n 0 = 0) (parent : Nat) :
    wp (world F) (dirInitDot L.fs r parent) (fun a s' =>
        (a = false ∧ (F → s.crit = 0 ∧ L.Clean s s')) ∨
        (a = true ∧ 0 < s'.crit ∧ ∃ ib', L.Put live n r ib s 0
          (dotBlock L.fs.block_size (s.inodes r).priv.ino parent) L.fs.block_size ib' s')) s := by
  rw [dirInitDot]
  refine wp_then (getBlock_true_spec hv h hn hr 0) ?_
  rintro a s1 (⟨rfl, hc⟩ | ⟨b, ib', rfl, hl, hb, hext, rfl⟩)
  · exact .inl ⟨rfl, fun hF => ⟨(hc hF).1 (by unfold Layout.maxBlocks; omega), (hc hF).2⟩⟩
  -- the block is new, so it is held and nothing can fail any more
  have hcrit : 0 < s1.crit := by
    rw [Nat.pos_iff_ne_zero]
    intro hc
    obtain rfl := hext.calm hc
    apply hb
    show ib' n 0 = 0
    rw [← hext.i_block, hr, h0]
  have hino : (s1.inodes r).priv.ino = (s.inodes r).priv.ino := by
    rw [hext.inodes, Function.update_self]
    rfl
  simp only [hb, if_false, wp_bind, wp_slabAlloc]
  refine ⟨?_, fun _ hc => absurd hc (Nat.pos_iff_ne_zero.1 hcrit)⟩
  simp only [if_not_true, wp_inodeAt, wp_bind, wp_writeBlock]
  refine ⟨?_, fun _ hc => absurd hc (Nat.pos_iff_ne_zero.1 hcrit)⟩
  simp only [wp_update, wp_pure, hino]
  exact .inr ⟨trivial, hcrit, ib', s1, hext, hl, hb, rfl⟩

end Blocks

end Ext2
