import Loeux.Ext2.Content
import Loeux.Ext2.ReadErrors
/-!
# Sizes that the record can hold

A position and a size have 64 bits, the size in an inode record and the number of
a logical block 32. Neither `ext2_write_data` nor `ext2_truncate` compares: a
request is treated right exactly when it fits, or when the state before it is one in
which the call stops before it changes anything.
-/
open Lib Prog Nat

namespace Ext2

open Layout

/-- The program stops with the answer `a` and has performed no operation that changes anything. -/
def Stops {α : Type} (s : St) (p : M α) (a : α) : Prop :=
  Prog.wp (watched False) p (fun a' x => a' = a ∧ x = (s, false)) (s, false)

namespace Layout

variable (L : Layout)

/-- The size of object `r` is that of its private part and of its record. -/
structure Sized (s : St) (r : Nat) : Prop where
  size : (s.inodes r).size = (s.inodes r).priv.i_size
  record : Di.i_size ((L.vol s).inode (s.ino r)) = (s.inodes r).priv.i_size

/-- The bytes have places in the block map and their end is a size. -/
def Fits (pos count : Nat) : Prop := pos + count ≤ L.maxBytes ∧ pos + count < 2 ^ 32

/-- The size in memory is the one in the record. -/
def SizeKept (s : St) (r : Nat) : Prop := (s.inodes r).size = Di.i_size ((L.vol s).inode (s.ino r))

/-- The bytes are where they were to be written. -/
def Placed (s : St) (r pos : Nat) (buf : Bytes) (count : Nat) : Prop :=
  pos + count ≤ L.maxBytes ∧ ∀ i, i < count → L.content s (s.ino r) (pos + i) = buf i

/-- A write that succeeds keeps the sizes equal and places its bytes, and one that
does not fit is refused and changes nothing. -/
structure WriteSized (s : St) (r pos : Nat) (buf : Bytes) (count : Nat) : Prop where
  success : ∀ c s', (writeData L.fs r pos buf count).run serve s = (some c, s') → L.SizeKept s' r ∧ L.Placed s' r pos buf count
  refuses : ¬L.Fits pos count → Stops s (writeData L.fs r pos buf count) none

/-- The same for a truncation. -/
structure TruncateSized (s : St) (r size : Nat) : Prop where
  success : ∀ s', (truncate L.fs r size).run serve s = (true, s') → L.SizeKept s' r
  refuses : 2 ^ 32 ≤ size → Stops s (truncate L.fs r size) false

/-- The number that the object's pointers give for logical block `l`. -/
def mapped (s : St) (r l : Nat) : Nat := ptr (s.objectPtrs r) s.disk (L.slotOf 0 l)

/-- No block is free. -/
def Full (s : St) : Prop := ∀ b, L.IsBlock b → (L.vol s).used b = true

/-- The first block of the bytes is beyond the map, or it is missing and there is no free block. -/
def WriteStops (s : St) (r pos count : Nat) : Prop :=
  pos < u64 (pos + count) ∧ (L.maxBlocks ≤ u32 (pos / L.fs.block_size) ∨
    L.mapped s r (u32 (pos / L.fs.block_size)) = 0 ∧ L.Full s)

/-- A cut of `n` blocks from `lblk` on comes to the end of the map without having met a mapped block. -/
def CutStops (s : St) (r n lblk : Nat) : Prop :=
  n ≠ 0 ∧ L.maxBlocks < lblk + n ∧ ∀ l, lblk ≤ l → l < L.maxBlocks → L.mapped s r l = 0

/-- The object is no regular file, or what is to be cut reaches beyond the map and holds no block. -/
def TruncateStops (s : St) (r size : Nat) : Prop :=
  ifmt (s.inodes r).mode ≠ S_IFREG ∨
    L.CutStops s r (blocksOf L.fs (s.inodes r).priv.i_size - newBlocks L.fs size) (newBlocks L.fs size)

end Layout

section

variable {L : Layout} {cnt : Prop} {held : List Nat} {s s' : St} {r : Nat}

theorem Layout.Stored.i_size (h : L.Stored s r) : Di.i_size ((L.vol s).inode (s.ino r)) = u32 (s.inodes r).priv.i_size := by
  rw [h.record, i_size_privToDisk]
  rfl

theorem Layout.Sized.lt (h : L.Sized s r) : (s.inodes r).priv.i_size < 2 ^ 32 := by
  rw [← h.record]
  exact Bytes.get_lt ..

theorem writeSized_of_fits (h : Mounted L cnt held s) (hr : r ∈ held) (hs : L.Sized s r) {pos count : Nat} (hf : L.Fits pos count)
    (buf : Bytes) : L.WriteSized s r pos buf count := by
  refine ⟨fun c s' hrun => ?_, fun hn => absurd hf hn⟩
  have hlt := hs.lt
  have hstop : u64 (pos + count) = pos + count := mod_eq_of_lt (hf.2.trans (by decide))
  obtain ⟨-, hw, -⟩ := run_of_wp (writeData_run h hr pos buf count) hrun c rfl
  obtain ⟨hsave, hsame⟩ := writeData_saved h hr hrun
  rw [hstop] at hw hsave hsame
  have hsize := hw.size
  have hi_size := hw.i_size
  have hold := hs.size
  have hino : s'.ino r = s.ino r := by rw [hw.steady.ino]
  refine ⟨?_, hf.1, fun i hi => ?_⟩
  · unfold Layout.SizeKept
    by_cases hsaved : pos < pos + count ∨ (s.inodes r).size < pos + count
    · rw [(hsave hsaved).i_size, hsize, hi_size]
      unfold u32
      split_ifs with hg
      · rw [mod_mod, mod_eq_of_lt hf.2]
      · rw [hold, mod_eq_of_lt hlt]
    · rw [hsame hsaved, hino, hs.record, hsize, if_neg (fun e => hsaved (.inr e)), hold]
  · rw [hino, hw.content hf.1 (pos + i) (by have := hf.1; omega), if_pos (by omega), Nat.add_sub_cancel_left]

/-! ## Calls that stop before they change anything -/

section

variable {b : Bool} {blk : Nat}

/-- A note that is made stays. -/
theorem watched_noted {F : Prop} {α : Type} (p : M α) (s : St) : wp (watched F) p (fun _ x => x.2 = true) (s, true) := by
  induction p generalizing s with
  | ret a => rfl
  | op e k ih => exact ⟨by simpa using ih _ _, fun a _ _ _ => ih a s⟩

theorem watched_then_noted {F : Prop} {α β : Type} {p : M α} {k : α → M β} {x : St × Bool}
    (h : wp (watched F) p (fun _ x => x.2 = true) x) : wp (watched F) (p >>= k) (fun _ x => x.2 = true) x := by
  rw [wp_bind]
  refine wp_mono (watched_mono F) (fun a x hx => ?_) h
  obtain ⟨s, b⟩ := x
  obtain rfl : b = true := hx
  exact watched_noted _ s

theorem watched_all {F : Prop} {α : Type} (p : M α) {Q : α → St × Bool → Prop} (hQ : ∀ a x, Q a x) (x : St × Bool) :
    wp (watched F) p Q x := by
  induction p generalizing x with
  | ret a => exact hQ a x
  | op e k ih => exact ⟨ih _ _, fun a _ _ _ => ih a _⟩

theorem watched_writeBlock_noted (d : Bytes) : wp (watched False) (writeBlock blk d) (fun _ x => x.2 = true) (s, b) := by
  simp [writeBlock, watched, refusal, Op.changes]

theorem watched_update_noted (f : Inode → Inode) : wp (watched False) (update r f) (fun _ x => x.2 = true) (s, b) := by
  simp [update, watched, refusal, Op.changes]

theorem watched_mark (m : Mark) (Q : Unit → St × Bool → Prop) :
    wp (watched False) (mark m) Q (s, b) ↔ Q () (s.mark m, b) := by
  simp [mark, watched, serve, refusal, Op.changes]

theorem watched_now (Q : Nat → St × Bool → Prop) : wp (watched False) now Q (s, b) ↔ Q (clock s.ticks) (s, b) := by
  simp [now, watched, serve, refusal, Op.changes]

theorem watched_bitmapTest (i : Nat) (Q : Option Bool → St × Bool → Prop) :
    wp (watched False) (bitmapTest blk i) Q (s, b) ↔ Q (some ((s.disk blk).bit i)) (s, b) := by
  simp [bitmapTest, watched_slabAlloc, watched_readBlock]

theorem watched_bitmapSet (i : Nat) : wp (watched False) (bitmapSet blk i) (fun _ x => x.2 = true) (s, b) := by
  simp [bitmapSet, watched_slabAlloc, watched_readBlock, watched_writeBlock_noted]

theorem watched_bitmapClear (i : Nat) : wp (watched False) (bitmapClear blk i) (fun _ x => x.2 = true) (s, b) := by
  simp [bitmapClear, watched_slabAlloc, watched_readBlock, watched_writeBlock_noted]

theorem watched_loadBg (g : Nat) (Q : Option Bytes → St × Bool → Prop) :
    wp (watched False) (loadBg L.fs g) Q (s, b) ↔ Q (some (L.bg s g)) (s, b) := by
  simp only [loadBg, wp_bind, watched_slabAlloc, watched_readBlock, if_not_true, false_implies, and_true, wp_pure]
  rfl

theorem watched_allocBlockBits (hv : L.Valid s) {g : Nat} (hg : g < L.fs.num_groups) (n i : Nat)
    (hi : i + n = L.fs.blocks_per_group) :
    wp (watched False) (allocBlockBits L.fs g (L.bg s g) n i) (fun a x =>
      (a = some none ∧ x = (s, b) ∧ ∀ c, L.IsBlock c → L.groupOf c = g → i ≤ L.bitOf c → (L.vol s).used c = true) ∨
        ((∃ c, L.IsBlock c ∧ (L.vol s).used c = false) ∧ x.2 = true)) (s, b) := by
  induction n generalizing i with
  | zero =>
    refine .inl ⟨rfl, rfl, fun c hc hgc hic => ?_⟩
    have := bitOf_lt (L := L) c
    omega
  | succ n ih =>
    have hlt : i < L.fs.blocks_per_group := by omega
    set c := L.fs.first_data_block + g * L.fs.blocks_per_group + i with hc
    have hc32 : u32 c = c := by
      have h1 := Nat.mul_le_mul_right L.fs.blocks_per_group (succ_le_of_lt hg)
      rw [succ_mul] at h1
      have h2 := L.blocks_lt
      exact mod_eq_of_lt (by omega)
    have hgc : L.groupOf c = g := groupOf_block hlt
    have hic : L.bitOf c = i := bitOf_block hlt
    unfold allocBlockBits
    rw [← hc, hc32]
    by_cases hfull : L.fs.blocks_count ≤ c
    · -- the last group is shorter than the others
      rw [if_pos hfull]
      refine .inl ⟨rfl, rfl, fun d hd hgd hid => ?_⟩
      have h1 := block_eq hd
      have h2 := hd.2
      rw [hgd] at h1
      omega
    have hblk : L.IsBlock c := ⟨by omega, Nat.lt_of_not_le hfull⟩
    have hused : (L.vol s).used c = (s.disk (L.block_bitmap g)).bit i := by simp [Layout.vol, hgc, hic, hblk]
    simp only [if_neg hfull, wp_bind, watched_bitmapTest, hv.block_bitmap g hg]
    cases hbit : (s.disk (L.block_bitmap g)).bit i with
    | true =>
      refine wp_mono (watched_mono False) (fun a x hx => hx.imp_left fun h => ⟨h.1, h.2.1, fun d hd hgd hid => ?_⟩)
        (ih (i + 1) (by omega))
      by_cases e : L.bitOf d = i
      · have hdc : d = c := by rw [block_eq hd, hgd, e]
        rw [hdc, hused, hbit]
      · exact h.2.2 d hd hgd (by omega)
    | false =>
      refine wp_mono (watched_mono False) (fun a x hx => .inr ⟨⟨c, hblk, hused.trans hbit⟩, hx⟩) ?_
      exact watched_then_noted (watched_bitmapSet i)

theorem watched_allocBlockGroups (hv : L.Valid s) (n g : Nat) (hg : g + n = L.fs.num_groups) :
    wp (watched False) (allocBlockGroups L.fs n g) (fun a x =>
      (a = none ∧ x = (s, b) ∧ ∀ c, L.IsBlock c → g ≤ L.groupOf c → (L.vol s).used c = true) ∨
        ((∃ c, L.IsBlock c ∧ (L.vol s).used c = false) ∧ x.2 = true)) (s, b) := by
  induction n generalizing g with
  | zero =>
    unfold allocBlockGroups
    rw [wp_bind, watched_mark]
    refine .inl ⟨rfl, rfl, fun c hc hgc => ?_⟩
    have := groupOf_lt hc
    omega
  | succ n ih =>
    unfold allocBlockGroups
    simp only [wp_bind, watched_loadBg]
    refine wp_mono (watched_mono False) (fun a x hx => ?_) (watched_allocBlockBits hv (by omega) _ 0 (by omega))
    rcases hx with ⟨rfl, rfl, hall⟩ | ⟨hfree, hnoted⟩
    · refine wp_mono (watched_mono False) (fun a x hx => hx.imp_left fun h => ⟨h.1, h.2.1, fun c hc hgc => ?_⟩)
        (ih (g + 1) (by omega))
      by_cases e : L.groupOf c = g
      · exact hall c hc e (Nat.zero_le _)
      · exact h.2.2 c hc (by omega)
    · obtain ⟨s', b'⟩ := x
      obtain rfl : b' = true := hnoted
      exact wp_mono (watched_mono False) (fun _ _ hx => .inr ⟨hfree, hx⟩) (watched_noted _ s')

variable (s b) in
/-- The program has stopped with an error before a change if `A`, and has changed something if not. -/
def StopsIf {α : Type} (A : Prop) (a : Option α) (x : St × Bool) : Prop := (A ∧ a = none ∧ x = (s, b)) ∨ (¬A ∧ x.2 = true)

theorem watched_stopsIf_then {α β : Type} {A : Prop} {p : M (Option α)} {k : Option α → M (Option β)}
    (hk : wp (watched False) (k none) (fun a x => a = none ∧ x = (s, b)) (s, b))
    (hp : wp (watched False) p (StopsIf s b A) (s, b)) : wp (watched False) (p >>= k) (StopsIf s b A) (s, b) := by
  rw [wp_bind]
  refine wp_mono (watched_mono False) (fun a x hx => ?_) hp
  rcases hx with ⟨hA, rfl, rfl⟩ | ⟨hA, hnoted⟩
  · exact wp_mono (watched_mono False) (fun _ _ hx => .inl ⟨hA, hx⟩) hk
  · obtain ⟨s', b'⟩ := x
    obtain rfl : b' = true := hnoted
    exact wp_mono (watched_mono False) (fun _ _ hx => .inr ⟨hA, hx⟩) (watched_noted _ s')

theorem watched_allocZeroBlock (hv : L.Valid s) : wp (watched False) (allocZeroBlock L.fs) (StopsIf s b (L.Full s)) (s, b) := by
  unfold allocZeroBlock
  rw [wp_bind, watched_slabAlloc]
  refine ⟨watched_stopsIf_then ⟨rfl, rfl⟩ ?_, fun hF => hF.elim⟩
  unfold allocBlock
  rw [wp_bind, watched_mark]
  refine watched_stopsIf_then ((wp_bind ..).2 ((watched_mark _ _).2 ⟨rfl, rfl⟩)) ?_
  refine wp_mono (watched_mono False) (fun a x hx => ?_) (watched_allocBlockGroups hv L.fs.num_groups 0 (by omega))
  rcases hx with ⟨ha, hx, hall⟩ | ⟨⟨c, hc, hfree⟩, hnoted⟩
  · exact .inl ⟨fun c hc => hall c hc (Nat.zero_le _), ha, hx⟩
  · refine .inr ⟨fun h => ?_, hnoted⟩
    rw [h c hc] at hfree
    cases hfree

variable (L s b) in
/-- What is done for a place of the block map that holds the number `c`: a missing block is allocated. -/
def Layout.Got (c : Nat) (a : Option Nat) (x : St × Bool) : Prop :=
  (c ≠ 0 ∧ a = some c ∧ x = (s, b)) ∨ (c = 0 ∧ StopsIf s b (L.Full s) a x)

theorem watched_alloc_then (hv : L.Valid s) {k : Option Nat → M (Option Nat)} (hk : k none = pure none) :
    wp (watched False) (allocZeroBlock L.fs >>= k) (L.Got s b 0) (s, b) := by
  refine wp_mono (watched_mono False) (fun _ _ hx => .inr ⟨rfl, hx⟩) (watched_stopsIf_then ?_ (watched_allocZeroBlock hv))
  rw [hk]
  exact ⟨rfl, rfl⟩

theorem watched_rootAlloc (hv : L.Valid s) (k : Nat) :
    wp (watched False) (rootAlloc L.fs r k) (L.Got s b ((s.inodes r).priv.i_block k)) (s, b) := by
  unfold rootAlloc iBlock
  simp only [wp_bind, watched_inodeAt, wp_pure]
  split_ifs with h
  · exact .inl ⟨h, rfl, rfl⟩
  · rw [not_not.1 h]
    exact watched_alloc_then hv (by rfl)

theorem watched_indAlloc (hv : L.Valid s) (ind i : Nat) :
    wp (watched False) (indAlloc L.fs ind i) (L.Got s b (entry s.disk ind i)) (s, b) := by
  unfold indAlloc
  rw [wp_bind, watched_indGet]
  refine ⟨?_, fun hF => hF.elim⟩
  dsimp only
  split_ifs with h
  · exact .inl ⟨h, rfl, rfl⟩
  · rw [not_not.1 h]
    exact watched_alloc_then hv (by rfl)

theorem watched_got_then {k : Option Nat → M (Option Nat)} {p : M (Option Nat)} {c d : Nat} (hk : k none = pure none)
    (hp : wp (watched False) p (L.Got s b c) (s, b)) (h0 : c = 0 → d = 0)
    (hd : c ≠ 0 → wp (watched False) (k (some c)) (L.Got s b d) (s, b)) :
    wp (watched False) (p >>= k) (L.Got s b d) (s, b) := by
  by_cases hc : c = 0
  · have hstop : wp (watched False) p (StopsIf s b (L.Full s)) (s, b) := by
      refine wp_mono (watched_mono False) (fun _ _ hx => ?_) hp
      exact (hx.resolve_left fun h => h.1 hc).2
    refine wp_mono (watched_mono False) (fun _ _ hx => .inr ⟨h0 hc, hx⟩) (watched_stopsIf_then ?_ hstop)
    rw [hk]
    exact ⟨rfl, rfl⟩
  · rw [wp_bind]
    refine wp_mono (watched_mono False) (fun a x hx => ?_) hp
    obtain ⟨-, rfl, rfl⟩ := hx.resolve_right fun h => hc h.1
    exact hd hc

theorem watched_getBlock_alloc (hv : L.Valid s) {l : Nat} (hl : l < L.maxBlocks) :
    wp (watched False) (getBlock L.fs r l true) (L.Got s b (L.mapped s r l)) (s, b) := by
  have hmax := L.maxBlocks_eq
  rw [hmax] at hl
  unfold getBlock Layout.mapped Layout.slotOf
  by_cases h1 : l < 12
  · simp only [h1, if_true]
    exact watched_rootAlloc hv l
  by_cases h2 : l < 12 + L.fs.ptrs_per_block
  · simp only [h1, h2, if_true, if_false]
    have e := @ptr_cons (s.objectPtrs r) s.disk (0, EXT2_IND_BLOCK) (l - 12) []
    refine watched_got_then (by rfl) (watched_rootAlloc hv EXT2_IND_BLOCK) (fun h0 => ?_) fun h0 => ?_
    · rw [e]
      exact if_pos h0
    · rw [e, if_neg (show ¬ptr (s.objectPtrs r) s.disk ((0, EXT2_IND_BLOCK), []) = 0 from h0)]
      exact watched_indAlloc hv _ _
  · simp only [h1, h2, hl, if_true, if_false]
    set i1 := (l - (12 + L.fs.ptrs_per_block)) / L.fs.ptrs_per_block
    set i2 := (l - (12 + L.fs.ptrs_per_block)) % L.fs.ptrs_per_block
    have e1 := @ptr_cons (s.objectPtrs r) s.disk (0, EXT2_DIND_BLOCK) i1 []
    have e2 := @ptr_cons (s.objectPtrs r) s.disk (0, EXT2_DIND_BLOCK) i2 [i1]
    refine watched_got_then (by rfl) (watched_rootAlloc hv EXT2_DIND_BLOCK) (fun h0 => ?_) fun h0 => ?_
    · rw [e2, e1]
      exact if_pos (if_pos h0)
    · rw [if_neg (show ¬ptr (s.objectPtrs r) s.disk ((0, EXT2_DIND_BLOCK), []) = 0 from h0)] at e1
      refine watched_got_then (by rfl) (watched_indAlloc hv _ i1) (fun h3 => ?_) fun h3 => ?_
      · rw [e2]
        exact if_pos (e1.trans h3)
      · rw [e2, if_neg (fun h => h3 (e1.symm.trans h)), e1]
        exact watched_indAlloc hv _ _

theorem getBlock_beyond (a : Bool) {l : Nat} (hl : L.maxBlocks ≤ l) : getBlock L.fs r l a = pure none := by
  have hmax := L.maxBlocks_eq
  have h1 : ¬l < 12 := by omega
  have h2 : ¬l < 12 + L.fs.ptrs_per_block := by omega
  have h3 : ¬l < 12 + L.fs.ptrs_per_block + L.fs.ptrs_per_block * L.fs.ptrs_per_block := by omega
  unfold getBlock
  simp only [h1, h2, h3, if_false]

theorem watched_writeFrom (hv : L.Valid s) {pos stop : Nat} (hlt : pos < stop) (buf : Bytes) (fuel : Nat) :
    let A := L.maxBlocks ≤ u32 (pos / L.fs.block_size) ∨ L.mapped s r (u32 (pos / L.fs.block_size)) = 0 ∧ L.Full s
    wp (watched False) (writeFrom L.fs r pos buf stop (fuel + 1) pos)
      (fun a x => (A ∧ a = false ∧ x = (s, b)) ∨ (¬A ∧ x.2 = true)) (s, b) := by
  intro A
  unfold writeFrom
  rw [if_neg (Nat.not_le.2 hlt)]
  rcases Nat.lt_or_ge (u32 (pos / L.fs.block_size)) L.maxBlocks with hl | hl
  · rw [wp_bind]
    refine wp_mono (watched_mono False) (fun a x hx => ?_) (watched_getBlock_alloc hv hl)
    rcases hx with ⟨hc, rfl, rfl⟩ | ⟨hc, ⟨hfull, rfl, rfl⟩ | ⟨hfull, hnoted⟩⟩
    · have hA : ¬A := fun h => h.elim (Nat.not_le.2 hl) fun h => hc h.1
      refine wp_mono (watched_mono False) (fun _ _ hx => .inr ⟨hA, hx⟩) ?_
      dsimp only
      rw [if_neg hc]
      generalize (if stop - pos < L.fs.block_size - pos % L.fs.block_size then stop - pos
        else L.fs.block_size - pos % L.fs.block_size) = n
      -- the block is written, as a whole or in part
      split
      · exact watched_then_noted (watched_writeBlock_noted _)
      · rw [wp_bind, watched_readBlock]
        exact ⟨watched_then_noted (watched_writeBlock_noted _), fun hF => hF.elim⟩
    · exact .inl ⟨.inr ⟨hc, hfull⟩, rfl, rfl⟩
    · have hA : ¬A := fun h => h.elim (Nat.not_le.2 hl) fun h => hfull h.2
      obtain ⟨s', b'⟩ := x
      obtain rfl : b' = true := hnoted
      exact wp_mono (watched_mono False) (fun _ _ hx => .inr ⟨hA, hx⟩) (watched_noted _ s')
  · rw [getBlock_beyond true hl]
    exact .inl ⟨.inl hl, rfl, rfl⟩

theorem watched_writeData (hv : L.Valid s) (pos : Nat) (buf : Bytes) (count : Nat) :
    wp (watched False) (writeData L.fs r pos buf count) (StopsIf s false (L.WriteStops s r pos count)) (s, false) := by
  unfold writeData
  rw [wp_bind, watched_slabAlloc]
  refine ⟨?_, fun hF => hF.elim⟩
  rw [if_neg (by simp), wp_bind]
  rcases Nat.lt_or_ge pos (u64 (pos + count)) with hlt | hge
  · obtain ⟨fuel, hfuel⟩ : ∃ fuel, u64 (pos + count) - pos = fuel + 1 := ⟨u64 (pos + count) - pos - 1, by omega⟩
    rw [hfuel]
    refine wp_mono (watched_mono False) (fun a x hx => ?_) (watched_writeFrom hv hlt buf fuel)
    rcases hx with ⟨hA, rfl, rfl⟩ | ⟨hA, hnoted⟩
    · exact .inl ⟨⟨hlt, hA⟩, rfl, rfl⟩
    · obtain ⟨s', b'⟩ := x
      obtain rfl : b' = true := hnoted
      exact wp_mono (watched_mono False) (fun _ _ hx => .inr ⟨fun h => hA h.2, hx⟩) (watched_noted _ s')
  · -- no round, but the times are set
    have hno : ¬L.WriteStops s r pos count := fun h => absurd h.1 (Nat.not_lt.2 hge)
    have hround : writeFrom L.fs r pos buf (u64 (pos + count)) 0 pos = pure true := rfl
    rw [show u64 (pos + count) - pos = 0 by omega, hround, wp_pure, if_neg (by simp)]
    refine wp_mono (watched_mono False) (fun _ _ hx => .inr ⟨hno, hx⟩) ?_
    rw [wp_bind, watched_inodeAt]
    dsimp only
    split
    · exact watched_then_noted (watched_update_noted _)
    · rw [wp_bind, watched_now]
      exact watched_then_noted (watched_update_noted _)

theorem watched_freeBlock : wp (watched False) (freeBlock L.fs blk) (fun _ x => x.2 = true) (s, b) := by
  unfold freeBlock releaseBlock
  rw [wp_bind, watched_mark, wp_bind, watched_mark]
  refine watched_then_noted ?_
  dsimp only
  rw [wp_bind, watched_mark, wp_bind, watched_loadBg]
  exact watched_then_noted (watched_bitmapClear _)

theorem watched_getBlock {l : Nat} (hl : l < L.maxBlocks) (Q : Option Nat → St × Bool → Prop) :
    wp (watched False) (getBlock L.fs r l false) Q (s, b) ↔ Q (some (L.mapped s r l)) (s, b) := by
  rw [wp_getBlock hl]
  simp only [false_implies, and_true]
  rfl

theorem watched_truncateFrom_stops {n lblk : Nat} (h : L.CutStops s r n lblk) :
    wp (watched False) (truncateFrom L.fs r n lblk) (fun a x => a = false ∧ x = (s, b)) (s, b) := by
  induction n generalizing lblk with
  | zero => exact absurd rfl h.1
  | succ n ih =>
    obtain ⟨-, hend, hzero⟩ := h
    unfold truncateFrom
    rcases Nat.lt_or_ge lblk L.maxBlocks with hl | hl
    · rw [wp_bind, watched_getBlock hl, hzero lblk (Nat.le_refl _) hl]
      exact ih ⟨by omega, by omega, fun l h1 h2 => hzero l (by omega) h2⟩
    · rw [getBlock_beyond false hl]
      exact ⟨rfl, rfl⟩

theorem watched_truncateFrom_goes {n lblk : Nat} (h : ¬L.CutStops s r n lblk) :
    wp (watched False) (truncateFrom L.fs r n lblk) (fun a x => a = true ∨ x.2 = true) (s, b) := by
  induction n generalizing lblk with
  | zero => exact .inl rfl
  | succ n ih =>
    unfold truncateFrom
    rcases Nat.lt_or_ge lblk L.maxBlocks with hl | hl
    · rw [wp_bind, watched_getBlock hl]
      dsimp only
      by_cases h0 : L.mapped s r lblk = 0
      · rw [if_neg (not_not.2 h0)]
        refine ih fun h' => h ⟨by omega, by have := h'.2.1; omega, fun l h1 h2 => ?_⟩
        by_cases e : l = lblk
        · rw [e, h0]
        · exact h'.2.2 l (by omega) h2
      · rw [if_pos h0]
        exact wp_mono (watched_mono False) (fun _ _ hx => .inr hx) (watched_then_noted watched_freeBlock)
    · exact absurd ⟨by omega, by omega, fun l h1 h2 => absurd h2 (by omega)⟩ h

theorem watched_truncate (size : Nat) : wp (watched False) (truncate L.fs r size)
    (fun a x => (L.TruncateStops s r size ∧ a = false ∧ x = (s, false)) ∨ (¬L.TruncateStops s r size ∧ x.2 = true)) (s, false) := by
  unfold truncate
  rw [wp_bind, watched_inodeAt]
  by_cases hreg : ifmt (s.inodes r).mode ≠ S_IFREG
  · rw [if_pos hreg]
    exact .inl ⟨.inl hreg, rfl, rfl⟩
  rw [if_neg hreg, wp_bind, watched_inodeAt]
  dsimp only
  have hlast : ∀ (f : Nat → Nat → Inode → Inode) (k : M Bool) (x : St × Bool), wp (watched False)
      (do
        let mtime ← now
        let ctime ← now
        update r (f mtime ctime)
        k) (fun _ x => x.2 = true) x := by
    rintro f k ⟨s', b'⟩
    rw [wp_bind, watched_now, wp_bind, watched_now]
    exact watched_then_noted (watched_update_noted _)
  by_cases hlt : newBlocks L.fs size < blocksOf L.fs (s.inodes r).priv.i_size
  · rw [if_pos hlt, wp_bind]
    by_cases hcut : L.CutStops s r (blocksOf L.fs (s.inodes r).priv.i_size - newBlocks L.fs size) (newBlocks L.fs size)
    · refine wp_mono (watched_mono False) (fun a x hx => ?_) (watched_truncateFrom_stops hcut)
      obtain ⟨rfl, rfl⟩ := hx
      exact .inl ⟨.inr hcut, rfl, rfl⟩
    · have hno : ¬L.TruncateStops s r size := fun h => h.elim hreg hcut
      refine wp_mono (watched_mono False) (fun a x hx => ?_) (watched_truncateFrom_goes hcut)
      refine wp_mono (watched_mono False) (fun _ _ hx => .inr ⟨hno, hx⟩) ?_
      rcases hx with rfl | hnoted
      · rw [if_neg (by simp)]
        split
        · rw [wp_bind]
          exact watched_all _ (fun _ x => hlast _ _ x) x
        · exact hlast _ _ x
      · obtain ⟨s', b'⟩ := x
        obtain rfl : b' = true := hnoted
        exact watched_noted _ s'
  · have hno : ¬L.TruncateStops s r size := fun h => h.elim hreg fun h => h.1 (by omega)
    rw [if_neg hlt]
    exact wp_mono (watched_mono False) (fun _ _ hx => .inr ⟨hno, hx⟩) (hlast _ _ _)

theorem watched_both {α : Type} {p : M α} {Q R : α → St × Bool → Prop} {x : St × Bool} (hQ : wp (watched False) p Q x)
    (hR : wp (watched False) p R x) : ∃ a x, Q a x ∧ R a x := by
  induction p generalizing x with
  | ret a => exact ⟨a, x, hQ, hR⟩
  | op e k ih => exact ih _ hQ.1 hR.1

end

theorem stops_iff {α : Type} {A : Prop} {a : α} {p : M α}
    (h : wp (watched False) p (fun a' x => (A ∧ a' = a ∧ x = (s, false)) ∨ (¬A ∧ x.2 = true)) (s, false)) :
    Stops s p a ↔ A := by
  constructor
  · intro hs
    obtain ⟨a', x, ⟨-, hx⟩, ⟨hA, -⟩ | ⟨-, hnoted⟩⟩ := watched_both hs h
    · exact hA
    · rw [hx] at hnoted
      cases hnoted
  · intro hA
    exact wp_mono (watched_mono False) (fun _ _ hx => (hx.resolve_right fun h => h.1 hA).2) h

theorem world_of_watched {α : Type} {p : M α} {Q : α → St → Prop} {b : Bool}
    (h : wp (watched False) p (fun a x => Q a x.1) (s, b)) : wp (world False) p Q s := by
  induction p generalizing s b with
  | ret a => exact h
  | op e k ih => exact ⟨fun _ => ih _ h.1, fun a _ hF => hF.elim⟩

theorem Stops.run {α : Type} {p : M α} {a : α} (h : Stops s p a) : p.run serve s = (a, s) := by
  have hw : wp (world False) p (fun a' s' => a' = a ∧ s' = s) s :=
    world_of_watched (wp_mono (watched_mono False) (fun _ _ hx => ⟨hx.1, by rw [hx.2]⟩) h)
  obtain ⟨h1, h2⟩ := (wp_world_false _ _ _).1 hw
  exact Prod.ext h1 h2

theorem truncateSized_of_lt (h : Mounted L cnt held s) (hr : r ∈ held) {size : Nat} (hsize : size < 2 ^ 32) : L.TruncateSized s r size := by
  refine ⟨fun s' hrun => ?_, fun hge => absurd hsize (Nat.not_lt.2 hge)⟩
  obtain ⟨hstored, -, h1, h2, -⟩ := run_of_wp (truncate_saved h hr size) hrun rfl
  unfold Layout.SizeKept
  rw [hstored.i_size, h1, h2]
  unfold u32
  rw [mod_mod, mod_eq_of_lt hsize]

/-- On a consistent volume, a write of any bytes at any position is treated right if and only if it fits or the state is
one in which it stops before it changes anything, and so for a truncation to any size. -/
theorem sizes_kept_iff (h : Mounted L cnt held s) (hr : r ∈ held) (hs : L.Sized s r) :
    (∀ pos buf count, L.WriteSized s r pos buf count ↔ L.Fits pos count ∨ L.WriteStops s r pos count) ∧
    ∀ size, L.TruncateSized s r size ↔ size < 2 ^ 32 ∨ L.TruncateStops s r size := by
  have hwrite : ∀ pos buf count, Stops s (writeData L.fs r pos buf count) none ↔ L.WriteStops s r pos count :=
    fun pos buf count => stops_iff (watched_writeData h.valid pos buf count)
  have hcut : ∀ size, Stops s (truncate L.fs r size) false ↔ L.TruncateStops s r size :=
    fun size => stops_iff (watched_truncate size)
  refine ⟨fun pos buf count => ⟨fun hw => ?_, ?_⟩, fun size => ⟨fun ht => ?_, ?_⟩⟩
  · by_cases hf : L.Fits pos count
    · exact .inl hf
    · exact .inr ((hwrite pos buf count).1 (hw.refuses hf))
  · rintro (hf | hn)
    · exact writeSized_of_fits h hr hs hf buf
    · have hstop := (hwrite pos buf count).2 hn
      refine ⟨fun c s' hrun => ?_, fun _ => hstop⟩
      rw [hstop.run] at hrun
      cases hrun
  · rcases Nat.lt_or_ge size (2 ^ 32) with hlt | hge
    · exact .inl hlt
    · exact .inr ((hcut size).1 (ht.refuses hge))
  · rintro (hlt | hn)
    · exact truncateSized_of_lt h hr hlt
    · have hstop := (hcut size).2 hn
      refine ⟨fun s' hrun => ?_, fun _ => hstop⟩
      rw [hstop.run] at hrun
      cases hrun

end

namespace Sample

set_option maxRecDepth 100000

theorem sized : layout.Sized st 0 := ⟨by decide, by decide⟩

/-- A truncation to `2 ^ 32` succeeds and stores the size 0. -/
theorem truncate_wraps : Mounted layout True mount.held mount.st ∧ layout.Sized st 0 ∧
    ((truncate layout.fs 0 (2 ^ 32)).run serve st).1 = true ∧ ((cut (2 ^ 32)).st.inodes 0).size = 2 ^ 32 ∧
    Di.i_size ((layout.vol (cut (2 ^ 32)).st).inode 11) = 0 ∧ ¬layout.TruncateSized st 0 (2 ^ 32) := by
  have hok : ((truncate layout.fs 0 (2 ^ 32)).run serve st).1 = true := by decide +kernel
  refine ⟨mounted, sized, hok, by decide +kernel, by decide +kernel, fun h => ?_⟩
  have hrefused := (h.refuses (Nat.le_refl _)).run
  rw [hrefused] at hok
  cases hok

/-- A write that fits, one whose first block is beyond the map, and a truncation. -/
theorem write_keeps_size : Mounted layout True mount.held mount.st ∧ 0 ∈ mount.held ∧ layout.Sized st 0 ∧
    layout.WriteSized st 0 0 (byte 88) 1 ∧ layout.WriteSized st 0 (2 ^ 30) (byte 88) 1 ∧ layout.TruncateSized st 0 100 := by
  have h := sizes_kept_iff mounted (List.mem_cons_self (a := 0)) sized
  refine ⟨mounted, List.mem_cons_self, sized, (h.1 0 (byte 88) 1).2 (.inl ⟨by decide, by decide⟩), ?_,
    (h.2 100).2 (.inl (by decide))⟩
  exact (h.1 (2 ^ 30) (byte 88) 1).2 (.inr ⟨by decide, .inl (by decide)⟩)

end Sample

end Ext2
