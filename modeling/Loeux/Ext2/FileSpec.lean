import Loeux.Ext2.DirSpec
import Loeux.Ext2.FreeSpec
import Loeux.Ext2.Ops
/-!
# Contents of files

The bytes of a file as its block map gives them, how the write loop changes
them and how the read loop returns them, on a machine without failures.
-/
open Lib Function List Prog Nat

namespace Ext2

open Layout

def St.objectPtrs (s : St) (r : Nat) : Nat → Nat → Nat := fun _ => (s.inodes r).priv.i_block

def Layout.byte (L : Layout) (ib : Nat → Nat → Nat) (v : Vol) (n off : Nat) : UInt8 :=
  L.blk ib v n (off / L.fs.block_size) (off % L.fs.block_size)

/-- `s'` is `s` with blocks of inode `n`, whose object is `r`, linked or written. -/
structure Layout.Touches (L : Layout) (live : Nat → Prop) (n r : Nat) (ib : Nat → Nat → Nat) (s : St)
    (ib' : Nat → Nat → Nat) (s' : St) : Prop where
  valid : L.Valid s'
  touched : Touched L live n ib (L.vol s) ib' (L.vol s')
  ino : (s'.inodes r).priv.ino = (s.inodes r).priv.ino
  i_block : (s'.inodes r).priv.i_block = ib' n
  others : ∀ r', r' ≠ r → s'.inodes r' = s.inodes r'
  next : s'.next = s.next

section Touches

variable {L : Layout} {F : Prop} {live : Nat → Prop} {n r : Nat} {ib ib' ib'' : Nat → Nat → Nat}
  {s s' s'' : St}

theorem Layout.Touches.refl (hv : L.Valid s) (h : Owns L live ib (L.vol s))
    (hr : (s.inodes r).priv.i_block = ib n) : L.Touches live n r ib s ib s :=
  ⟨hv, .refl h, rfl, hr, fun _ _ => rfl, rfl⟩

theorem Layout.Touches.trans (h : L.Touches live n r ib s ib' s') (h' : L.Touches live n r ib' s' ib'' s'') :
    L.Touches live n r ib s ib'' s'' :=
  ⟨h'.valid, h.touched.trans h'.touched, h'.ino.trans h.ino, h'.i_block,
    fun r' hr => (h'.others r' hr).trans (h.others r' hr), h'.next.trans h.next⟩

theorem Layout.Extends.touches {X : Slot → Prop} (h : L.Extends live n r X ib s ib' s') : L.Touches live n r ib s ib' s' where
  valid := h.valid
  touched := h.grown.toTouched
  ino := by rw [h.inodes, update_self]; rfl
  i_block := h.i_block
  others r' hr := by rw [h.inodes, update_of_ne hr]
  next := h.next

theorem Layout.Touches.write (hv : L.Valid s) (h : Owns L live ib (L.vol s))
    (hr : (s.inodes r).priv.i_block = ib n) {x : Slot} (hx : L.IsSlot live x) (hl : Leaf x) (hn : x.1.1 = n)
    (h0 : ptr ib (L.vol s).data x ≠ 0) (d : Bytes) :
    L.Touches live n r ib s ib (s.write (ptr ib (L.vol s).data x) d) where
  valid := hv.write (by simp [(h.data x hx h0).2]) (by simp [(h.data x hx h0).2])
  touched := by
    rw [vol_write_data (h.data x hx h0).2]
    exact h.write hx hl hn h0 d
  ino := rfl
  i_block := hr
  others _ _ := rfl
  next := rfl

theorem Layout.Touches.modify (h : L.Touches live n r ib s ib' s') {f : Inode → Inode}
    (hf : ∀ i, (f i).priv.ino = i.priv.ino ∧ (f i).priv.i_block = i.priv.i_block) :
    L.Touches live n r ib s ib' (s'.modify r f) where
  valid := h.valid.congr rfl
  touched := h.touched
  ino := by
    show ((Function.update s'.inodes r (f (s'.inodes r))) r).priv.ino = _
    rw [update_self, (hf _).1, h.ino]
  i_block := by
    show ((Function.update s'.inodes r (f (s'.inodes r))) r).priv.i_block = _
    rw [update_self, (hf _).2, h.i_block]
  others r' hr := by
    show Function.update s'.inodes r _ r' = _
    rw [update_of_ne hr, h.others r' hr]
  next := h.next

theorem Layout.Put.touches {l : Nat} {d : Bytes} {size : Nat} (hn : live n)
    (h : L.Put live n r ib s l d size ib' s') : L.Touches live n r ib s ib' s' := by
  obtain ⟨s1, hext, hl, h0, rfl⟩ := h
  exact (hext.touches.trans (.write hext.valid hext.grown.owns hext.i_block (L.isSlot_slotOf hn hl)
    (L.leaf_slotOf n l) (L.slotOf_ino n l) h0 d)).modify fun _ => ⟨rfl, rfl⟩

theorem Layout.Changed.touches {g : Bytes → Option Bytes} {l m : Nat} (hv : L.Valid s)
    (h : Owns L live ib (L.vol s)) (hn : live n) (hr : (s.inodes r).priv.i_block = ib n)
    (hc : L.Changed F ib n g l m s s') : L.Touches live n r ib s ib s' := by
  obtain ⟨j, d, -, -, hj, -, -, h0, rfl⟩ := hc
  exact .write hv h hr (L.isSlot_slotOf hn hj) (L.leaf_slotOf n j) (L.slotOf_ino n j) h0 d

end Touches

/-! ## Writing -/

section Write

variable {L : Layout} {live : Nat → Prop} {n r : Nat} {ib : Nat → Nat → Nat} {s : St}

theorem Owns.block_write {v : Vol} (h : Owns L live ib v) {x y : Slot} (hx : L.IsSlot live x) (hl : Leaf x)
    (h0 : ptr ib v.data x ≠ 0) (d : Bytes) (hy : L.IsSlot live y) :
    block ib (Function.update v.data (ptr ib v.data x) d) y = if y = x then d else block ib v.data y := by
  unfold block
  rw [h.ptr_write hx hl h0 d hy]
  by_cases e : y = x
  · subst e
    rw [if_neg h0, if_pos rfl, update_self]
  · rw [if_neg e]
    by_cases hy0 : ptr ib v.data y = 0
    · rw [if_pos hy0, if_pos hy0]
    · rw [if_neg hy0, if_neg hy0, update_of_ne]
      exact fun e' => e (h.inj y x hy hx hy0 e')

theorem Owns.blk_write {v : Vol} (h : Owns L live ib v) (hn : live n) {l : Nat} (hl : l < L.maxBlocks)
    (h0 : ptr ib v.data (L.slotOf n l) ≠ 0) (d : Bytes) {j : Nat} (hj : j < L.maxBlocks) :
    L.blk ib { v with data := Function.update v.data (ptr ib v.data (L.slotOf n l)) d } n j =
      if j = l then d else L.blk ib v n j := by
  rw [Layout.blk, h.block_write (L.isSlot_slotOf hn hl) (L.leaf_slotOf n l) h0 d (L.isSlot_slotOf hn hj)]
  by_cases e : j = l
  · rw [if_pos e, if_pos (by rw [e])]
  · rw [if_neg e, if_neg fun e' => e (slotOf_inj e').2]
    rfl

def Layout.maxBytes (L : Layout) : Nat := L.maxBlocks * L.fs.block_size

theorem Layout.div_lt_maxBlocks {off : Nat} (h : off < L.maxBytes) : off / L.fs.block_size < L.maxBlocks :=
  (Nat.div_lt_iff_lt_mul L.block_size_pos).2 h

theorem Layout.maxBlocks_lt : L.maxBlocks < 2 ^ 32 := by
  have hp : L.fs.ptrs_per_block ≤ 1024 := by have := L.ptrs_eq; have := L.block_size_le; omega
  have := Nat.mul_le_mul hp hp
  unfold Layout.maxBlocks
  omega

theorem Layout.maxBytes_lt : L.maxBytes < 2 ^ 44 := by
  have hp : L.fs.ptrs_per_block ≤ 1024 := by have := L.ptrs_eq; have := L.block_size_le; omega
  have hb : L.maxBlocks ≤ 2 ^ 21 := by
    have := Nat.mul_le_mul hp hp
    unfold Layout.maxBlocks
    omega
  have := Nat.mul_le_mul hb L.block_size_le
  unfold Layout.maxBytes
  omega

theorem Layout.round_le {f m : Nat} (hf : f ≤ L.maxBytes) (hl : u32 (f / L.fs.block_size) < L.maxBlocks)
    (hm : f % L.fs.block_size + m ≤ L.fs.block_size) : f + m ≤ L.maxBytes := by
  have hpos := L.block_size_pos
  have hle : f / L.fs.block_size ≤ L.maxBlocks := by
    have := Nat.div_le_div_right (c := L.fs.block_size) hf
    rwa [Layout.maxBytes, Nat.mul_div_cancel _ hpos] at this
  have h32 : u32 (f / L.fs.block_size) = f / L.fs.block_size :=
    mod_eq_of_lt (hle.trans_lt maxBlocks_lt)
  rw [h32] at hl
  have h1 : (f / L.fs.block_size + 1) * L.fs.block_size ≤ L.maxBytes := Nat.mul_le_mul_right _ hl
  have h2 := div_add_mod f L.fs.block_size
  rw [Nat.add_mul, Nat.one_mul, Nat.mul_comm] at h1
  omega

theorem Owns.byte_write {v : Vol} (h : Owns L live ib v) (hn : live n) {f m : Nat}
    (hf : f < L.maxBytes) (hm : f % L.fs.block_size + m ≤ L.fs.block_size)
    (h0 : ptr ib v.data (L.slotOf n (f / L.fs.block_size)) ≠ 0) (d ub : Bytes)
    (hd : ∀ i, i < L.fs.block_size → d i = if f % L.fs.block_size ≤ i ∧ i < f % L.fs.block_size + m
      then ub (i - f % L.fs.block_size) else L.blk ib v n (f / L.fs.block_size) i)
    {off : Nat} (hoff : off < L.maxBytes) :
    L.byte ib { v with data := Function.update v.data (ptr ib v.data (L.slotOf n (f / L.fs.block_size))) d } n off =
      if f ≤ off ∧ off < f + m then ub (off - f) else L.byte ib v n off := by
  have hpos := L.block_size_pos
  rw [Layout.byte, h.blk_write hn (div_lt_maxBlocks hf) h0 d (div_lt_maxBlocks hoff)]
  have e1 := div_add_mod f L.fs.block_size
  have e2 := div_add_mod off L.fs.block_size
  have hlt := mod_lt off hpos
  have hlt' := mod_lt f hpos
  by_cases e : off / L.fs.block_size = f / L.fs.block_size
  · rw [e] at e2
    rw [if_pos e, hd _ hlt, Layout.byte, e]
    have : off - f = off % L.fs.block_size - f % L.fs.block_size := by omega
    rw [this]
    by_cases hin : f ≤ off ∧ off < f + m
    · rw [if_pos hin, if_pos (by omega)]
    · rw [if_neg hin, if_neg (by omega)]
  · rw [if_neg e, if_neg]
    · rfl
    -- the bytes written are all in the block of byte `f`
    rintro ⟨h1, h2⟩
    have h3 : f / L.fs.block_size ≤ off / L.fs.block_size := Nat.div_le_div_right h1
    have h4 : off < L.fs.block_size * (f / L.fs.block_size + 1) := by rw [mul_succ]; omega
    have h5 : off / L.fs.block_size < f / L.fs.block_size + 1 :=
      (Nat.div_lt_iff_lt_mul hpos).2 (by rw [Nat.mul_comm]; exact h4)
    omega

theorem Grown.byte {X : Slot → Prop} {ib' : Nat → Nat → Nat} {v v' : Vol} (h : Grown L live n X ib v ib' v') {m : Nat} (hm : live m)
    {off : Nat} (hoff : off < L.maxBytes) : L.byte ib' v' m off = L.byte ib v m off := by
  rw [Layout.byte, Layout.blk, h.leaf _ (L.isSlot_slotOf hm (div_lt_maxBlocks hoff)) (L.leaf_slotOf _ _)]
  rfl

/-- What the write loop does to the state: blocks of the file are linked and
written; below the limit of the block map, the bytes `f` up to `stop` are those
of the buffer and the others stay. -/
structure Layout.Writes (L : Layout) (live : Nat → Prop) (n r : Nat) (ib : Nat → Nat → Nat) (s : St)
    (f stop : Nat) (src : Nat → UInt8) (ib' : Nat → Nat → Nat) (s' : St) : Prop
    extends L.Touches live n r ib s ib' s' where
  inodes : s'.inodes = Function.update s.inodes r ((s.inodes r).setBlocks (ib' n))
  files : s'.files = s.files
  ticks : s'.ticks = s.ticks
  byte : stop ≤ L.maxBytes → ∀ off, off < L.maxBytes →
    L.byte ib' (L.vol s') n off = if f ≤ off ∧ off < stop then src off else L.byte ib (L.vol s) n off
  limit : f < stop → f ≤ L.maxBytes → stop ≤ L.maxBytes

theorem Layout.Writes.done (hv : L.Valid s) (h : Owns L live ib (L.vol s))
    (hr : (s.inodes r).priv.i_block = ib n) {f stop : Nat} (hle : stop ≤ f) (src : Nat → UInt8) :
    L.Writes live n r ib s f stop src ib s := by
  refine ⟨.refl hv h hr, ?_, rfl, rfl, fun _ off _ => by rw [if_neg (by omega)], fun hlt => by omega⟩
  rw [← hr]
  exact (update_eq_self r s.inodes).symm

theorem writeFrom_run (hv : L.Valid s) (h : Owns L live ib (L.vol s)) (hn : live n)
    (hr : (s.inodes r).priv.i_block = ib n) (pos : Nat) (buf : Bytes) (stop fuel f : Nat) (hf : pos ≤ f)
    (hfuel : stop ≤ f + fuel) :
    wp (world False) (writeFrom L.fs r pos buf stop fuel f)
      (fun a s' => a = true → ∃ ib', L.Writes live n r ib s f stop (fun off => buf (off - pos)) ib' s') s := by
  induction fuel generalizing s f ib with
  | zero =>
    rw [writeFrom, wp_pure]
    exact fun _ => ⟨ib, .done hv h hr (by omega) _⟩
  | succ fuel ih =>
    have hpos := L.block_size_pos
    have hmod := mod_lt f hpos
    unfold writeFrom
    by_cases hstop : stop ≤ f
    · rw [if_pos hstop, wp_pure]
      exact fun _ => ⟨ib, .done hv h hr hstop _⟩
    rw [if_neg hstop]
    dsimp only
    set m := if stop - f < L.fs.block_size - f % L.fs.block_size then stop - f
      else L.fs.block_size - f % L.fs.block_size with hm
    have hm1 : 0 < m := by rw [hm]; split_ifs <;> omega
    have hm2 : f % L.fs.block_size + m ≤ L.fs.block_size := by rw [hm]; split_ifs <;> omega
    have hm3 : f + m ≤ stop := by rw [hm]; split_ifs <;> omega
    clear_value m
    refine wp_then (getBlock_true_spec hv h hn hr _) ?_
    rintro a s1 (⟨rfl, -⟩ | ⟨b, ib1, rfl, hl, hb, hext, rfl⟩)
    · simp
    -- the rest of the loop, once block `b` holds the bytes of this round
    have key : ∀ d : Bytes, (∀ i, i < L.fs.block_size → d i =
          if f % L.fs.block_size ≤ i ∧ i < f % L.fs.block_size + m then buf (f - pos + (i - f % L.fs.block_size))
          else L.blk ib1 (L.vol s1) n (u32 (f / L.fs.block_size)) i) →
        wp (world False) (writeFrom L.fs r pos buf stop fuel (f + m))
          (fun a s' => a = true → ∃ ib', L.Writes live n r ib s f stop (fun off => buf (off - pos)) ib' s')
          (s1.write (ptr ib1 (L.vol s1).data (L.slotOf n (u32 (f / L.fs.block_size)))) d) := by
      intro d hd
      have hslot := L.isSlot_slotOf hn hl
      have ht : L.Touches live n r ib1 s1 ib1 (s1.write _ d) := .write hext.valid hext.grown.owns hext.i_block
        hslot (L.leaf_slotOf n _) (L.slotOf_ino n _) hb d
      refine wp_weaken (ih ht.valid ht.touched.owns ht.i_block (f + m) (by omega) (by omega)) ?_
      rintro a s3 hw rfl
      obtain ⟨ib3, hw⟩ := hw rfl
      refine ⟨ib3, (hext.touches.trans ht).trans hw.toTouches, ?_, hw.files.trans hext.files,
        hw.ticks.trans hext.ticks, fun hmax off hoff => ?_, fun _ hle => ?_⟩
      · rw [hw.inodes]
        show Function.update s1.inodes r ((s1.inodes r).setBlocks _) = _
        rw [hext.inodes, update_idem, update_self]
        rfl
      swap
      · -- the block of this round is below the limit, so its end is
        have hround := Layout.round_le (L := L) hle hl hm2
        by_cases hlt : f + m < stop
        · exact hw.limit hlt hround
        · omega
      have hfm : f < L.maxBytes := by omega
      have h32 : u32 (f / L.fs.block_size) = f / L.fs.block_size :=
        mod_eq_of_lt ((div_lt_maxBlocks hfm).trans maxBlocks_lt)
      rw [h32] at hd hb hslot hw
      rw [hw.byte hmax off hoff, vol_write_data (hext.grown.owns.data _ hslot hb).2,
        hext.grown.owns.byte_write hn hfm hm2 hb d (fun i => buf (f - pos + i)) hd hoff,
        hext.grown.byte hn hoff]
      by_cases h1 : f + m ≤ off ∧ off < stop
      · rw [if_pos h1, if_pos (by omega)]
      · rw [if_neg h1]
        by_cases h2 : f ≤ off ∧ off < f + m
        · rw [if_pos h2, if_pos (by omega), show f - pos + (off - f) = off - pos by omega]
        · rw [if_neg h2, if_neg (by omega)]
    simp only [hb, if_false]
    by_cases hfull : f % L.fs.block_size = 0 ∧ m = L.fs.block_size
    · rw [if_pos hfull]
      simp only [wp_bind, wp_writeBlock, false_imp_iff, and_true]
      refine key _ fun i hi => ?_
      rw [if_pos (by omega), hfull.1, Nat.sub_zero]
    · rw [if_neg hfull]
      simp only [wp_bind, wp_readBlock, wp_writeBlock, false_imp_iff, and_true]
      refine key _ fun i hi => ?_
      rw [Layout.blk, block, if_neg hb, vol_data (hext.grown.owns.data _ (L.isSlot_slotOf hn hl) hb)]
      rfl

end Write

/-! ## Reading -/

section Read

variable {L : Layout} {n r : Nat} {ib : Nat → Nat → Nat} {s : St}

def Layout.bytes (L : Layout) (ib : Nat → Nat → Nat) (v : Vol) (n pos m : Nat) : List UInt8 :=
  (List.range m).map fun i => L.byte ib v n (pos + i)

theorem Layout.bytes_append (v : Vol) (pos m k : Nat) :
    L.bytes ib v n pos (m + k) = L.bytes ib v n pos m ++ L.bytes ib v n (pos + m) k := by
  simp only [Layout.bytes, range_add, map_append, map_map]
  congr 1
  refine map_congr_left fun i _ => ?_
  simp [Nat.add_assoc]

theorem Layout.bytes_eq (v : Vol) {pos m : Nat} (hm : pos % L.fs.block_size + m ≤ L.fs.block_size) :
    L.bytes ib v n pos m =
      (List.range m).map fun i => L.blk ib v n (pos / L.fs.block_size) (pos % L.fs.block_size + i) := by
  refine map_congr_left fun i hi => ?_
  have hi := mem_range.1 hi
  have hpos := L.block_size_pos
  have e := div_add_mod pos L.fs.block_size
  have e1 : pos + i = pos % L.fs.block_size + i + L.fs.block_size * (pos / L.fs.block_size) := by omega
  rw [Layout.byte, e1, add_mul_div_left _ _ hpos, add_mul_mod_self_left,
    div_eq_of_lt (by omega), mod_eq_of_lt (by omega), Nat.zero_add]

theorem readFrom_run (h : DataPtrs L n ib (L.vol s).data) (hr : (s.inodes r).priv.i_block = ib n)
    (fuel pos remaining : Nat) (out : List UInt8) (hfuel : remaining ≤ fuel)
    (hmax : pos + remaining ≤ L.maxBytes) :
    wp (world False) (readFrom L.fs r fuel pos remaining out)
      (fun a s' => s' = s ∧ a = some (out ++ L.bytes ib (L.vol s) n pos remaining)) s := by
  induction fuel generalizing pos remaining out with
  | zero =>
    obtain rfl : remaining = 0 := by omega
    simp [readFrom, Layout.bytes]
  | succ fuel ih =>
    have hmod := mod_lt pos L.block_size_pos
    unfold readFrom
    by_cases h0 : remaining = 0
    · subst h0
      simp [Layout.bytes]
    rw [if_neg h0]
    dsimp only
    set m := if remaining < L.fs.block_size - pos % L.fs.block_size then remaining
      else L.fs.block_size - pos % L.fs.block_size with hm
    have hm1 : 0 < m := by rw [hm]; split_ifs <;> omega
    have hm2 : pos % L.fs.block_size + m ≤ L.fs.block_size := by rw [hm]; split_ifs <;> omega
    have hm3 : m ≤ remaining := by rw [hm]; split_ifs <;> omega
    clear_value m
    have hl : pos / L.fs.block_size < L.maxBlocks := div_lt_maxBlocks (by omega)
    have h32 : u32 (pos / L.fs.block_size) = pos / L.fs.block_size :=
      mod_eq_of_lt (hl.trans maxBlocks_lt)
    have hsplit : L.bytes ib (L.vol s) n pos remaining =
        L.bytes ib (L.vol s) n pos m ++ L.bytes ib (L.vol s) n (pos + m) (remaining - m) := by
      rw [← bytes_append, Nat.add_sub_cancel' hm3]
    rw [h32, hsplit, ← append_assoc, bytes_eq _ hm2]
    refine readBlk_spec h hr (fun _ hp => ?_) (fun hp => ?_) fun he =>
      he.elim (fun h => h.1.elim) fun h => by omega
    · exact ih (pos + m) (remaining - m) _ (by omega) (by omega)
    · have hz : (List.range m).map (fun i => L.blk ib (L.vol s) n (pos / L.fs.block_size)
          (pos % L.fs.block_size + i)) = List.replicate m 0 := by
        rw [Layout.blk, block, if_pos (hp.resolve_right id)]
        exact eq_replicate_iff.2 ⟨by simp, fun b hb => by
          obtain ⟨i, -, rfl⟩ := mem_map.1 hb; rfl⟩
      rw [hz]
      exact ih (pos + m) (remaining - m) _ (by omega) (by omega)

theorem readData_run (h : DataPtrs L n ib (L.vol s).data) (hr : (s.inodes r).priv.i_block = ib n)
    (pos count : Nat) (hsize : (s.inodes r).size ≤ L.maxBytes) :
    wp (world False) (readData L.fs r pos count) (fun a s' => s' = s ∧
        a = some (L.bytes ib (L.vol s) n pos (min count ((s.inodes r).size - pos)))) s := by
  simp only [readData, wp_bind, wp_inodeAt]
  by_cases hle : (s.inodes r).size ≤ pos
  · rw [if_pos hle, wp_pure, Nat.sub_eq_zero_of_le hle, Nat.min_zero]
    exact ⟨rfl, rfl⟩
  rw [if_neg hle]
  simp only [wp_bind, wp_slabAlloc, if_not_true, false_imp_iff, and_true]
  have hcount : (if (s.inodes r).size - pos < count then (s.inodes r).size - pos else count) =
      min count ((s.inodes r).size - pos) := by split_ifs <;> omega
  rw [hcount]
  exact wp_weaken (readFrom_run h hr _ pos _ [] le_rfl (by omega)) fun _ _ h => h

end Read

/-! ## Truncating -/

section Truncate

variable {L : Layout} {n r : Nat} {ib : Nat → Nat → Nat} {s : St}

theorem ptr_cleared (data : Nat → Bytes) {a b : Nat} (hb : b ≤ 12) (x : Slot) (hlen : x.2.length ≤ depth x.1.2) :
    ptr (Function.update ib n (cleared a b (ib n))) data x =
      if x.1.1 = n ∧ x.2 = [] ∧ a ≤ x.1.2 ∧ x.1.2 < b then 0 else ptr ib data x := by
  obtain ⟨⟨m, k⟩, p⟩ := x
  induction p with
  | nil =>
    show Function.update ib n (cleared a b (ib n)) m k = if _ then 0 else ib m k
    by_cases hm : m = n
    · subst hm
      simp [cleared]
    · simp [hm]
  | cons i p ih =>
    -- a path below a pointer starts at one of the last two
    simp only [length_cons] at hlen
    have hk : ¬k < 12 := by
      intro hk
      rw [depth, if_pos hk] at hlen
      omega
    have hp : p.length ≤ depth k := by omega
    have hno : ∀ q : List Nat, ¬(m = n ∧ q = [] ∧ a ≤ k ∧ k < b) := fun q h => by omega
    have ih := ih hp
    rw [if_neg (hno p)] at ih
    rw [ptr_cons, ih, if_neg (hno (i :: p)), ptr_cons]

theorem ptr_cleared_slotOf (data : Nat → Bytes) {a b l : Nat} (hb : b ≤ 12) (hl : l < L.maxBlocks) :
    ptr (Function.update ib n (cleared a b (ib n))) data (L.slotOf n l) =
      if a ≤ l ∧ l < b then 0 else ptr ib data (L.slotOf n l) := by
  rw [ptr_cleared data hb _ (L.isSlot_self n hl).length]
  refine if_congr ?_ rfl rfl
  constructor
  · rintro ⟨-, h0, h⟩
    rwa [slotOf_direct (slotOf_nil h0)] at h
  · intro h
    rw [slotOf_direct (by omega)]
    exact ⟨rfl, rfl, h⟩

theorem update_eq_cleared (f : Nat → Nat) (l : Nat) : Function.update f l 0 = cleared l (l + 1) f := by
  funext k
  rw [update_apply, cleared]
  by_cases e : k = l
  · rw [if_pos e, if_pos (by omega)]
  · rw [if_neg e, if_neg (by omega)]

theorem cleared_self {l m : Nat} (h : m ≤ l) (f : Nat → Nat) : cleared l m f = f := by
  funext k
  rw [cleared, if_neg (by omega)]

theorem truncateFrom_run (hv : L.Valid s) (hd : DataPtrs L n ib (L.vol s).data)
    (hr : (s.inodes r).priv.i_block = ib n) (m l : Nat) :
    wp (world False) (truncateFrom L.fs r m l) (fun a s' => a = true → (m = 0 ∨ l + m ≤ L.maxBlocks) ∧
        L.Edits r s (cleared l (min (l + m) 12) (ib n))
          (L.release (L.vol s) ((List.range' l m).map fun j => ptr ib (L.vol s).data (L.slotOf n j))) s') s := by
  induction m generalizing s l ib with
  | zero =>
    rw [truncateFrom, wp_pure]
    refine fun _ => ⟨.inl rfl, .of_upd (.refl hv) ?_⟩
    rw [hr, cleared_self (by omega)]
  | succ m ih =>
    unfold truncateFrom
    refine wp_then (getBlock_false_spec hd hr l) ?_
    rintro a s1 ⟨rfl, ⟨hl, rfl⟩ | ⟨hge, rfl⟩ | ⟨hF, -⟩⟩
    · dsimp only
      rw [range'_succ, map_cons, release_cons]
      have hx := L.isSlot_self n hl
      by_cases h0 : ptr ib (L.vol s1).data (L.slotOf n l) = 0
      · simp only [h0, ne_eq, not_true_eq_false, if_false, if_true]
        refine wp_weaken (ih hv hd hr (l + 1)) fun a s2 h2 ha => ?_
        obtain ⟨hmax, hed⟩ := h2 ha
        refine ⟨.inr (by omega), ?_⟩
        have hc : cleared l (min (l + (m + 1)) 12) (ib n) = cleared (l + 1) (min (l + 1 + m) 12) (ib n) := by
          by_cases hl12 : l < 12
          · have hz : ib n l = 0 := by rw [Layout.slotOf, if_pos hl12] at h0; exact h0
            rw [cleared_cons (by omega), ← hz, update_eq_self, Nat.add_right_comm, Nat.add_assoc]
          · rw [cleared_self (by omega), cleared_self (by omega)]
        rw [hc]
        exact hed
      · simp only [h0, ne_eq, not_false_eq_true, if_true, if_false, wp_bind]
        refine wp_weaken (freeBlock_run hv (hd _ hx h0).1) fun _ s2 h2 => ?_
        have hdata : (L.vol s2).data = (L.vol s1).data := by rw [h2.vol]; rfl
        by_cases hl12 : l < 12
        · have hed := (Layout.Edits.of_upd h2 hr).setIBlock l 0
          simp only [hl12, if_true, setIBlock, wp_bind, wp_update]
          -- the loop goes on with the pointer cleared, which the slots ahead do not see
          set ib1 := Function.update ib n (Function.update (ib n) l 0) with hib
          have hptr : ∀ x : Slot, x.2.length ≤ depth x.1.2 → ptr ib1 (L.vol s1).data x =
              if x.1.1 = n ∧ x.2 = [] ∧ l ≤ x.1.2 ∧ x.1.2 < l + 1 then 0 else ptr ib (L.vol s1).data x := by
            rw [hib, update_eq_cleared]
            exact ptr_cleared _ hl12
          have hd1 : DataPtrs L n ib1 (L.vol s1).data := by
            intro x hx hx0
            rw [hptr x hx.length] at hx0 ⊢
            split_ifs at hx0 ⊢ with e
            · exact absurd rfl hx0
            · exact hd x hx hx0
          have hvol : (L.vol (s2.modify r fun i => i.setBlocks (Function.update i.priv.i_block l 0))).data =
              (L.vol s1).data := hdata
          refine wp_weaken (@ih ib1 _ hed.valid (by rw [hvol]; exact hd1)
            (by rw [hed.i_block, hib, update_self]) (l + 1)) fun a s3 h3 ha => ?_
          obtain ⟨hmax, h3⟩ := h3 ha
          refine ⟨.inr (by omega), ?_⟩
          rw [hvol, hed.vol] at h3
          have hmap : ((List.range' (l + 1) m).map fun j => ptr ib1 (L.vol s1).data (L.slotOf n j)) =
              (List.range' (l + 1) m).map fun j => ptr ib (L.vol s1).data (L.slotOf n j) := by
            refine map_congr_left fun j hj => ?_
            have hj := mem_range'_1.1 hj
            rw [hib, update_eq_cleared, ptr_cleared_slotOf _ hl12 (by omega), if_neg (by omega)]
          have hc : cleared (l + 1) (min (l + 1 + m) 12) (ib1 n) = cleared l (min (l + (m + 1)) 12) (ib n) := by
            rw [cleared_cons (l := l) (by omega), hib, update_self, Nat.add_right_comm, Nat.add_assoc]
          rw [hmap, hc] at h3
          exact hed.trans h3
        · simp only [hl12, if_false]
          refine wp_weaken (@ih ib _ h2.valid (by rw [hdata]; exact hd) (by rw [h2.same.inodes, hr]) (l + 1))
            fun a s3 h3 ha => ?_
          obtain ⟨hmax, h3⟩ := h3 ha
          refine ⟨.inr (by omega), ?_⟩
          rw [hdata, h2.vol, cleared_self (by omega)] at h3
          rw [cleared_self (by omega)]
          exact (Layout.Edits.of_upd h2 hr).trans h3
    · simp
    · exact hF.elim

end Truncate

end Ext2
