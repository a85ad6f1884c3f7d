import Loeux.Ext2.Content
/-!
# The count of sectors in an inode record

`i_blocks` is stored as the number of sectors of the mapped blocks below the size.
Pointer blocks are not among them, so it is the number of sectors the inode owns
as long as the file keeps to its direct blocks.
-/
open Lib List Prog

namespace Ext2

open Layout

namespace Layout

variable (L : Layout)

def ownedSlots (s : St) (n : Nat) : List Slot := (L.slots n).filter fun x => ptr (L.vol s).blocks (L.vol s).data x ≠ 0

/-- `i_blocks` is the number of sectors in all blocks that the inode owns. -/
def SectorsExact (s : St) (n : Nat) : Prop :=
  Di.i_blocks ((L.vol s).inode n) = (L.ownedSlots s n).length * (L.fs.block_size / 512)

structure Direct (s : St) (r : Nat) : Prop where
  ind : (s.inodes r).priv.i_block EXT2_IND_BLOCK = 0
  dind : (s.inodes r).priv.i_block EXT2_DIND_BLOCK = 0
  size : (s.inodes r).size = (s.inodes r).priv.i_size
  size_le : (s.inodes r).priv.i_size + L.fs.block_size ≤ 2 ^ 32
  mapped : ∀ l, l < 12 → (s.inodes r).priv.i_block l ≠ 0 → l * L.fs.block_size < (s.inodes r).priv.i_size

/-- Writes and truncations: those of the file write within its direct blocks and keep
its size below the limit of 32 bits, those of other files keep the volume in order. -/
def Small (r : Nat) (m : Mount) : Call → Prop
  | .write r' pos _ count => r' = r → pos + count + L.fs.block_size ≤ 2 ^ 32 ∧ (0 < count → pos + count ≤ 12 * L.fs.block_size)
  | .truncate r' size => (r' = r → size + L.fs.block_size ≤ 2 ^ 32) ∧ (r' ≠ r → L.Safe m (.truncate r' size))
  | _ => False

end Layout

section

variable {L : Layout} {cnt : Prop} {held : List Nat} {live : Nat → Prop} {ib : Nat → Nat → Nat} {s s' : St} {r n : Nat}

theorem i_blocks_privToDisk (p : Priv) : Di.i_blocks ((privToDisk p).slice 128 0) = p.i_blocks % 256 ^ 4 := by
  rw [Di.i_blocks, Bytes.get_slice _ (by decide), Nat.zero_add, privToDisk, get_putIBlock_of_lt _ _ _ (by decide)]
  exact Bytes.get_put ..

theorem blocksOf_eq {size : Nat} (h : size + L.fs.block_size ≤ 2 ^ 32) :
    blocksOf L.fs size = (size + L.fs.block_size - 1) / L.fs.block_size := by
  have := L.block_size_pos
  rw [blocksOf, u32, Nat.mod_eq_of_lt (by omega)]

theorem lt_blocksOf {size l : Nat} (h : size + L.fs.block_size ≤ 2 ^ 32) (hl : l * L.fs.block_size < size) : l < blocksOf L.fs size := by
  have hpos := L.block_size_pos
  rw [blocksOf_eq h]
  refine (Nat.le_div_iff_mul_le hpos).2 ?_
  rw [Nat.succ_mul]
  omega

theorem Layout.Direct.slot (hd : L.Direct s r) (hagree : ∀ k, k ≤ EXT2_DIND_BLOCK → (s.inodes r).priv.i_block k = (L.vol s).blocks n k)
    {x : Slot} (hx : L.IsSlot (· = n) x) (h0 : ptr (L.vol s).blocks (L.vol s).data x ≠ 0) :
    ∃ k, k < 12 ∧ x = ((n, k), []) ∧ (s.inodes r).priv.i_block k ≠ 0 := by
  obtain ⟨⟨m, k⟩, p⟩ := x
  obtain rfl : m = n := hx.live
  have hk : k ≤ EXT2_DIND_BLOCK := hx.root
  have hroot : (L.vol s).blocks m k ≠ 0 := fun e => h0 (ptr_of_root_zero _ e p)
  rw [← hagree k hk] at hroot
  have hk12 : k < 12 := by
    by_contra hge
    rcases (by unfold EXT2_DIND_BLOCK at hk; omega : k = 12 ∨ k = 13) with rfl | rfl
    · exact hroot hd.ind
    · exact hroot hd.dind
  have hp : p = [] := by
    have hlen := hx.length
    simp only [depth, hk12, if_true] at hlen
    exact length_eq_zero_iff.1 (Nat.le_zero.1 hlen)
  exact ⟨k, hk12, by rw [hp], hroot⟩

theorem Layout.Direct.owned (hd : L.Direct s r)
    (hagree : ∀ k, k ≤ EXT2_DIND_BLOCK → (s.inodes r).priv.i_block k = (L.vol s).blocks n k) :
    (L.ownedSlots s n).Perm ((L.mappedBelow (s.objectPtrs r) (L.vol s).data n (blocksOf L.fs (s.inodes r).priv.i_size)).map (L.slotOf n)) := by
  have hptr : ∀ x, L.IsSlot (· = n) x → ptr (s.objectPtrs r) (L.vol s).data x = ptr (L.vol s).blocks (L.vol s).data x := fun x hx =>
    @ptr_congr L (· = n) _ _ _ _ (fun m k hm hk => by rw [hm]; exact hagree k hk) (fun _ _ _ _ => rfl) _ hx
  have hnodup : ((L.mappedBelow (s.objectPtrs r) (L.vol s).data n (blocksOf L.fs (s.inodes r).priv.i_size)).map (L.slotOf n)).Nodup :=
    List.Nodup.map (fun a b e => (slotOf_inj e).2) (List.Nodup.filter _ nodup_range)
  refine (perm_ext_iff_of_nodup (List.Nodup.filter _ (nodup_slots n)) hnodup).2 fun x => ?_
  unfold Layout.mappedBelow
  simp only [mem_filter, mem_map, mem_range, mem_slots, decide_eq_true_eq, ne_eq]
  constructor
  · rintro ⟨hx, h0⟩
    obtain ⟨k, hk, rfl, hk0⟩ := hd.slot hagree hx h0
    have hmax : k < L.maxBlocks := by
      unfold Layout.maxBlocks
      omega
    refine ⟨k, ⟨lt_blocksOf hd.size_le (hd.mapped k hk hk0), hmax, ?_⟩, slotOf_direct hk⟩
    rw [slotOf_direct hk, hptr _ hx]
    exact h0
  · rintro ⟨l, ⟨-, hl, h0⟩, rfl⟩
    refine ⟨L.isSlot_self n hl, ?_⟩
    rw [← hptr _ (L.isSlot_self n hl)]
    exact h0

theorem Layout.Direct.exact (hd : L.Direct s r) (hs : L.Stored s r)
    (hagree : ∀ k, k ≤ EXT2_DIND_BLOCK → (s.inodes r).priv.i_block k = (L.vol s).blocks (s.ino r) k) : L.SectorsExact s (s.ino r) := by
  have hperm := (hd.owned hagree).length_eq
  rw [length_map] at hperm
  -- at most twelve blocks
  have hle : (L.ownedSlots s (s.ino r)).length ≤ 12 := by
    have hsub : (L.ownedSlots s (s.ino r)).Subperm ((List.range 12).map fun k => ((s.ino r, k), [])) := by
      refine List.Nodup.subperm (List.Nodup.filter _ (nodup_slots _)) fun x hx => ?_
      obtain ⟨hx, h0⟩ := mem_filter.1 hx
      obtain ⟨k, hk, rfl, -⟩ := hd.slot hagree (mem_slots.1 hx) (of_decide_eq_true h0)
      exact mem_map.2 ⟨k, mem_range.2 hk, rfl⟩
    simpa using hsub.length_le
  have hbs := L.block_size_le
  have hfew : (L.ownedSlots s (s.ino r)).length * (L.fs.block_size / 512) < 2 ^ 32 := by
    have : (L.ownedSlots s (s.ino r)).length * (L.fs.block_size / 512) ≤ 12 * (L.fs.block_size / 512) := Nat.mul_le_mul_right _ hle
    omega
  unfold Layout.SectorsExact
  rw [hs.record, i_blocks_privToDisk, hs.i_blocks, Layout.sectors, ← hperm, u32, Nat.mod_eq_of_lt hfew]
  exact Nat.mod_eq_of_lt (hfew.trans_le (by decide))

/-! ## Writes and truncations within the direct blocks -/

theorem writeFrom_direct (hv : L.Valid s) (h : Owns L live ib (L.vol s)) (hn : live n) (hr : (s.inodes r).priv.i_block = ib n)
    (pos : Nat) (buf : Bytes) {stop : Nat} (hstop : stop ≤ 12 * L.fs.block_size) (fuel f : Nat) :
    Prog.wp (world False) (writeFrom L.fs r pos buf stop fuel f) (fun a s' => a = true → ∀ k, k ≤ EXT2_DIND_BLOCK →
        (s'.inodes r).priv.i_block k = (s.inodes r).priv.i_block k ∨ k * L.fs.block_size < stop) s := by
  induction fuel generalizing s f ib with
  | zero =>
    rw [writeFrom, wp_pure]
    exact fun _ _ _ => .inl rfl
  | succ fuel ih =>
    unfold writeFrom
    by_cases hle : stop ≤ f
    · rw [if_pos hle, wp_pure]
      exact fun _ _ _ => .inl rfl
    rw [if_neg hle]
    dsimp only
    generalize (if stop - f < L.fs.block_size - f % L.fs.block_size then stop - f else L.fs.block_size - f % L.fs.block_size) = m
    have hlt : f / L.fs.block_size < 12 := (Nat.div_lt_iff_lt_mul L.block_size_pos).2 (by omega)
    have hbelow : f / L.fs.block_size * L.fs.block_size < stop := (Nat.div_mul_le_self _ _).trans_lt (Nat.not_le.1 hle)
    have h32 : u32 (f / L.fs.block_size) = f / L.fs.block_size := Nat.mod_eq_of_lt (by omega)
    rw [h32]
    generalize f / L.fs.block_size = l at hlt hbelow
    simp only [getBlock, hlt, if_true, wp_bind]
    refine wp_weaken (rootAlloc_spec hv h hn (by unfold EXT2_DIND_BLOCK; omega) hr) ?_
    rintro a s1 (⟨rfl, -⟩ | ⟨b, ib1, rfl, hb, hext, rfl⟩)
    · simp
    have hslot : L.IsSlot live ((n, l), []) := slotOf_direct (L := L) hlt ▸
      L.isSlot_slotOf hn (show l < L.maxBlocks by unfold Layout.maxBlocks; omega)
    have hleaf : Leaf ((n, l), []) := slotOf_direct (L := L) hlt ▸ L.leaf_slotOf n l
    -- the rest of the loop, once the block is written
    have key : ∀ d : Bytes, Prog.wp (world False) (writeFrom L.fs r pos buf stop fuel (f + m))
        (fun a s' => a = true → ∀ k, k ≤ EXT2_DIND_BLOCK →
          (s'.inodes r).priv.i_block k = (s.inodes r).priv.i_block k ∨ k * L.fs.block_size < stop)
        (s1.write (ptr ib1 (L.vol s1).data ((n, l), [])) d) := by
      intro d
      have ht := Layout.Touches.write hext.valid hext.grown.owns hext.i_block hslot hleaf rfl hb d
      refine wp_weaken (ih ht.valid ht.touched.owns ht.i_block (f + m)) ?_
      rintro a s3 h3 rfl k hk
      by_cases hkl : k = l
      · subst hkl
        exact .inr hbelow
      refine (h3 rfl k hk).imp_left fun e => e.trans ?_
      have hfill := hext.grown.fills ((n, k), []) ⟨hn, hk, by simp, by simp⟩ (by simpa using hkl)
      show (s1.inodes r).priv.i_block k = _
      rw [hext.i_block, hr]
      exact hfill
    simp only [hb, if_false]
    split_ifs
    · simp only [wp_bind, wp_writeBlock, false_imp_iff, and_true]
      exact key _
    · simp only [wp_bind, wp_readBlock, wp_writeBlock, false_imp_iff, and_true]
      exact key _

theorem writeData_direct {pos count c : Nat} {buf : Bytes} (h : Mounted L cnt held s) (hr : r ∈ held)
    (hstop : pos < u64 (pos + count) → u64 (pos + count) ≤ 12 * L.fs.block_size)
    (hrun : (writeData L.fs r pos buf count).run serve s = (some c, s')) {k : Nat} (hk : k ≤ EXT2_DIND_BLOCK) :
    (s'.inodes r).priv.i_block k = (s.inodes r).priv.i_block k ∨ pos < u64 (pos + count) ∧ k * L.fs.block_size < u64 (pos + count) := by
  obtain ⟨-, -, s2, hs2, hptrs, -⟩ := run_of_wp (writeData_run h hr pos buf count) hrun c rfl
  rw [show (s'.inodes r).priv.i_block k = (s2.inodes r).priv.i_block k from congrFun (congrFun hptrs 0) k]
  rcases hs2 with ⟨-, rfl⟩ | ⟨hlt, hrun⟩
  · exact .inl rfl
  · obtain ⟨ib1, h1, hib1, -⟩ := (h.work (· = s.ino r)).align (h.agree r hr)
    have hlinks := run_of_wp (writeFrom_direct h1.valid h1.owns (h1.live r hr) hib1 pos buf (hstop hlt) _ pos) hrun
    exact (hlinks rfl k hk).imp_right fun hb => ⟨hlt, hb⟩

/-- The object and its record: no pointer block, no block behind the size, and the sectors counted. -/
structure Layout.Counts (L : Layout) (s : St) (r : Nat) : Prop where
  direct : L.Direct s r
  exact : L.SectorsExact s (s.ino r)

theorem Layout.Counts.wrote (h : Mounted L cnt held s) (hr : r ∈ held) (hc : L.Counts s r) {pos count c : Nat} {buf : Bytes}
    (hsize : pos + count + L.fs.block_size ≤ 2 ^ 32) (hfit : 0 < count → pos + count ≤ 12 * L.fs.block_size)
    (hrun : (writeData L.fs r pos buf count).run serve s = (some c, s')) : L.Counts s' r := by
  have hpos := L.block_size_pos
  have hstop : u64 (pos + count) = pos + count := Nat.mod_eq_of_lt (by omega)
  obtain ⟨-, hw, -⟩ := run_of_wp (writeData_run h hr pos buf count) hrun c rfl
  obtain ⟨hsave, hsame⟩ := writeData_saved h hr hrun
  have hptr := fun k => writeData_direct (k := k) h hr (by rw [hstop]; exact fun hlt => hfit (by omega)) hrun
  rw [hstop] at hw hsave hsame hptr
  have hd := hc.direct
  have hold := hd.size
  have hle := hd.size_le
  have hold_le : (s.inodes r).priv.i_size ≤ (s'.inodes r).priv.i_size := by
    rw [hw.i_size]
    split_ifs with hg
    · rw [u32, Nat.mod_eq_of_lt (by omega)]
      omega
    · exact le_rfl
  have hstop_le : pos + count ≤ (s'.inodes r).priv.i_size := by
    rw [hw.i_size]
    split_ifs with hg
    · rw [u32, Nat.mod_eq_of_lt (by omega)]
    · omega
  have hroot : ∀ k, 12 ≤ k → k ≤ EXT2_DIND_BLOCK → (s'.inodes r).priv.i_block k = (s.inodes r).priv.i_block k := by
    intro k h12 hk
    refine (hptr k hk).resolve_right fun hb => ?_
    have := hfit (by omega)
    have := Nat.mul_le_mul_right L.fs.block_size h12
    omega
  have hdirect : L.Direct s' r := by
    refine ⟨?_, ?_, ?_, ?_, fun l hl h0 => ?_⟩
    · rw [hroot _ (by decide) (by decide), hd.ind]
    · rw [hroot _ (by decide) (by decide), hd.dind]
    · rw [hw.size, hw.i_size, hold]
      split_ifs
      · exact (Nat.mod_eq_of_lt (by omega)).symm
      · rfl
    · rw [hw.i_size]
      split_ifs
      · rw [u32, Nat.mod_eq_of_lt (by omega)]
        exact hsize
      · exact hle
    · rcases hptr l (by unfold EXT2_DIND_BLOCK; omega) with e | hb
      · rw [e] at h0
        exact (hd.mapped l hl h0).trans_le hold_le
      · exact hb.2.trans_le hstop_le
  refine ⟨hdirect, ?_⟩
  by_cases hsaved : pos < pos + count ∨ (s.inodes r).size < pos + count
  · exact hdirect.exact (hsave hsaved) (hw.mounted.agree r hr)
  · have := hc.exact
    unfold Layout.SectorsExact Layout.ownedSlots at this ⊢
    rw [hsame hsaved, hw.steady.ino]
    exact this

theorem newBlocks_eq {size : Nat} (h : size + L.fs.block_size ≤ 2 ^ 32) : newBlocks L.fs size = blocksOf L.fs size := by
  have hpos := L.block_size_pos
  have h64 : u64 (size + L.fs.block_size - 1) = size + L.fs.block_size - 1 := Nat.mod_eq_of_lt (by omega)
  rw [blocksOf_eq h, newBlocks, h64]
  exact Nat.mod_eq_of_lt ((Nat.div_le_self _ _).trans_lt (by omega))

theorem Layout.Direct.pointer (hd : L.Direct s r) (hagree : ∀ k, k ≤ EXT2_DIND_BLOCK → (s.inodes r).priv.i_block k = (L.vol s).blocks n k)
    {l : Nat} (h12 : 12 ≤ l) (hl : l < L.maxBlocks) : L.pointer s n l = 0 := by
  by_contra h0
  obtain ⟨k, hk, e, -⟩ := hd.slot hagree (L.isSlot_self n hl) h0
  rw [← slotOf_direct (L := L) hk] at e
  have := (slotOf_inj e).2
  omega

theorem Layout.Counts.truncated (h : Mounted L False held s) (hr : r ∈ held) (hc : L.Counts s r) {size : Nat}
    (hsize : size + L.fs.block_size ≤ 2 ^ 32) (hrun : (truncate L.fs r size).run serve s = (true, s')) : L.Counts s' r := by
  have hpos := L.block_size_pos
  have hd := hc.direct
  have ht := run_of_wp (truncate_run h hr size (.inr fun l h12 _ _ hl => hd.pointer (h.agree r hr) h12 hl) fun hF => hF.elim) hrun rfl
  obtain ⟨hstored, -, -, -, hptr⟩ := run_of_wp (truncate_saved h hr size) hrun rfl
  have hi_size : (s'.inodes r).priv.i_size = size := by rw [ht.i_size, u32, Nat.mod_eq_of_lt (by omega)]
  have hdirect : L.Direct s' r := by
    refine ⟨?_, ?_, by rw [ht.size, hi_size], by rw [hi_size]; exact hsize, fun l hl h0 => ?_⟩
    · exact (hptr _).elim (fun e => e.trans hd.ind) id
    · exact (hptr _).elim (fun e => e.trans hd.dind) id
    have hk : l ≤ EXT2_DIND_BLOCK := by unfold EXT2_DIND_BLOCK; omega
    have hmapped := hd.mapped l hl (by rw [← (hptr l).resolve_right h0]; exact h0)
    have hp := ht.pointer l (by unfold Layout.maxBlocks; omega)
    have hcur : L.pointer s' (s.ino r) l = (s'.inodes r).priv.i_block l := by
      rw [Layout.pointer, slotOf_direct hl, ht.mounted.agree r hr l hk, ht.steady.ino]
      rfl
    rw [hcur] at hp
    rw [hi_size]
    -- a block at or behind the new size was cut
    by_contra hge
    refine h0 (hp.trans (if_pos ?_))
    have hlt : l < blocksOf L.fs (s.inodes r).priv.i_size := lt_blocksOf hd.size_le hmapped
    have hnew : newBlocks L.fs size ≤ l := by
      rw [newBlocks_eq hsize, blocksOf_eq hsize]
      refine Nat.lt_succ_iff.1 ((Nat.div_lt_iff_lt_mul hpos).2 ?_)
      rw [Nat.succ_mul]
      omega
    exact ⟨by omega, hnew, .inl hlt⟩
  exact ⟨hdirect, hdirect.exact hstored (ht.mounted.agree r hr)⟩

theorem Layout.Counts.spared {S : Nat → Prop} (h : Mounted L cnt held s) (hr : r ∈ held) (hc : L.Counts s r)
    (hS : ¬S (s.ino r)) (hsp : L.Spares held S s (L.vol s').blocks s') : L.Counts s' r := by
  have hino := hsp.ino r hr (h.fresh r hr)
  have hobj := hsp.inodes r hr (by rw [hino]; exact hS)
  have hlive := h.live r hr
  have hd := hc.direct
  refine ⟨⟨?_, ?_, ?_, ?_, ?_⟩, ?_⟩
  · rw [hobj, hd.ind]
  · rw [hobj, hd.dind]
  · rw [hobj, hd.size]
  · rw [hobj]
    exact hd.size_le
  · rw [hobj]
    exact hd.mapped
  · have hslots : L.ownedSlots s' (s.ino r) = L.ownedSlots s (s.ino r) := by
      refine filter_congr fun x hx => ?_
      rw [hsp.pointer _ x hlive hS (mem_slots.1 hx)]
    unfold Layout.SectorsExact
    rw [hino, hslots, hsp.record _ hlive hS]
    exact hc.exact

theorem Step.counts {m m' : Mount} {c : Call} (h : Mounted L False m.held m.st) (hr : r ∈ m.held) (hc : L.Counts m.st r)
    (hsmall : L.Small r m c) (hstep : Step L.fs m c m') : Mounted L False m'.held m'.st ∧ r ∈ m'.held ∧ L.Counts m'.st r := by
  obtain ⟨hobj, hdo⟩ := hstep
  cases hdo with
  | @write r' pos buf count c s' he =>
    have hw := (run_of_wp (writeData_run h hobj pos buf count) he _ rfl).2.1
    refine ⟨hw.mounted, hr, ?_⟩
    by_cases e : r' = r
    · subst e
      exact hc.wrote h hr (hsmall rfl).1 (hsmall rfl).2 he
    · exact hc.spared h hr (S := (· = m.st.ino r')) (h.ino_ne hr hobj e) hw.spares
  | @truncate r' size s' he =>
    by_cases e : r' = r
    · subst e
      have hpointer := fun l h12 (_ : newBlocks L.fs size ≤ l) (_ : l < blocksOf L.fs (m.st.inodes r').priv.i_size) hl =>
        hc.direct.pointer (h.agree r' hr) (l := l) h12 hl
      have ht := run_of_wp (truncate_run h hobj size (.inr hpointer) fun hF => hF.elim) he rfl
      exact ⟨ht.mounted, hr, hc.truncated h hr (hsmall.1 rfl) he⟩
    · have hs := hsmall.2 e
      have ht := run_of_wp (truncate_run h hobj size (hs.imp id fun hs l h1 h2 h3 h4 => hs l ⟨h1, h2, h3, h4⟩)
        fun hF => hF.elim) he rfl
      exact ⟨ht.mounted, hr, hc.spared h hr (S := (· = m.st.ino r')) (h.ino_ne hr hobj e) ht.spares⟩
  | _ => exact hsmall.elim

/-- In every run of writes and truncations that keeps the file to its direct blocks and
its size below the limit of 32 bits, `i_blocks` in its record is the number of sectors
that the inode owns. -/
theorem sectors_exact {m m' : Mount} {cs : List Call} (h : Mounted L False m.held m.st) (hr : r ∈ m.held)
    (hdirect : L.Direct m.st r) (hexact : L.SectorsExact m.st (m.st.ino r))
    (hrun : Run (Guarded (L.Small r) (Step L.fs)) m cs m') : L.SectorsExact m'.st (m'.st.ino r) := by
  have hcounts : L.Counts m.st r := .mk hdirect hexact
  have hinv := hrun.inv (fun m => Mounted L False m.held m.st ∧ r ∈ m.held ∧ L.Counts m.st r)
    (fun _ _ _ hm hs hstep => hstep.counts hm.1 hm.2.1 hm.2.2 hs) ⟨h, hr, hcounts⟩
  exact hinv.2.2.exact

end

namespace Sample

set_option maxRecDepth 100000

/-- The file whose block 12 is written owns two blocks and the block of their pointers,
and two blocks are counted. -/
theorem indirect_not_counted : Mounted layout True mount.held mount.st ∧
    Run (Step layout.fs) mount [.write 0 12288 (byte 88) 1] (written mount 12288 88) ∧
    Di.i_blocks ((layout.vol (written mount 12288 88).st).inode 11) = 4 ∧
    ¬layout.SectorsExact (written mount 12288 88).st 11 := by
  have hcount : Di.i_blocks ((layout.vol (written mount 12288 88).st).inode 11) = 4 := by decide +kernel
  refine ⟨mounted, .one (written_step mem_cons_self (by decide +kernel)), hcount, fun h => ?_⟩
  have hsub : ([((11, 12), []), ((11, 12), [0]), ((11, 12), [1])] : List Slot).Subperm (layout.ownedSlots (written mount 12288 88).st 11) := by
    refine List.Nodup.subperm (by decide) fun x hx => ?_
    simp only [mem_cons, not_mem_nil, or_false] at hx
    rcases hx with rfl | rfl | rfl
    all_goals
      refine mem_filter.2 ⟨mem_slots.2 ⟨rfl, by decide, by decide, by decide⟩, ?_⟩
      decide +kernel
  have h3 : 3 ≤ (layout.ownedSlots (written mount 12288 88).st 11).length := hsub.length_le
  unfold Layout.SectorsExact at h
  rw [hcount, show layout.fs.block_size / 512 = 2 from rfl] at h
  omega

theorem made_mounted : Mounted layout False made.held made.st := by
  have hstep : Step layout.fs mount (.create 1 [104] 0o644) made := ⟨by decide, .create_of (by decide +kernel)⟩
  have hsafe : layout.Safe mount (.create 1 [104] 0o644) := trivial
  exact hstep.mounted uncounted hsafe fun hF => hF.elim

theorem made_direct : layout.Direct made.st 2 := by
  have hnone : ∀ l, l < 12 → (made.st.inodes 2).priv.i_block l = 0 := by decide +kernel
  exact ⟨by decide +kernel, by decide +kernel, by decide +kernel, by decide +kernel, fun l hl h0 => absurd (hnone l hl) h0⟩

theorem made_exact : layout.SectorsExact made.st (made.st.ino 2) := by
  have hlen := (made_direct.owned (made_mounted.agree 2 mem_cons_self)).length_eq
  have hzero : blocksOf layout.fs (made.st.inodes 2).priv.i_size = 0 := by decide +kernel
  rw [length_map, hzero] at hlen
  unfold Layout.SectorsExact
  rw [hlen]
  decide +kernel

def filled : Mount := ⟨((writeData layout.fs 2 0 (byte 88) 1).run serve made.st).2, made.held⟩

theorem filled_exact : Mounted layout False made.held made.st ∧ layout.Direct made.st 2 ∧
    Run (Guarded (layout.Small 2) (Step layout.fs)) made [.write 2 0 (byte 88) 1] filled ∧
    Di.i_blocks ((layout.vol filled.st).inode (filled.st.ino 2)) = 2 ∧ layout.SectorsExact filled.st (filled.st.ino 2) := by
  have hrun : Run (Guarded (layout.Small 2) (Step layout.fs)) made [.write 2 0 (byte 88) 1] filled := by
    have hstep : Step layout.fs made (.write 2 0 (byte 88) 1) filled :=
      ⟨mem_cons_self, .write (c := 1) (Prod.ext (by decide +kernel) rfl)⟩
    exact .one ⟨fun _ => ⟨by decide, fun _ => by decide⟩, hstep⟩
  exact ⟨made_mounted, made_direct, hrun, by decide +kernel, sectors_exact made_mounted mem_cons_self made_direct made_exact hrun⟩

end Sample

end Ext2
