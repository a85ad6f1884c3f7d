import Loeux.Ext2.Consistency
import Loeux.Ext2.Remove
/-!
# Files with several names

What `ext2_unlink` leaves of a file that has other names.
-/
open Lib Bytes Nat

namespace Ext2

section Unlink

variable {L : Layout} {cnt : Prop} {held : List Nat} {s s' : St} {dir n : Nat} {name : List UInt8}

/-- The effect of a successful `ext2_unlink` on the file `n` and on the others. -/
abbrev Layout.Unlinked (L : Layout) (s : St) (dir n : Nat) (name : List UInt8) (s' : St) : Prop :=
  L.Removal s dir n name id (unlinkRecord ((L.vol s).inode n)) (Di.i_links_count ((L.vol s).inode n) ≤ 1) s'

/-- Exactly one name of file `n` is gone: its entry in `dir` and one link; the file
and all others are as they were. -/
structure Layout.DropsName (L : Layout) (s : St) (dir n : Nat) (name : List UInt8) (s' : St) : Prop where
  listing : ∃ e, e.ino = n ∧ Removed name e (L.listing s dir) (L.listing s' dir)
  others : ∀ m, (L.vol s).live m → m ≠ n → m ≠ s.ino dir → (L.vol s').inode m = (L.vol s).inode m ∧
    ∀ off, off < L.maxBytes → L.content s' m off = L.content s m off
  links : Di.i_links_count ((L.vol s').inode n) = Di.i_links_count ((L.vol s).inode n) - 1
  size : Di.i_size ((L.vol s').inode n) = Di.i_size ((L.vol s).inode n)
  content : ∀ off, off < L.maxBytes → L.content s' n off = L.content s n off
  allocated : ∀ x, L.IsSlot (· = n) x →
    ptr (L.vol s').blocks (L.vol s').data x = ptr (L.vol s).blocks (L.vol s).data x ∧
      (ptr (L.vol s).blocks (L.vol s).data x ≠ 0 → (L.vol s').used (ptr (L.vol s).blocks (L.vol s).data x) = true)

theorem Layout.Unlinked.record_get (h : L.Unlinked s dir n name s') {off w : Nat} (hoff : off + w ≤ 128)
    (h1 : off + w ≤ 26 ∨ 28 ≤ off) (h2 : off + w ≤ 20 ∨ 24 ≤ off) :
    ((L.vol s').inode n).get w off = ((L.vol s).inode n).get w off := by
  obtain ⟨t, hrec⟩ := h.record
  rw [hrec, unlinkRecord, get_slice _ (by omega), Nat.zero_add, get_put_of_disjoint _ _ (by omega),
    get_put_of_disjoint _ _ (by omega)]

theorem Layout.Unlinked.blocks (h : L.Unlinked s dir n name s') {m k : Nat} (hmd : m ≠ s.ino dir)
    (hk : k ≤ EXT2_DIND_BLOCK) : (L.vol s').blocks m k = (L.vol s).blocks m k := by
  by_cases e : m = n
  · subst e
    have hk : k ≤ 13 := hk
    exact h.record_get (by omega) (by omega) (by omega)
  · rw [Vol.blocks, h.others m e hmd]
    rfl

theorem Layout.Unlinked.content (h : L.Unlinked s dir n name s') {m : Nat} (hm : (L.vol s).live m)
    (hmd : m ≠ s.ino dir) {off : Nat} (hoff : off < L.maxBytes) : L.content s' m off = L.content s m off := by
  have hl := Layout.div_lt_maxBlocks hoff
  have hx := L.isSlot_slotOf hm hl
  have hb := h.block _ hx (by rw [L.slotOf_ino]; exact hmd) (L.leaf_slotOf m _)
  unfold Layout.content Layout.byte
  rw [Layout.blk_congr (fun k hk => h.blocks hmd hk) hl, Layout.blk, hb]
  rfl

/-- Removing one of several names of a file frees its blocks, so the file stays as
it was exactly if it has none. -/
theorem unlink_drops_name_iff (h : Mounted L cnt held s) (hdir : dir ∈ held)
    (hwf : L.WellFormed (L.vol s).blocks (L.vol s) (s.ino dir) (L.dirBlocks (s.inodes dir).priv.i_size))
    (hdirmode : ifmt (Di.i_mode ((L.vol s).inode (s.ino dir))) = S_IFDIR)
    (hfind : s.find L.fs dir name = some n) (hlive : (L.vol s).live n)
    (hreg : ifmt (Di.i_mode ((L.vol s).inode n)) = S_IFREG) (hk : 2 ≤ Di.i_links_count ((L.vol s).inode n))
    (hrun : (unlink L.fs dir name).run serve s = (true, s')) :
    L.DropsName s dir n name s' ∧ (L.vol s').live n ↔ (L.vol s).NoBlocks n := by
  have hne : s.ino dir ≠ n := by
    rintro rfl
    rw [hdirmode] at hreg
    cases hreg
  have hu : L.Unlinked s dir n name s' := (run_of_wp (unlink_exact h hdir hwf hfind hlive hne) hrun).2 rfl
  constructor
  · rintro ⟨hd, -⟩ k hk'
    by_contra h0
    have hx : L.IsSlot (· = n) ((n, k), []) := ⟨rfl, hk', Nat.zero_le _, by simp⟩
    have h0 : ptr (L.vol s).blocks (L.vol s).data ((n, k), []) ≠ 0 := h0
    have hfreed := hu.freed _ hx h0
    rw [(hd.allocated _ hx).2 h0] at hfreed
    cases hfreed
  · intro hnb
    have hlinks : Di.i_links_count ((L.vol s').inode n) = Di.i_links_count ((L.vol s).inode n) - 1 := by
      obtain ⟨t, hrec⟩ := hu.record
      have hlt : Di.i_links_count ((L.vol s).inode n) < 256 ^ 2 := get_lt ..
      rw [hrec, unlinkRecord, Di.i_links_count, get_slice _ (by omega), Nat.zero_add, get_put_of_disjoint _ _ (by omega),
        get_put, mod_eq_of_lt (by omega)]
    refine ⟨⟨hu.listing, fun m hm hmn hmd => ⟨hu.others m hmn hmd, fun off hoff => hu.content hm hmd hoff⟩, hlinks, ?_,
      fun off hoff => hu.content hlive hne.symm hoff, fun x hx => ?_⟩, ?_⟩
    · exact hu.record_get (by omega) (by omega) (by omega)
    · have hp : ptr (L.vol s).blocks (L.vol s).data x = 0 := ptr_eq_zero hnb hx hx.live
      refine ⟨?_, fun h0 => absurd hp h0⟩
      rw [ptr_slot_congr (fun k hk => hu.blocks hne.symm hk) _ hx]
      exact hu.pointer x ⟨hx.live ▸ hlive, hx.root, hx.length, hx.index⟩ (by rw [hx.live]; exact hne.symm)
    · exact (hu.live n).2 ⟨hlive, fun hn => by omega⟩

end Unlink

namespace Sample

set_option maxRecDepth 100000

def bareRec : Bytes := Bytes.zero |>.put 2 0 (S_IFREG ||| 0o644) |>.put 2 26 2

def bare : St :=
  { st with
    disk := fun b =>
      match b with
      | 2 => Bytes.zero |>.put 4 0 3 |>.put 4 4 4 |>.put 4 8 5 |>.put 2 12 24 |>.put 2 14 5 |>.put 2 16 1
      | 3 => Bytes.zero |>.put 2 0 0x23f
      | 6 => Bytes.zero.copy 128 256 bareRec
      | b => disk b
    inodes := fun r => if r = 0 then inodeOf 11 bareRec else inodeOf 2 rootRecord
    free_blocks := 24 }

theorem bare_blocks : ∀ n, n < 17 → ∀ k, k < 14 → (layout.vol bare).blocks n k ≠ 0 → n = 2 ∧ k = 0 := by
  decide

theorem bare_lt {n : Nat} (h : (layout.vol bare).live n) : n < 17 := lt_succ_of_le (live_isIno h).2

theorem bare_owns : Owns layout (layout.vol bare).live (layout.vol bare).blocks (layout.vol bare) := by
  refine Owns.of_owner (fun b => if b = 10 then some ((2, 0), []) else none) ?_ ?_ ?_ ?_ ?_ ?_
  · have h : ∀ b, b < 32 → layout.role b ≠ .data → layout.IsBlock b → (layout.vol bare).used b = true := by
      decide
    exact fun b hb hr => h b hb.2 hr hb
  · intro n k hn hk h0
    obtain ⟨rfl, rfl⟩ := bare_blocks n (bare_lt hn) k (by simp only [EXT2_IND_BLOCK] at hk; omega) h0
    decide
  · intro n hn
    by_contra h0
    cases (bare_blocks n (bare_lt hn) 13 (by omega) h0).2
  · intro n i hn h0
    cases (bare_blocks n (bare_lt hn) 12 (by omega) h0).2
  · have h : ∀ b, b < 32 → layout.IsData b → ((layout.vol bare).used b = true ↔ b = 10) := by decide
    intro b hb
    rw [h b hb.1.2 hb]
    split_ifs with e <;> simp [e]
  · intro b x hx
    split_ifs at hx with e
    obtain rfl := Option.some.inj hx
    rw [e]
    exact ⟨⟨by simp only [Vol.live]; decide, by decide, by decide, by decide⟩, by decide⟩

theorem bare_mounted : Mounted layout False [0, 1] bare where
  valid := by
    refine ⟨rfl, ?_, ?_, ?_, ?_⟩ <;> intro g hg <;> obtain rfl : g = 0 := lt_one_iff.1 hg <;> decide
  owns := bare_owns
  counted h := h.elim
  fresh := by decide
  live := by simp only [Vol.live]; decide
  agree := by
    have h : ∀ r ∈ [0, 1], ∀ k, k < 14 → (bare.inodes r).priv.i_block k = (layout.vol bare).blocks (bare.ino r) k := by
      decide
    exact fun r hr k hk => h r hr k (lt_succ_of_le hk)
  distinct := by decide

theorem bare_wellFormed : layout.WellFormed (layout.vol bare).blocks (layout.vol bare) (bare.ino 1)
    (layout.dirBlocks (bare.inodes 1).priv.i_size) := by
  intro l hl _
  have hl : l < 1 := lt_of_lt_of_le hl (by decide)
  obtain rfl : l = 0 := lt_one_iff.1 hl
  exact ⟨recs 1024 rootBlock 1024 0, by decide⟩

def unlinked (s : St) : St := ((unlink layout.fs 1 [102]).run serve s).2

/-- Removing a name of the file without blocks. -/
theorem unlink_bare_drops_name : (unlink layout.fs 1 [102]).run serve bare = (true, unlinked bare) ∧
    layout.DropsName bare 1 11 [102] (unlinked bare) ∧ (layout.vol (unlinked bare)).live 11 := by
  have hrun : (unlink layout.fs 1 [102]).run serve bare = (true, unlinked bare) := Prod.ext (by decide) rfl
  refine ⟨hrun, (unlink_drops_name_iff bare_mounted (by decide) bare_wellFormed (by decide) (by decide)
    (by simp only [Vol.live]; decide) (by decide) (by decide) hrun).2 ?_⟩
  have h : ∀ k, k < 14 → (layout.vol bare).blocks 11 k = 0 := by decide
  exact fun k hk => h k (lt_succ_of_le hk)

/-- Removing one of the two names of a file with blocks: the other name and the
pointers stay, and the blocks are free. -/
theorem unlink_frees_shared : Mounted layout True [0, 1] st ∧ Di.i_links_count ((layout.vol st).inode 11) = 2 ∧
    ((layout.listing st 1).filter (·.ino = 11)).map Entry.name = [[102], [103]] ∧
    (unlink layout.fs 1 [102]).run serve st = (true, unlinked st) ∧ ¬layout.DropsName st 1 11 [102] (unlinked st) := by
  refine ⟨mounted, by decide, by decide, Prod.ext (by decide) rfl, fun h => ?_⟩
  have hx : layout.IsSlot (· = 11) ((11, 12), [0]) := ⟨rfl, by decide, by decide, by decide⟩
  have hptr : ptr (layout.vol st).blocks (layout.vol st).data ((11, 12), [0]) = 8 := by decide
  have hfree : (layout.vol (unlinked st)).used 8 = false := by decide
  have hused := (h.allocated _ hx).2
  rw [hptr, hfree] at hused
  cases hused (by decide)

end Sample

end Ext2
