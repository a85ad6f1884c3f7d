import Loeux.Ext2.OpSpec
/-!
# What removing a name does

The effect of `ext2_unlink` and `ext2_rmdir`, whatever the link count: the entry
goes, the blocks of the inode are released, its record is written once more, and
the record of the directory is brought up to date.
-/
open Lib Function List Prog

namespace Ext2

open Layout

section Remove

variable {L : Layout} {cnt : Prop} {held : List Nat} {s s' : St} {dir n r : Nat} {name : List UInt8}

theorem Layout.listing_congr {r : Nat} (hdata : (L.vol s').data = (L.vol s).data)
    (hb : (s'.inodes r).priv.i_block = (s.inodes r).priv.i_block) (hi : (s'.inodes r).priv.ino = (s.inodes r).priv.ino)
    (hz : (s'.inodes r).priv.i_size = (s.inodes r).priv.i_size) : L.listing s' r = L.listing s r := by
  unfold Layout.listing Layout.entries Layout.blk
  rw [hdata, hb, hi, hz]

theorem Removed.find {e : Entry} {es es' : List Entry} (h : Removed name e es es') :
    es.find? (fun x => decide (x.name = name)) = some e := by
  obtain ⟨l1, l2, rfl, -, he, hl1⟩ := h
  rw [find?_append, find?_eq_none.2 fun x hx => by simpa using hl1 x hx, Option.none_or]
  exact find?_cons_of_pos (by simpa using he)

variable {ib ib' : Nat → Nat → Nat}

theorem ptr_slot_congr (hib : ∀ k, k ≤ EXT2_DIND_BLOCK → ib' n k = ib n k)
    (data : Nat → Bytes) {x : Slot} (hx : L.IsSlot (· = n) x) : ptr ib' data x = ptr ib data x :=
  @ptr_congr L (· = n) _ _ _ _ (fun m k hm hk => by rw [hm]; exact hib k hk) (fun _ _ _ _ => rfl) _ hx

theorem Layout.WellFormed.congr {v v' : Vol} {m : Nat}
    (hib : ∀ k, k ≤ EXT2_DIND_BLOCK → ib' n k = ib n k) (hdata : v'.data = v.data) (hm : m ≤ L.maxBlocks)
    (h : L.WellFormed ib v n m) : L.WellFormed ib' v' n m := by
  intro l hl h0
  have hl' := lt_of_lt_of_le hl hm
  have hblk : L.blk ib' v' n l = L.blk ib v n l := by
    rw [blk_congr hib hl', Layout.blk, hdata]
    rfl
  rw [ptr_slot_congr hib _ (L.isSlot_self n hl'), hdata] at h0
  rw [hblk]
  exact h l hl h0

theorem Mounted.create (h : Mounted L cnt held s) (i : Inode) : Mounted L cnt held (s.create i) :=
  (((h.work fun _ => True).createOther i).1.mounted fun _ => id).1

theorem find_eq (hd : DataPtrs L (s.ino dir) (L.vol s).blocks (L.vol s).data)
    (hk : ∀ k, k ≤ EXT2_DIND_BLOCK → (s.inodes dir).priv.i_block k = (L.vol s).blocks (s.ino dir) k)
    (name : List UInt8) : s.find L.fs dir name = ((L.listing s dir).find? (·.name = name)).map Entry.ino := by
  have hd' : DataPtrs L (s.ino dir) (fun _ => (s.inodes dir).priv.i_block) (L.vol s).data := by
    intro x hx
    rw [ptr_slot_congr hk _ hx]
    exact hd x hx
  exact ((wp_world_false _ _ _).1 (dirFind_entries hd' rfl name)).2

theorem Mounted.find_eq (h : Mounted L cnt held s) (hdir : dir ∈ held) (name : List UInt8) :
    s.find L.fs dir name = ((L.listing s dir).find? (·.name = name)).map Entry.ino :=
  Ext2.find_eq (h.owns.dataPtrs (h.live dir hdir)) (h.agree dir hdir) name

/-! ## The entry -/

/-- The entry of inode `n` is taken out of the directory; nothing else changes. -/
structure Layout.Struck (L : Layout) (s : St) (dir n : Nat) (name : List UInt8) (s' : St) : Prop where
  valid : L.Valid s'
  objects : s'.inodes = s.inodes
  next : s'.next = s.next
  inode : (L.vol s').inode = (L.vol s).inode
  ibit : (L.vol s').ibit = (L.vol s).ibit
  pointer : ∀ x, L.IsSlot (L.vol s).live x → x.1.1 ≠ s.ino dir →
    ptr (L.vol s).blocks (L.vol s').data x = ptr (L.vol s).blocks (L.vol s).data x
  block : ∀ x, L.IsSlot (L.vol s).live x → x.1.1 ≠ s.ino dir → Leaf x →
    block (L.vol s).blocks (L.vol s').data x = block (L.vol s).blocks (L.vol s).data x
  listing : ∃ e, e.ino = n ∧ Removed name e (L.listing s dir) (L.listing s' dir)
  wellFormed : L.WellFormed (L.vol s).blocks (L.vol s') (s.ino dir) (L.dirBlocks (s.inodes dir).priv.i_size)
  dirPtrs : DataPtrs L (s.ino dir) (L.vol s).blocks (L.vol s').data

theorem dirRemove_exact (h : Mounted L cnt held s) (hdir : dir ∈ held)
    (hwf : L.WellFormed (L.vol s).blocks (L.vol s) (s.ino dir) (L.dirBlocks (s.inodes dir).priv.i_size))
    (hfind : s.find L.fs dir name = some n) :
    wp (world False) (dirRemove L.fs dir name) (fun a s' => a = true ∧ L.Struck s dir n name s') s := by
  have hdlive := h.live dir hdir
  obtain ⟨ib, h1, hib, hsame, hother⟩ := (h.work fun _ => True).align (h.agree dir hdir)
  have hm := Nat.min_le_right (blocksOf L.fs (s.inodes dir).priv.i_size) L.maxBlocks
  rw [h.find_eq hdir, listing_eq hib] at hfind
  obtain ⟨x, hx, hxn⟩ := Option.map_eq_some_iff.1 hfind
  refine wp_weaken (dirRemove_entries h1.valid h1.owns hdlive hib (hwf.congr hsame rfl hm) name) ?_
  rintro (_ | _) s2 h2
  · exact absurd (by simpa using find?_some hx) (h2.1 rfl x (mem_of_find?_eq_some hx))
  obtain ⟨htouch, hobj, hwf2, e, hrem⟩ := h2.2 rfl
  have hroot : ∀ x, L.IsSlot (L.vol s).live x → x.1.1 ≠ s.ino dir → ∀ data,
      ptr (L.vol s).blocks data x = ptr ib data x := fun x hx hxd data =>
    ptr_slot_congr (fun k _ => by rw [hother _ hxd]) data ⟨rfl, hx.root, hx.length, hx.index⟩
  refine ⟨rfl, htouch.valid, hobj, htouch.next, htouch.touched.inode, htouch.touched.ibit, fun x hx hxd => ?_,
    fun x hx hxd hl => ?_, ⟨e, ?_, ?_⟩, hwf2.congr (fun k hk => (hsame k hk).symm) rfl hm, fun x hx => ?_⟩
  · rw [hroot x hx hxd, hroot x hx hxd]
    exact htouch.touched.apart x hx hxd
  · have hb := htouch.touched.block_apart x hx hl hxd
    unfold block at hb ⊢
    rw [hroot x hx hxd, hroot x hx hxd]
    exact hb
  · obtain rfl := Option.some.inj (hrem.find.symm.trans hx)
    exact hxn
  · rw [listing_eq hib, @listing_eq _ _ _ ib (by rw [hobj]; exact hib), hobj]
    exact hrem
  · rw [← ptr_slot_congr hsame _ hx]
    exact htouch.touched.owns.dataPtrs hdlive x hx

def Layout.IsEmpty (L : Layout) (v : Vol) (n : Nat) : Prop :=
  blocksOf L.fs (Di.i_size (v.inode n)) ≤ L.maxBlocks ∧
    ∀ e ∈ L.entries v.blocks v n (L.dirBlocks (Di.i_size (v.inode n))), e.IsDot

theorem Layout.entries_congr {v v' : Vol} {m : Nat}
    (hblk : ∀ l, l < m → L.blk ib' v' n l = L.blk ib v n l) : L.entries ib' v' n m = L.entries ib v n m :=
  flatMap_congr fun l hl => by rw [hblk l (mem_range.1 hl)]

theorem dirEmpty_inodeOf (h : Mounted L cnt held s) (hlive : (L.vol s).live n) : wp (world False) (dirEmpty L.fs s.next)
      (fun a s' => s' = s.create (inodeOf n ((L.vol s).inode n)) ∧ (a = some true ↔ L.IsEmpty (L.vol s) n))
      (s.create (inodeOf n ((L.vol s).inode n))) := by
  have hobj := s.create_new (inodeOf n ((L.vol s).inode n))
  have hsame : ∀ k, k ≤ EXT2_DIND_BLOCK → (inodeOf n ((L.vol s).inode n)).priv.i_block k = (L.vol s).blocks n k :=
    fun k hk => i_block_inodeOf n _ hk
  have hd : DataPtrs L n (fun _ => (inodeOf n ((L.vol s).inode n)).priv.i_block)
      (L.vol (s.create (inodeOf n ((L.vol s).inode n)))).data := by
    intro x hx
    rw [ptr_slot_congr hsame _ hx]
    exact h.owns.dataPtrs hlive x hx
  refine wp_weaken (dirEmpty_entries hd (by rw [hobj])) ?_
  rintro a s' ⟨rfl, hiff⟩
  rw [hobj] at hiff
  refine ⟨rfl, hiff.trans (and_congr_right fun _ => ?_)⟩
  have he : L.entries (fun _ => (inodeOf n ((L.vol s).inode n)).priv.i_block) (L.vol s) n
      (L.dirBlocks (Di.i_size ((L.vol s).inode n))) =
        L.entries (L.vol s).blocks (L.vol s) n (L.dirBlocks (Di.i_size ((L.vol s).inode n))) :=
    entries_congr fun l hl => blk_congr hsame (lt_of_lt_of_le hl (Nat.min_le_right _ _))
  rw [← he]
  rfl

/-! ## The inode -/

theorem freeAllBlocks_exact (hv : L.Valid s) (hd : DataPtrs L n (L.vol s).blocks (L.vol s).data)
    (hr : ∀ k, k ≤ EXT2_DIND_BLOCK → (s.inodes r).priv.i_block k = (L.vol s).blocks n k) :
    wp (world False) (freeAllBlocks L.fs r)
      (fun _ s' => L.Valid s' ∧ (L.vol s').data = (L.vol s).data ∧ (L.vol s').ibit = (L.vol s).ibit ∧
        (L.vol s').inode = (L.vol s).inode ∧ (∀ r', r' ≠ r → s'.inodes r' = s.inodes r') ∧
        ∀ x, L.IsSlot (· = n) x → ptr (L.vol s).blocks (L.vol s).data x ≠ 0 →
          (L.vol s').used (ptr (L.vol s).blocks (L.vol s).data x) = false) s := by
  have hptr : ∀ x, L.IsSlot (· = n) x → ptr (fun _ => (s.inodes r).priv.i_block) (L.vol s).data x =
      ptr (L.vol s).blocks (L.vol s).data x := fun x hx => ptr_slot_congr hr _ hx
  have hd' : DataPtrs L n (fun _ => (s.inodes r).priv.i_block) (L.vol s).data := by
    intro x hx
    rw [hptr x hx]
    exact hd x hx
  refine wp_weaken (freeAllBlocks_run hv hd' rfl) ?_
  rintro _ s' ⟨-, he⟩
  obtain ⟨hdata, hibit, hinode⟩ := @release_same L (L.vol s)
    ((L.slots n).map (ptr (fun _ => (s.inodes r).priv.i_block) (L.vol s).data))
  rw [← he.vol] at hdata hibit hinode
  refine ⟨he.valid, hdata, hibit, hinode, fun r' hr' => ?_, fun x hx h0 => ?_⟩
  · rw [he.inodes, update_of_ne hr']
  · have hmem : ptr (L.vol s).blocks (L.vol s).data x ∈
        (L.slots n).map (ptr (fun _ => (s.inodes r).priv.i_block) (L.vol s).data) :=
      mem_map.2 ⟨x, mem_slots.2 hx, hptr x hx⟩
    rw [he.vol, release_used]
    simp [hmem, h0]

/-- The blocks of inode `n` are released, its record is `di`, and its number is
given back if it is `gone`. -/
structure Layout.Disposed (L : Layout) (s : St) (n r : Nat) (di : Bytes) (gone : Prop) (s' : St) : Prop where
  valid : L.Valid s'
  objects : ∀ r', r' ≠ r → s'.inodes r' = s.inodes r'
  data : (L.vol s').data = (L.vol s).data
  freed : ∀ x, L.IsSlot (· = n) x → ptr (L.vol s).blocks (L.vol s).data x ≠ 0 →
    (L.vol s').used (ptr (L.vol s).blocks (L.vol s).data x) = false
  inode : (L.vol s').inode = Function.update (L.vol s).inode n (di.slice 128 0)
  live : ∀ m, (L.vol s').live m ↔ (L.vol s).live m ∧ ¬(m = n ∧ gone)

theorem dispose_exact {record : Nat → Bytes} {gone : Prop} [Decidable gone] {k : M Bool} {Q : Bool → St → Prop}
    (hv : L.Valid s) (hn : L.IsIno n) (hd : DataPtrs L n (L.vol s).blocks (L.vol s).data)
    (hr : ∀ k, k ≤ EXT2_DIND_BLOCK → (s.inodes r).priv.i_block k = (L.vol s).blocks n k)
    (hk : ∀ t s', L.Disposed s n r (record t) gone s' → wp (world False) k Q s') :
    wp (world False) (do
        let _ ← freeAllBlocks L.fs r
        let t ← now
        if !(← inodeWrite L.fs n (record t)) then return false
        if gone then
          let _ ← freeInode L.fs n
          k
        else k) Q s := by
  simp only [wp_bind]
  refine wp_weaken (freeAllBlocks_exact hv hd hr) ?_
  rintro _ s1 ⟨hv1, hdata1, hibit1, hinode1, hobj1, hfreed1⟩
  refine wp_now_of s1 fun t => ?_
  rw [wp_inodeWrite hv1 hn]
  refine ⟨?_, fun hF => hF.elim⟩
  simp only [if_not_true]
  have hupd := L.upd_stored hv1 hn (record t)
  have hlive1 : ∀ m, (L.vol s1).live m ↔ (L.vol s).live m := fun m => by rw [Vol.live, hibit1]; rfl
  have hinode2 : Function.update (L.vol s1).inode n ((record t).slice 128 0) =
      Function.update (L.vol s).inode n ((record t).slice 128 0) := by rw [hinode1]
  by_cases hg : gone
  · rw [if_pos hg]
    refine wp_then (freeInode_spec hupd.valid hn) ?_
    rintro a s3 (⟨-, hupd'⟩ | ⟨-, hF, -⟩)
    · refine hk t s3 ⟨hupd'.valid, fun r' hr' => ?_, ?_, fun x hx h0 => ?_, ?_, fun m => ?_⟩
      · rw [hupd'.same.inodes, hupd.same.inodes, hobj1 r' hr']
      · rw [hupd'.vol, Layout.freeInode, hupd.vol]
        exact hdata1
      · rw [hupd'.vol, Layout.freeInode, hupd.vol]
        exact hfreed1 x hx h0
      · rw [hupd'.vol, Layout.freeInode, hupd.vol]
        exact hinode2
      · rw [← hlive1, Vol.live, hupd'.vol, Layout.freeInode, hupd.vol, Vol.live]
        by_cases e : m = n
        · subst e
          simp [hg]
        · simp [e]
    · exact hF.elim
  · rw [if_neg hg]
    refine hk t _ ⟨hupd.valid, fun r' hr' => ?_, ?_, fun x hx h0 => ?_, ?_, fun m => ?_⟩
    · rw [hupd.same.inodes, hobj1 r' hr']
    · rw [hupd.vol]
      exact hdata1
    · rw [hupd.vol]
      exact hfreed1 x hx h0
    · rw [hupd.vol]
      exact hinode2
    · rw [← hlive1, Vol.live, hupd.vol, Vol.live]
      simp [hg]

/-! ## The directory -/

theorem finish_exact (hv : L.Valid s) (hino : L.IsIno (s.ino dir)) : wp (world False) (removeTail L.fs dir)
      (fun a s' => a = true ∧ L.Valid s' ∧ ∃ t, s'.inodes = Function.update s.inodes dir (setTimes t (s.inodes dir)) ∧
        L.vol s' = { L.vol s with
          inode := Function.update (L.vol s).inode (s.ino dir) ((privToDisk (setTimes t (s.inodes dir)).priv).slice 128 0) }) s := by
  simp only [removeTail, wp_bind]
  refine wp_now_of s fun t => ?_
  rw [wp_update]
  have hobj : (s.modify dir (setTimes t)).inodes dir = setTimes t (s.inodes dir) := update_self ..
  have hino1 : L.IsIno ((s.modify dir (setTimes t)).inodes dir).priv.ino := by rw [hobj]; exact hino
  have hv1 : L.Valid (s.modify dir (setTimes t)) := hv.congr rfl
  rw [wp_privSave hv1 hino1]
  refine ⟨?_, fun hF => hF.elim⟩
  simp only [wp_cacheFlush, wp_pure, false_imp_iff, and_true]
  have hupd := L.upd_stored hv1 hino1 (privToDisk ((s.modify dir (setTimes t)).inodes dir).priv)
  refine ⟨trivial, hupd.valid, t, hupd.same.inodes, ?_⟩
  rw [hupd.vol, hobj]
  rfl

/-- The effect of removing `name`, the entry of inode `n`, from a directory. The
object of the directory is changed by `g`, the inode's record is one of `record`. -/
structure Layout.Removal (L : Layout) (s : St) (dir n : Nat) (name : List UInt8) (g : Inode → Inode)
    (record : Nat → Bytes) (gone : Prop) (s' : St) : Prop where
  valid : L.Valid s'
  listing : ∃ e, e.ino = n ∧ Removed name e (L.listing s dir) (L.listing s' dir)
  wellFormed : L.WellFormed (L.vol s').blocks (L.vol s') (s.ino dir) (L.dirBlocks (s.inodes dir).priv.i_size)
  dirPtrs : DataPtrs L (s.ino dir) (L.vol s').blocks (L.vol s').data
  agree : ∀ k, k ≤ EXT2_DIND_BLOCK → (s'.inodes dir).priv.i_block k = (L.vol s').blocks (s.ino dir) k
  pointer : ∀ x, L.IsSlot (L.vol s).live x → x.1.1 ≠ s.ino dir →
    ptr (L.vol s).blocks (L.vol s').data x = ptr (L.vol s).blocks (L.vol s).data x
  block : ∀ x, L.IsSlot (L.vol s).live x → x.1.1 ≠ s.ino dir → Leaf x →
    block (L.vol s).blocks (L.vol s').data x = block (L.vol s).blocks (L.vol s).data x
  freed : ∀ x, L.IsSlot (· = n) x → ptr (L.vol s).blocks (L.vol s).data x ≠ 0 →
    (L.vol s').used (ptr (L.vol s).blocks (L.vol s).data x) = false
  record : ∃ t, (L.vol s').inode n = (record t).slice 128 0
  others : ∀ m, m ≠ n → m ≠ s.ino dir → (L.vol s').inode m = (L.vol s).inode m
  live : ∀ m, (L.vol s').live m ↔ (L.vol s).live m ∧ ¬(m = n ∧ gone)
  objects : ∀ r, r < s.next → r ≠ dir → s'.inodes r = s.inodes r
  object : ∃ t, s'.inodes dir = setTimes t (g (s.inodes dir)) ∧
    (L.vol s').inode (s.ino dir) = (privToDisk (setTimes t (g (s.inodes dir))).priv).slice 128 0

/-- The object of a directory with a field changed that does not say where its
entries are. -/
def Inode.Alike (g : Inode → Inode) : Prop :=
  ∀ i, (g i).priv.i_block = i.priv.i_block ∧ (g i).priv.ino = i.priv.ino ∧ (g i).priv.i_size = i.priv.i_size

/-- An entry that was struck out together with what was done to its inode. -/
structure Layout.Detached (L : Layout) (s : St) (dir n : Nat) (name : List UInt8) (r : Nat) (s' : St) : Prop where
  valid : L.Valid s'
  new : s.next ≤ r
  target : s'.inodes r = inodeOf n ((L.vol s).inode n)
  objects : ∀ r', r' < s.next → s'.inodes r' = s.inodes r'
  inode : (L.vol s').inode = (L.vol s).inode
  ibit : (L.vol s').ibit = (L.vol s).ibit
  pointer : ∀ x, L.IsSlot (L.vol s).live x → x.1.1 ≠ s.ino dir →
    ptr (L.vol s).blocks (L.vol s').data x = ptr (L.vol s).blocks (L.vol s).data x
  block : ∀ x, L.IsSlot (L.vol s).live x → x.1.1 ≠ s.ino dir → Leaf x →
    block (L.vol s).blocks (L.vol s').data x = block (L.vol s).blocks (L.vol s).data x
  listing : ∃ e, e.ino = n ∧ Removed name e (L.listing s dir) (L.listing s' dir)
  wellFormed : L.WellFormed (L.vol s).blocks (L.vol s') (s.ino dir) (L.dirBlocks (s.inodes dir).priv.i_size)
  dirPtrs : DataPtrs L (s.ino dir) (L.vol s).blocks (L.vol s').data

theorem Layout.Struck.detached (h : L.Struck s dir n name s') (hdir : dir < s.next) :
    L.Detached s dir n name s'.next (s'.create (inodeOf n ((L.vol s).inode n))) := by
  have hobj : ∀ r', r' < s.next → (s'.create (inodeOf n ((L.vol s).inode n))).inodes r' = s.inodes r' :=
    fun r' hr' => by rw [s'.create_old _ (by rw [h.next]; exact hr'), h.objects]
  refine ⟨h.valid.congr rfl, by rw [h.next], s'.create_new _, hobj, h.inode, h.ibit, h.pointer, h.block, ?_,
    h.wellFormed, h.dirPtrs⟩
  obtain ⟨e, he, hrem⟩ := h.listing
  refine ⟨e, he, ?_⟩
  have hl : L.listing (s'.create (inodeOf n ((L.vol s).inode n))) dir = L.listing s' dir :=
    listing_congr rfl (by rw [hobj dir hdir, h.objects]) (by rw [hobj dir hdir, h.objects])
      (by rw [hobj dir hdir, h.objects])
  rw [hl]
  exact hrem

theorem Layout.Struck.detached_of (h : L.Struck (s.create (inodeOf n ((L.vol s).inode n))) dir n name s')
    (hdir : dir < s.next) : L.Detached s dir n name s.next s' := by
  have hold := s.create_old (inodeOf n ((L.vol s).inode n)) hdir
  have hino := s.ino_create_old (inodeOf n ((L.vol s).inode n)) hdir
  refine ⟨h.valid, le_rfl, by rw [h.objects, s.create_new], fun r' hr' => by rw [h.objects, s.create_old _ hr'],
    h.inode, h.ibit, fun x hx hxd => h.pointer x hx (by rw [hino]; exact hxd),
    fun x hx hxd hl => h.block x hx (by rw [hino]; exact hxd) hl, ?_, ?_, ?_⟩
  · obtain ⟨e, he, hrem⟩ := h.listing
    refine ⟨e, he, ?_⟩
    have hl : L.listing (s.create (inodeOf n ((L.vol s).inode n))) dir = L.listing s dir :=
      listing_congr rfl (by rw [hold]) (by rw [hold]) (by rw [hold])
    rw [← hl]
    exact hrem
  · have hwf := h.wellFormed
    rw [hino, hold] at hwf
    exact hwf
  · have hd := h.dirPtrs
    rw [hino] at hd
    exact hd

theorem Layout.Detached.dataPtrs (h : L.Detached s dir n name r s') (hown : Owns L (L.vol s).live (L.vol s).blocks (L.vol s))
    (hlive : (L.vol s).live n) (hne : s.ino dir ≠ n) : DataPtrs L n (L.vol s').blocks (L.vol s').data := by
  intro x hx h0
  have hx' : L.IsSlot (L.vol s).live x := ⟨hx.live ▸ hlive, hx.root, hx.length, hx.index⟩
  have hb : (L.vol s').blocks = (L.vol s).blocks := by
    unfold Vol.blocks
    rw [h.inode]
  rw [hb, h.pointer x hx' (by rw [hx.live]; exact hne.symm)] at h0 ⊢
  exact hown.data x hx' h0

theorem Layout.Detached.i_block (h : L.Detached s dir n name r s') :
    ∀ k, k ≤ EXT2_DIND_BLOCK → (s'.inodes r).priv.i_block k = (L.vol s').blocks n k := by
  intro k hk
  rw [h.target, i_block_inodeOf n _ hk, Vol.blocks, h.inode]

theorem Layout.Detached.finish {s₁ s₂ : St} {g : Inode → Inode} {record : Nat → Bytes} {gone : Prop} {t : Nat}
    (h : L.Detached s dir n name r s₁) (hd : L.Disposed s₁ n r (record t) gone s₂) (hm : Mounted L cnt held s)
    (hdir : dir ∈ held) (hlive : (L.vol s).live n) (hne : s.ino dir ≠ n) (hg : Inode.Alike g) :
    wp (world False) (removeTail L.fs dir) (fun a s' => a = true ∧ L.Removal s dir n name g record gone s') (s₂.modify dir g) := by
  have hfresh := hm.fresh dir hdir
  have hold : ∀ r', r' < s.next → s₂.inodes r' = s.inodes r' := fun r' hr' => by
    rw [hd.objects r' (Nat.ne_of_lt (lt_of_lt_of_le hr' h.new)), h.objects r' hr']
  have hobj : (s₂.modify dir g).inodes dir = g (s.inodes dir) := by
    rw [← hold dir hfresh]
    exact update_self ..
  have hino : (s₂.modify dir g).ino dir = s.ino dir := by rw [St.ino, hobj, (hg _).2.1]; rfl
  refine wp_weaken (finish_exact (hd.valid.congr rfl) (by rw [hino]; exact live_isIno (hm.live dir hdir))) ?_
  rintro a s' ⟨rfl, hv', t', hobj', hvol'⟩
  rw [hino, hobj] at hvol'
  rw [hobj] at hobj'
  have hdir' : s'.inodes dir = setTimes t' (g (s.inodes dir)) := by rw [hobj', update_self]
  have hdata' : (L.vol s').data = (L.vol s₁).data := by
    rw [hvol']
    exact hd.data
  have hinode' : (L.vol s').inode = Function.update (Function.update (L.vol s).inode n ((record t).slice 128 0))
      (s.ino dir) ((privToDisk (setTimes t' (g (s.inodes dir))).priv).slice 128 0) := by
    rw [hvol', ← h.inode, ← hd.inode]
    rfl
  have hobjb : ∀ k, (s'.inodes dir).priv.i_block k = (s.inodes dir).priv.i_block k := fun k => by
    rw [hdir']
    exact congrFun (hg (s.inodes dir)).1 k
  have hsame : ∀ k, k ≤ EXT2_DIND_BLOCK → (L.vol s').blocks (s.ino dir) k = (L.vol s).blocks (s.ino dir) k := by
    intro k hk
    have hb : (setTimes t' (g (s.inodes dir))).priv.i_block k = (L.vol s).blocks (s.ino dir) k := by
      rw [← hdir', hobjb, hm.agree dir hdir k hk]
    rw [Vol.blocks, hinode', update_self, i_block_privToDisk _ (Nat.lt_of_le_of_lt hk (by decide)), hb]
    exact Nat.mod_eq_of_lt (hm.owns.ib_lt (hm.live dir hdir) hk)
  refine ⟨rfl, hv', ?_, h.wellFormed.congr hsame hdata' (Nat.min_le_right _ _), fun x hx => ?_, fun k hk => ?_,
    fun x hx hxd => ?_, fun x hx hxd hl => ?_, fun x hx h0 => ?_, ⟨t, ?_⟩, fun m hmn hmd => ?_,
    fun m => ?_, fun r' hr' hrd => ?_, t', hdir', ?_⟩
  · obtain ⟨e, he, hrem⟩ := h.listing
    refine ⟨e, he, ?_⟩
    have hsame := h.objects dir hfresh
    rw [listing_congr hdata' (by rw [hdir', hsame]; exact (hg _).1) (by rw [hdir', hsame]; exact (hg _).2.1)
      (by rw [hdir', hsame]; exact (hg _).2.2)]
    exact hrem
  · rw [ptr_slot_congr hsame _ hx, hdata']
    exact h.dirPtrs x hx
  · rw [hobjb, hsame k hk, hm.agree dir hdir k hk]
  · rw [hdata']
    exact h.pointer x hx hxd
  · rw [hdata']
    exact h.block x hx hxd hl
  · have hx' : L.IsSlot (L.vol s).live x := ⟨hx.live ▸ hlive, hx.root, hx.length, hx.index⟩
    have hb : (L.vol s₁).blocks = (L.vol s).blocks := by
      unfold Vol.blocks
      rw [h.inode]
    have hp := h.pointer x hx' (by rw [hx.live]; exact hne.symm)
    have hu := hd.freed x hx (by rw [hb, hp]; exact h0)
    rw [hb, hp] at hu
    rw [hvol']
    exact hu
  · rw [hinode', update_of_ne hne.symm, update_self]
  · rw [hinode', update_of_ne hmd, update_of_ne hmn]
  · have hl : (L.vol s').live m ↔ (L.vol s₂).live m := by rw [hvol']; rfl
    rw [hl, hd.live m, Vol.live, h.ibit]
    rfl
  · rw [hobj', update_of_ne hrd]
    show Function.update s₂.inodes dir _ r' = _
    rw [update_of_ne hrd, hold r' hr']
  · rw [hinode', update_self]

theorem Layout.Removal.ino {g : Inode → Inode} {record : Nat → Bytes} {gone : Prop}
    (h : L.Removal s dir n name g record gone s') (hg : Inode.Alike g) : s'.ino dir = s.ino dir := by
  obtain ⟨t, ht, -⟩ := h.object
  rw [St.ino, ht]
  exact (hg _).2.1

theorem Layout.Removal.find_none {g : Inode → Inode} {record : Nat → Bytes} {gone : Prop}
    (h : L.Removal s dir n name g record gone s') (hg : Inode.Alike g)
    (hnames : ((L.listing s dir).map Entry.name).Nodup) : s'.find L.fs dir name = none := by
  have hino := h.ino hg
  rw [find_eq (by rw [hino]; exact h.dirPtrs) (by rw [hino]; exact h.agree)]
  obtain ⟨e, -, l1, l2, h1, h2, rfl, -⟩ := h.listing
  rw [h1, map_append, map_cons, nodup_append, nodup_cons] at hnames
  rw [h2, find?_eq_none.2, Option.map_none]
  intro x hx
  simp only [decide_eq_true_eq]
  intro hxe
  rcases mem_append.1 hx with hx | hx
  · exact hnames.2.2 _ (mem_map_of_mem hx) _ mem_cons_self hxe
  · exact hnames.2.1.1 (hxe ▸ mem_map_of_mem hx)

/-! ## The two calls -/

def unlinkRecord (di : Bytes) (t : Nat) : Bytes := (di.put 2 26 (Di.i_links_count di - 1)).put 4 20 t

def rmdirRecord (di : Bytes) (t : Nat) : Bytes := (di.put 4 20 t).put 2 26 0

def dropLink (i : Inode) : Inode := { i with priv := { i.priv with i_links_count := i.priv.i_links_count - 1 } }

theorem unlink_exact (h : Mounted L cnt held s) (hdir : dir ∈ held)
    (hwf : L.WellFormed (L.vol s).blocks (L.vol s) (s.ino dir) (L.dirBlocks (s.inodes dir).priv.i_size))
    (hfind : s.find L.fs dir name = some n) (hlive : (L.vol s).live n) (hne : s.ino dir ≠ n) :
    wp (world False) (unlink L.fs dir name) (fun a s' =>
        (a = true ↔ (name.length ≠ 0 ∧ name.length ≤ VFS_NAME_MAX) ∧ ifmt (Di.i_mode ((L.vol s).inode n)) ≠ S_IFDIR) ∧
        (a = true → L.Removal s dir n name id (unlinkRecord ((L.vol s).inode n))
          (Di.i_links_count ((L.vol s).inode n) ≤ 1) s')) s := by
  have hn := live_isIno hlive
  unfold unlink
  refine removeStart_run h.valid (fun hbad => ?_) fun n' hf _ hname => ?_
  · have := hbad n hfind hn
    exact ⟨⟨fun h => (by cases h), fun h => absurd h.1 (by omega)⟩, fun h => by cases h⟩
  obtain rfl := Option.some.inj (hfind.symm.trans hf)
  by_cases hmode : ifmt (Di.i_mode ((L.vol s).inode n)) = S_IFDIR
  · rw [if_pos hmode, wp_pure]
    exact ⟨⟨fun h => (by cases h), fun h => absurd hmode h.2⟩, fun h => by cases h⟩
  rw [if_neg hmode]
  refine wp_then (dirRemove_exact h hdir hwf hfind) ?_
  rintro _ s2 ⟨rfl, hstruck⟩
  have hdet := hstruck.detached (h.fresh dir hdir)
  simp only [if_not_true]
  rw [wp_bind, wp_newInode]
  have hlinks : (if 0 < Di.i_links_count ((L.vol s).inode n) then Di.i_links_count ((L.vol s).inode n) - 1
      else Di.i_links_count ((L.vol s).inode n)) = Di.i_links_count ((L.vol s).inode n) - 1 := by
    split_ifs <;> omega
  simp only [hlinks, Nat.sub_eq_zero_iff_le]
  refine dispose_exact hdet.valid hn (hdet.dataPtrs h.owns hlive hne) hdet.i_block fun t s3 hd => ?_
  have hid : s3.modify dir id = s3 := by
    show { s3 with inodes := Function.update s3.inodes dir (s3.inodes dir) } = s3
    rw [update_eq_self]
  have hfin := @Layout.Detached.finish L cnt held s dir n s2.next name _ s3 id
    (unlinkRecord ((L.vol s).inode n)) _ t hdet hd h hdir hlive hne fun _ => ⟨rfl, rfl, rfl⟩
  rw [hid] at hfin
  refine wp_weaken hfin ?_
  rintro _ s' ⟨rfl, hrem⟩
  exact ⟨⟨fun _ => ⟨by omega, hmode⟩, fun _ => rfl⟩, fun _ => hrem⟩

theorem rmdir_exact (h : Mounted L cnt held s) (hdir : dir ∈ held)
    (hwf : L.WellFormed (L.vol s).blocks (L.vol s) (s.ino dir) (L.dirBlocks (s.inodes dir).priv.i_size))
    (hfind : s.find L.fs dir name = some n) (hlive : (L.vol s).live n) (hne : s.ino dir ≠ n) :
    wp (world False) (rmdir L.fs dir name) (fun a s' =>
        (a = true ↔ (name.length ≠ 0 ∧ name.length ≤ VFS_NAME_MAX) ∧ ifmt (Di.i_mode ((L.vol s).inode n)) = S_IFDIR ∧
          Di.i_links_count ((L.vol s).inode n) ≤ 2 ∧ L.IsEmpty (L.vol s) n) ∧
        (a = true → L.Removal s dir n name dropLink (rmdirRecord ((L.vol s).inode n)) True s')) s := by
  have hn := live_isIno hlive
  unfold rmdir
  refine removeStart_run h.valid (fun hbad => ?_) fun n' hf _ hname => ?_
  · have := hbad n hfind hn
    exact ⟨⟨fun h => (by cases h), fun h => absurd h.1 (by omega)⟩, fun h => by cases h⟩
  obtain rfl := Option.some.inj (hfind.symm.trans hf)
  by_cases hmode : ifmt (Di.i_mode ((L.vol s).inode n)) = S_IFDIR
  swap
  · rw [if_pos hmode, wp_pure]
    exact ⟨⟨fun h => (by cases h), fun h => absurd h.2.1 hmode⟩, fun h => by cases h⟩
  rw [if_neg (not_not.2 hmode), wp_bind, wp_newInode]
  by_cases hlinks : 2 < Di.i_links_count ((L.vol s).inode n)
  · rw [if_pos hlinks, wp_pure]
    exact ⟨⟨fun h => (by cases h), fun h => absurd h.2.2.1 (by omega)⟩, fun h => by cases h⟩
  rw [if_neg hlinks]
  refine wp_then (dirEmpty_inodeOf h hlive) ?_
  rintro empty _ ⟨rfl, hempty⟩
  by_cases he : empty = some true
  swap
  · rw [if_pos he, wp_pure]
    exact ⟨⟨fun h => (by cases h), fun h => absurd (hempty.2 h.2.2.2) he⟩, fun h => by cases h⟩
  rw [if_neg (not_not.2 he), wp_bind]
  have hfresh := h.fresh dir hdir
  have hold := s.create_old (inodeOf n ((L.vol s).inode n)) hfresh
  have hino := s.ino_create_old (inodeOf n ((L.vol s).inode n)) hfresh
  have hm2 := h.create (inodeOf n ((L.vol s).inode n))
  have hfind2 : (s.create (inodeOf n ((L.vol s).inode n))).find L.fs dir name = some n := by
    rw [hm2.find_eq hdir, ← hfind, h.find_eq hdir]
    congr 2
    exact listing_congr rfl (by rw [hold]) (by rw [hold]) (by rw [hold])
  refine wp_weaken (dirRemove_exact hm2 hdir (by rw [hino, hold]; exact hwf) hfind2) ?_
  rintro _ s2 ⟨rfl, hstruck⟩
  have hdet := hstruck.detached_of hfresh
  simp only [if_not_true]
  have key : ∀ t s3, L.Disposed s2 n s.next (rmdirRecord ((L.vol s).inode n) t) True s3 → wp (world False) (do
          update dir dropLink
          removeTail L.fs dir)
        (fun a s' => (a = true ↔ (name.length ≠ 0 ∧ name.length ≤ VFS_NAME_MAX) ∧
            ifmt (Di.i_mode ((L.vol s).inode n)) = S_IFDIR ∧
              Di.i_links_count ((L.vol s).inode n) ≤ 2 ∧ L.IsEmpty (L.vol s) n) ∧
          (a = true → L.Removal s dir n name dropLink (rmdirRecord ((L.vol s).inode n)) True s')) s3 := by
    intro t s3 hd
    rw [wp_bind, wp_update]
    refine wp_weaken (hdet.finish hd h hdir hlive hne fun _ => ⟨rfl, rfl, rfl⟩) ?_
    rintro _ s' ⟨rfl, hrem⟩
    exact ⟨⟨fun _ => ⟨by omega, hmode, by omega, hempty.1 he⟩, fun _ => rfl⟩, fun _ => hrem⟩
  have hall := dispose_exact hdet.valid hn (hdet.dataPtrs h.owns hlive hne) hdet.i_block key
  simp only [if_true] at hall
  exact hall

end Remove

end Ext2
