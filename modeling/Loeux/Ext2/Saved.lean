import Loeux.Ext2.Owner
/-!
# What a call leaves in the inode record

`ext2_refresh_i_blocks` counts the mapped blocks below the size, and
`ext2_priv_save` stores the private part of the object as the record. Both end
every successful write and truncation.
-/
open Lib Function List Prog

namespace Ext2

open Layout

def Layout.mappedBelow (L : Layout) (ib : Nat → Nat → Nat) (data : Nat → Bytes) (n m : Nat) : List Nat :=
  (List.range m).filter fun l => l < L.maxBlocks ∧ ptr ib data (L.slotOf n l) ≠ 0

def Layout.sectors (L : Layout) (s : St) (r : Nat) : Nat :=
  u32 ((L.mappedBelow (s.objectPtrs r) (L.vol s).data (s.ino r) (blocksOf L.fs (s.inodes r).priv.i_size)).length *
    (L.fs.block_size / 512))

/-- `s'` is `s` with the blocks of object `r` counted and its record stored. -/
structure Layout.Refreshed (L : Layout) (s : St) (r : Nat) (s' : St) : Prop where
  valid : L.Valid s'
  inodes : s'.inodes = Function.update s.inodes r ((s.inodes r).setCount (L.sectors s r))
  vol : L.vol s' = { L.vol s with
    inode := Function.update (L.vol s).inode (s.ino r) ((privToDisk (s'.inodes r).priv).slice 128 0) }

/-- The record of object `r` is its private part, with the blocks counted. -/
structure Layout.Stored (L : Layout) (s : St) (r : Nat) : Prop where
  record : (L.vol s).inode (s.ino r) = (privToDisk (s.inodes r).priv).slice 128 0
  i_blocks : (s.inodes r).priv.i_blocks = L.sectors s r

section

variable {L : Layout} {cnt : Prop} {held : List Nat} {s s' : St} {r n : Nat} {ib : Nat → Nat → Nat}

theorem countBlocks_run (hd : DataPtrs L n ib (L.vol s).data) (hr : (s.inodes r).priv.i_block = ib n) (m l used : Nat) :
    wp (world False) (countBlocks L.fs r m l used) (fun a s' => s' = s ∧ a = used +
        ((List.range' l m).filter fun j => j < L.maxBlocks ∧ ptr ib (L.vol s).data (L.slotOf n j) ≠ 0).length) s := by
  induction m generalizing l used with
  | zero => simp [countBlocks]
  | succ m ih =>
    rw [countBlocks]
    refine wp_then (getBlock_false_spec hd hr l) ?_
    rintro a s1 ⟨rfl, ⟨hl, rfl⟩ | ⟨hge, rfl⟩ | ⟨hF, -⟩⟩
    · refine wp_weaken (ih (l + 1) _) ?_
      rintro a s2 ⟨rfl, rfl⟩
      rw [range'_succ]
      by_cases h0 : ptr ib (L.vol s2).data (L.slotOf n l) = 0
      · simp [h0]
      · simp [h0, hl]
        omega
    · -- the loop stops, and no later block is in the map
      rw [wp_pure, filter_eq_nil_iff.2]
      · exact ⟨rfl, rfl⟩
      · intro j hj
        have := (mem_range'_1.1 hj).1
        simp only [decide_eq_true_eq, not_and]
        intro hlt
        omega
    · exact hF.elim

theorem DataPtrs.object {data : Nat → Bytes} (hd : DataPtrs L n ib data) (hr : (s.inodes r).priv.i_block = ib n) :
    DataPtrs L n (s.objectPtrs r) data := by
  intro x hx h0
  have hptr : ptr (s.objectPtrs r) data x = ptr ib data x :=
    @ptr_congr L (· = n) _ _ _ _ (fun m k hm _ => by rw [St.objectPtrs, hr, hm]) (fun _ _ _ _ => rfl) _ hx
  rw [hptr] at h0 ⊢
  exact hd x hx h0

theorem setCount_ino (s : St) (r u : Nat) : (s.modify r fun i => i.setCount u).ino r = s.ino r := by
  rw [St.ino, show (s.modify r fun i => i.setCount u).inodes r = (s.inodes r).setCount u from update_self ..]
  rfl

theorem refreshIBlocks_run (hd : DataPtrs L (s.ino r) (s.objectPtrs r) (L.vol s).data) :
    wp (world False) (refreshIBlocks L.fs r) (fun _ s' => s' = s.modify r fun i => i.setCount (L.sectors s r)) s := by
  simp only [refreshIBlocks, wp_bind, wp_inodeAt]
  refine wp_weaken (countBlocks_run hd rfl _ 0 0) ?_
  rintro used s1 ⟨rfl, rfl⟩
  rw [wp_update]
  unfold Layout.sectors Layout.mappedBelow
  rw [Nat.zero_add, range_eq_range']
  rfl

theorem Layout.refreshed_stored (hv : L.Valid s) (hn : L.IsIno (s.ino r)) :
    L.Refreshed s r (L.stored (s.modify r fun i => i.setCount (L.sectors s r)) ((s.modify r fun i => i.setCount (L.sectors s r)).ino r)
      (privToDisk ((s.modify r fun i => i.setCount (L.sectors s r)).inodes r).priv)) := by
  have hino := setCount_ino s r (L.sectors s r)
  have hv1 : L.Valid (s.modify r fun i => i.setCount (L.sectors s r)) := hv.congr rfl
  have hupd := L.upd_stored hv1 hn (privToDisk ((s.modify r fun i => i.setCount (L.sectors s r)).inodes r).priv)
  rw [hino]
  refine ⟨hupd.valid, rfl, ?_⟩
  rw [hupd.vol]
  rfl

theorem refresh_run {α : Type} {e : α} {k : M α} {Q : α → St → Prop} (hv : L.Valid s) (hn : L.IsIno (s.ino r))
    (hd : DataPtrs L (s.ino r) (s.objectPtrs r) (L.vol s).data)
    (hk : ∀ s', L.Refreshed s r s' → wp (world False) k Q s') :
    wp (world False) (do
        refreshIBlocks L.fs r
        if !(← privSave L.fs r) then return e
        k) Q s := by
  refine wp_then (refreshIBlocks_run hd) ?_
  rintro _ s1 rfl
  have hv1 : L.Valid (s.modify r fun i => i.setCount (L.sectors s r)) := hv.congr rfl
  have hn1 : L.IsIno ((s.modify r fun i => i.setCount (L.sectors s r)).ino r) := by rw [setCount_ino]; exact hn
  rw [wp_bind, wp_privSave hv1 hn1]
  refine ⟨?_, fun hF => hF.elim⟩
  simp only [if_not_true]
  exact hk _ (refreshed_stored hv hn)

theorem Layout.Refreshed.inode (h : L.Refreshed s r s') : s'.inodes r = (s.inodes r).setCount (L.sectors s r) := by
  rw [h.inodes, update_self]

theorem Layout.Refreshed.ino (h : L.Refreshed s r s') : s'.ino r = s.ino r := by
  rw [St.ino, h.inode]
  rfl

theorem Layout.Refreshed.objectPtrs (h : L.Refreshed s r s') : s'.objectPtrs r = s.objectPtrs r := by
  unfold St.objectPtrs
  rw [h.inode]
  rfl

theorem Layout.Refreshed.stored (h : L.Refreshed s r s') : L.Stored s' r := by
  refine ⟨?_, ?_⟩
  · rw [h.vol, h.ino]
    exact update_self ..
  · unfold Layout.sectors
    rw [h.objectPtrs, h.ino, h.vol, h.inode]
    rfl

def truncateTail (fs : Fs) (r size : Nat) : M Bool := do
  let mtime ← now
  let ctime ← now
  update r fun i => { i with size := size, priv := { i.priv with i_size := u32 size, i_mtime := mtime, i_ctime := ctime } }
  refreshIBlocks fs r
  if !(← privSave fs r) then return false
  let _ ← cacheFlush
  return true

/-- The object is saved with the new size, and each of its pointers is kept or cleared. -/
def Layout.Shortened (L : Layout) (s : St) (r size : Nat) (s' : St) : Prop :=
  L.Stored s' r ∧ s'.ino r = s.ino r ∧ (s'.inodes r).size = size ∧ (s'.inodes r).priv.i_size = u32 size ∧
    ∀ k, (s'.inodes r).priv.i_block k = (s.inodes r).priv.i_block k ∨ (s'.inodes r).priv.i_block k = 0

theorem truncate_saved (h : Mounted L cnt held s) (hr : r ∈ held) (size : Nat) : wp (world False) (truncate L.fs r size)
      (fun a s' => a = true → L.Shortened s r size s') s := by
  obtain ⟨ib1, h1, hib1, hsame, -⟩ := (h.work (· = s.ino r)).align (h.agree r hr)
  have hd1 := h1.owns.dataPtrs (h1.live r hr)
  -- what is left once the blocks are given back
  have tail : ∀ s2, L.Valid s2 → s2.ino r = s.ino r → DataPtrs L (s.ino r) (s2.objectPtrs r) (L.vol s2).data →
      (∀ k, (s2.inodes r).priv.i_block k = (s.inodes r).priv.i_block k ∨ (s2.inodes r).priv.i_block k = 0) →
      wp (world False) (truncateTail L.fs r size) (fun a s' => a = true → L.Shortened s r size s') s2 := by
    intro s2 hv hino hd hcut
    simp only [truncateTail, wp_bind]
    refine wp_now_of _ fun mtime => wp_now_of _ fun ctime => ?_
    rw [wp_update]
    set s3 := s2.modify r fun i =>
      { i with size := size, priv := { i.priv with i_size := u32 size, i_mtime := mtime, i_ctime := ctime } } with hs3
    have hobj : s3.inodes r = { s2.inodes r with size := size, priv :=
        { (s2.inodes r).priv with i_size := u32 size, i_mtime := mtime, i_ctime := ctime } } := update_self ..
    have hino3 : s3.ino r = s.ino r := by
      rw [← hino, St.ino, hobj]
      rfl
    have hptrs : s3.objectPtrs r = s2.objectPtrs r := by
      unfold St.objectPtrs
      rw [hobj]
    have key := refresh_run (e := false) (k := do let _ ← cacheFlush; return true) (s := s3) (r := r)
      (Q := fun a s' => a = true → L.Shortened s r size s')
      (hv.congr rfl) (by rw [hino3]; exact live_isIno (h.live r hr)) (by rw [hino3, hptrs]; exact hd) fun s' hs' => by
        simp only [wp_bind, wp_cacheFlush, wp_pure, false_imp_iff, and_true]
        refine fun _ => ⟨hs'.stored, hs'.ino.trans hino3, ?_, ?_, fun k => ?_⟩
        · rw [hs'.inode, hobj]
          rfl
        · rw [hs'.inode, hobj]
          rfl
        · rw [hs'.inode, hobj]
          exact hcut k
    simpa only [wp_bind] using key
  unfold truncate
  rw [wp_bind, wp_inodeAt]
  split_ifs
  · simp
  rw [wp_bind, wp_inodeAt]
  dsimp only
  set old := blocksOf L.fs (s.inodes r).priv.i_size
  set new := newBlocks L.fs size
  by_cases hlt : new < old
  swap
  · rw [if_neg hlt]
    exact tail s h.valid rfl (hd1.object hib1) fun _ => .inl rfl
  rw [if_pos hlt]
  refine wp_then (truncateFrom_run h1.valid hd1 hib1 (old - new) new) ?_
  rintro (_ | _) s2 h2
  · simp
  obtain ⟨hmax, he⟩ := h2 rfl
  rw [if_neg (by simp)]
  have hdata2 : (L.vol s2).data = (L.vol s).data := by rw [he.vol, release_data]
  have hd2 : DataPtrs L (s.ino r) (s2.objectPtrs r) (L.vol s2).data := by
    rw [hdata2]
    have hclear : DataPtrs L (s.ino r) (Function.update ib1 (s.ino r) (cleared new (min (new + (old - new)) 12) (ib1 (s.ino r))))
        (L.vol s).data := by
      intro x hx hx0
      rw [ptr_cleared _ (Nat.min_le_right _ _) x hx.length] at hx0 ⊢
      split_ifs at hx0 ⊢
      · exact absurd rfl hx0
      · exact hd1 x hx hx0
    exact hclear.object (by rw [he.i_block, update_self])
  have hino2 : s2.ino r = s.ino r := by
    rw [St.ino, he.inodes, update_self]
    rfl
  have hcut2 : ∀ k, (s2.inodes r).priv.i_block k = (s.inodes r).priv.i_block k ∨ (s2.inodes r).priv.i_block k = 0 := by
    intro k
    rw [he.i_block, hib1, cleared]
    split_ifs
    · exact .inr rfl
    · exact .inl rfl
  by_cases h0 : new = 0
  · rw [if_pos h0]
    refine wp_then (freeAllBlocks_run he.valid hd2 rfl) ?_
    rintro _ s3 ⟨-, he3⟩
    have hdata3 : (L.vol s3).data = (L.vol s2).data := by rw [he3.vol, release_data]
    have hino3 : s3.ino r = s2.ino r := by
      rw [St.ino, he3.inodes, update_self]
      rfl
    refine tail s3 he3.valid (hino3.trans hino2) ?_ fun k => ?_
    swap
    · rw [he3.i_block, cleared]
      split_ifs
      · exact .inr rfl
      · exact hcut2 k
    -- every pointer is cleared
    rw [hdata3]
    intro x hx hx0
    have hz : ptr (s3.objectPtrs r) (L.vol s2).data x = 0 := by
      refine ptr_eq_zero (n := x.1.1) (fun k hk => ?_) hx rfl
      rw [St.objectPtrs, he3.i_block, cleared, if_pos ⟨Nat.zero_le _, by unfold EXT2_DIND_BLOCK at hk; omega⟩]
    exact absurd hz hx0
  · rw [if_neg h0]
    exact tail s2 he.valid hino2 hd2 hcut2

end

end Ext2
