import Loeux.Ext2.Saved
/-!
# The operations on a mounted volume

Each successful call leads from one mounted state to the next. What it may do
to files besides those it names is nothing.
-/
open Lib Bytes Function List Prog

namespace Ext2

open Layout

section Parts

variable {L : Layout} {cnt : Prop} {held : List Nat} {o s s' : St} {S dirty : Nat → Prop}
  {ib : Nat → Nat → Nat} {n r : Nat}

/-! ## Parts of calls -/

section

variable (h : Work L cnt held o S dirty ib s)

include h

theorem dirAdd_work (hr : r ∈ held) (hS : S (s.ino r)) (name : List UInt8) (ino ft : Nat) :
    wp (world False) (dirAdd L.fs r name ino ft)
      (fun a s' => a = true → ∃ ib', Work L cnt held o S (fun m => dirty m ∨ m = s.ino r) ib' s' ∧
        L.Steady s s' ∧ ∀ m, m ≠ s.ino r → ib' m = ib m) s := by
  obtain ⟨ib1, h, hib, -, hother⟩ := h.align (h.agree r hr)
  have hn := h.live r hr
  have key : ∀ ib2 s', L.Touches (L.vol s).live (s.ino r) r ib1 s ib2 s' →
      ∃ ib', Work L cnt held o S (fun m => dirty m ∨ m = s.ino r) ib' s' ∧
        L.Steady s s' ∧ ∀ m, m ≠ s.ino r → ib' m = ib m := by
    intro ib2 s' ht
    obtain ⟨hw, hino⟩ := h.touch hr hS ht
    exact ⟨ib2, hw, hino, fun m hm => (ht.touched.others m hm).trans (hother m hm)⟩
  refine wp_weaken (dirAdd_spec h.valid h.owns hn hib name ino ft) ?_
  rintro a s' (⟨rfl, -⟩ | ⟨-, hch⟩ | ⟨-, -, ib2, hput⟩) ha
  · cases ha
  · exact key _ _ (hch.touches h.valid h.owns hn hib)
  · exact key _ _ (hput.touches hn)

theorem dirRemove_work (hr : r ∈ held) (hS : S (s.ino r)) (name : List UInt8) : wp (world False) (dirRemove L.fs r name)
      (fun a s' => a = true → Work L cnt held o S dirty ib s' ∧ L.Steady s s' ∧ s'.inodes = s.inodes) s := by
  obtain ⟨ib1, h1, hib, hsame, hother⟩ := h.align (h.agree r hr)
  have hn := h.live r hr
  refine wp_weaken (dirRemove_run (h1.owns.dataPtrs hn) hib name) ?_
  rintro a s' (⟨rfl, -⟩ | ⟨-, hch⟩) ha
  · cases ha
  · have hsame' : ∀ m k, (L.vol s).live m → k ≤ EXT2_DIND_BLOCK → ib m k = ib1 m k := fun m k _ hk => by
      by_cases e : m = s.ino r
      · rw [e]; exact (hsame k hk).symm
      · rw [hother m e]
    obtain ⟨h2, hst⟩ := h.overwrite hr hS hsame' (hch.touches h1.valid h1.owns hn hib)
    obtain ⟨j, d, -, -, -, -, -, -, rfl⟩ := hch
    exact ⟨h2, hst, rfl⟩

theorem refreshIBlocks_work (hS : S (s.ino r)) : wp (world False) (refreshIBlocks L.fs r)
      (fun _ s' => Work L cnt held o S dirty ib s' ∧ L.Steady s s' ∧ ∃ u, s'.inodes r = (s.inodes r).setCount u) s := by
  refine wp_weaken (refreshIBlocks_spec L.fs r) ?_
  rintro _ s' ⟨u, rfl⟩
  obtain ⟨hw, hst⟩ := h.modify hS (f := fun i => i.setCount u) fun _ => ⟨rfl, rfl⟩
  exact ⟨hw, hst, u, update_self ..⟩

theorem privSave_work (hr : r ∈ held) (hS : S (s.ino r)) : wp (world False) (privSave L.fs r)
      (fun a s' => a = true ∧ Work L cnt held o S (fun m => dirty m ∧ m ≠ s.ino r) ib s' ∧
        L.Steady s s' ∧ s' = L.stored s (s.ino r) (privToDisk (s.inodes r).priv)) s := by
  have hn := live_isIno (h.live r hr)
  rw [wp_privSave h.valid hn]
  exact ⟨⟨rfl, h.save hr hS, steady_stored h.valid hn _, rfl⟩, fun hF => hF.elim⟩

theorem saveLast_work {f : Inode → Inode} (hr : r ∈ held) (hS : S (s.ino r))
    (hd : ∀ m, dirty m → m = s.ino r) (hf : ∀ i, (f i).priv.ino = i.priv.ino ∧ (f i).priv.i_block = i.priv.i_block) :
    wp (world False) (do
        update r f
        refreshIBlocks L.fs r
        privSave L.fs r)
      (fun _ s' => Work L cnt held o S (fun _ => False) ib s' ∧ L.Steady s s' ∧ L.Spares held (· = s.ino r) s ib s') s := by
  have run : ∀ o S, Work L cnt held o S dirty ib s → S (s.ino r) → wp (world False) (do
        update r f
        refreshIBlocks L.fs r
        privSave L.fs r)
      (fun _ s' => Work L cnt held o S (fun _ => False) ib s' ∧ L.Steady s s') s := by
    intro o S h hS
    obtain ⟨h1, hst1⟩ := h.modify hS hf
    simp only [wp_bind, wp_update]
    refine wp_weaken (refreshIBlocks_work h1 (by rw [hst1.ino]; exact hS)) ?_
    rintro - s2 ⟨h2, hst2, -⟩
    have hst2 := hst1.trans hst2
    refine wp_weaken (privSave_work h2 hr (by rw [hst2.ino]; exact hS)) ?_
    rintro _ s3 ⟨-, h3, hst3, -⟩
    exact ⟨h3.dirty_mono fun m hm => hm.2 (by rw [hst2.ino]; exact hd m hm.1), hst2.trans hst3⟩
  obtain ⟨hw, hst⟩ := (wp_world_false _ _ _).1 (run o S h hS)
  exact (wp_world_false _ _ _).2 ⟨hw, hst, ((wp_world_false _ _ _).1 (run s _ (h.rebase hd) rfl)).1.spares⟩

end

/-! ## Records of new inodes -/

theorem i_block_slice (di : Bytes) {k : Nat} (hk : k ≤ EXT2_DIND_BLOCK) :
    Di.i_block (di.slice 128 0) k = Di.i_block di k := by
  have hk : k ≤ 13 := hk
  rw [Di.i_block, get_slice _ (by omega), Nat.zero_add]
  rfl

theorem i_block_inodeOf (n : Nat) (di : Bytes) {k : Nat} (hk : k ≤ EXT2_DIND_BLOCK) :
    (inodeOf n di).priv.i_block k = Di.i_block di k := if_pos (Nat.lt_of_le_of_lt hk (by decide))

theorem i_block_fileRecord (mode now k : Nat) : Di.i_block (fileRecord mode now) k = 0 := by
  rw [Di.i_block, fileRecord]
  iterate 5 rw [get_put_of_disjoint _ _ (by omega)]
  exact get_zero ..

theorem i_block_dirRecord (fs : Fs) (mode now k : Nat) : Di.i_block (dirRecord fs mode now) k = 0 := by
  rw [Di.i_block, dirRecord]
  iterate 6 rw [get_put_of_disjoint _ _ (by omega)]
  exact get_zero ..

end Parts

/-! ## Names -/

section Names

variable {L : Layout} {cnt : Prop} {held : List Nat} {s : St} {dir : Nat}

/-- What a call that makes a new inode may touch. -/
def Layout.Makes (L : Layout) (s : St) (dir m : Nat) : Prop := m = s.ino dir ∨ ¬(L.vol s).live m

theorem newEntry_run {α : Type} {record : Nat → Bytes} {name : List UInt8} {ft : Nat}
    {k : Nat → Nat → M (Option α)} {Q : Option α → St → Prop} (h : Mounted L cnt held s) (hdir : dir ∈ held)
    (hrec : ∀ t k, Di.i_block (record t) k = 0) (hnone : ∀ s', Q none s')
    (hk : ∀ n now ib' s', ¬(L.vol s).live n → (L.vol s').live n → s'.ino = s.ino → (∀ k, ib' n k = 0) →
      (L.vol s').inode n = (record now).slice 128 0 →
      Work L cnt held s (L.Makes s dir) (· = s.ino dir) ib' s' → wp (world False) (k n now) Q s') :
    wp (world False) (do
        let some new_ino ← allocInode L.fs | return none
        let now ← now
        if !(← inodeWrite L.fs new_ino (record now)) then
          let _ ← freeInode L.fs new_ino
          return none
        if !(← dirAdd L.fs dir name new_ino ft) then
          let _ ← freeInode L.fs new_ino
          return none
        k new_ino now) Q s := by
  refine wp_then (allocInode_spec h.valid) ?_
  rintro a s1 (⟨rfl, rfl⟩ | ⟨n, rfl, hn⟩)
  · exact hnone _
  simp only [wp_bind]
  refine wp_now_of s1 fun now => ?_
  rw [wp_inodeWrite hn.2.2.valid hn.1]
  refine ⟨?_, fun hF => hF.elim⟩
  obtain ⟨h1, hlive, hne, hnl⟩ := (h.work (L.Makes s dir)).newInode hn (record now) fun k hk => by
    rw [i_block_slice _ hk, hrec]
  have hino1 : (L.stored s1 n (record now)).ino = s.ino := by
    unfold St.ino
    rw [← hn.2.2.same.inodes]
    rfl
  simp only [if_not_true, wp_bind]
  have hne' : n ≠ (L.stored s1 n (record now)).ino dir := by
    rw [hino1]
    exact (hne dir hdir).symm
  -- the call as a part of the whole, and as one that leaves the new record alone
  have hrun := (wp_world_false _ _ _).1 (dirAdd_work h1 hdir (.inl (by rw [hino1])) name n ft)
  have hspare := (wp_world_false _ _ _).1 (dirAdd_work (h1.rebase fun _ hF => hF.elim) hdir rfl name n ft)
  refine (wp_world_false _ _ _).2 ?_
  generalize (dirAdd L.fs dir name n ft).run serve (L.stored s1 n (record now)) = res at hrun hspare
  obtain ⟨_ | _, s2⟩ := res
  · simp only [Bool.not_false, if_true, wp_bind, wp_pure]
    exact wp_weaken (wp_true _ _) fun _ s' _ => hnone s'
  obtain ⟨ib2, h2, hst, hib⟩ := hrun rfl
  obtain ⟨_, hsp, -, -⟩ := hspare rfl
  simp only [if_not_true]
  refine hk n now ib2 s2 hnl (by rw [hst.live]; exact hlive) (hst.ino.trans hino1) (fun k => ?_) ?_ ?_
  · rw [hib n hne', update_self]
  · rw [hsp.spares.record n hlive hne'.symm, (L.upd_stored hn.2.2.valid hn.1 (record now)).vol]
    exact update_self ..
  · exact h2.dirty_mono fun m hm => by rw [← hino1]; exact hm.resolve_left id

theorem create_run (h : Mounted L cnt held s) (hdir : dir ∈ held) (name : List UInt8) (mode : Nat) :
    wp (world False) (create L.fs dir name mode) (fun a s' => ∀ r, a = some r →
        Mounted L cnt (r :: held) s' ∧ L.Spares held (L.Makes s dir) s (L.vol s').blocks s' ∧
          L.NewInode s' r (S_IFREG ||| (mode &&& 0o777))) s := by
  have hmode : (if ifmt mode = 0 then mode ||| S_IFREG else mode) &&& 0o777 = mode &&& 0o777 := by
    split_ifs
    · rw [Nat.and_or_distrib_right]
      exact Nat.or_zero _
    · rfl
  rw [← hmode]
  unfold create
  dsimp only
  generalize (if ifmt mode = 0 then mode ||| S_IFREG else mode) = mode
  split_ifs
  · simp
  · simp
  refine wp_then (dirFind_same L.fs dir name) ?_
  rintro found s1 rfl
  split_ifs
  · simp
  refine newEntry_run h hdir (fun now => i_block_fileRecord mode now) (fun _ => by simp) ?_
  intro n now ib4 s4 hnl hlive hino4 hib4 hrec h4
  rw [wp_bind]
  refine wp_mark_of _ _ fun s5 hg => ?_
  obtain ⟨h5, hst5⟩ := h4.ghost hg
  have hino5 := hst5.ino.trans hino4
  have hsave := saveLast_work (f := setTimes now) h5 hdir (.inl (by rw [hino5])) (fun m hm => by rw [hino5]; exact hm)
    fun _ => ⟨rfl, rfl⟩
  simp only [wp_bind, wp_update] at hsave ⊢
  refine wp_weaken hsave fun _ _ hsave => wp_weaken hsave ?_
  rintro _ s8 ⟨h8, hst8, hsp8⟩
  have hlive5 : (L.vol s5).live n := by rw [hst5.live]; exact hlive
  have hrec8 : (L.vol s8).inode n = (fileRecord mode now).slice 128 0 := by
    rw [hsp8.record n hlive5 (by rw [hino5]; exact fun e => hnl (e ▸ h.live dir hdir)), vol_ghost hg, hrec]
  refine wp_mark_of _ _ fun s9 hg9 => ?_
  obtain ⟨h9, hst9⟩ := h8.ghost hg9
  have hst9 := hst8.trans hst9
  rw [wp_inodeCreate]
  refine ⟨?_, fun hF => hF.elim⟩
  have h10 := h9.create (i := inodeOf n (fileRecord mode now)) (by show (L.vol s9).live n; rw [hst9.live]; exact hlive5)
    (fun r hr e => hnl (by
      rw [hst9.ino, hino5] at e
      rw [show n = s1.ino r from e.symm]
      exact h.live r hr))
    (fun k hk => by rw [i_block_inodeOf n _ hk, i_block_fileRecord]; exact (hib4 k).symm) (.inr hnl)
  have hnew : L.NewInode (s9.create (inodeOf n (fileRecord mode now))) s9.next (S_IFREG ||| (mode &&& 0o777)) := by
    have hino := s9.ino_create_new (inodeOf n (fileRecord mode now))
    have hobj : (s9.create (inodeOf n (fileRecord mode now))).inodes s9.next = inodeOf n (fileRecord mode now) := update_self ..
    refine ⟨h10.valid, hino.symm ▸ live_isIno hlive, ?_, ?_⟩
    · rw [hobj]
      exact access_fileRecord mode now
    · rw [hino]
      show Di.access ((L.vol s9).inode n) = _
      rw [vol_ghost hg9, hrec8, access_slice, access_fileRecord]
  simp only [wp_bind]
  refine wp_mark_of _ _ fun s11 hg => ?_
  obtain ⟨h11, -⟩ := h10.ghost hg
  simp only [wp_cacheFlush, wp_pure, false_imp_iff, and_true]
  rintro r ⟨⟩
  obtain ⟨hm, hsp⟩ := h11.mounted fun _ hm => hm
  exact ⟨hm, hsp.forget fun r hr => mem_cons_of_mem _ hr, hnew.ghost hg⟩

theorem dirInitDot_work {o : St} {S dirty : Nat → Prop} {ib : Nat → Nat → Nat} {r : Nat}
    (h : Work L cnt held o S dirty ib s) (hr : r ∈ held) (hS : S (s.ino r)) (h0 : ib (s.ino r) 0 = 0)
    (parent : Nat) :
    wp (world False) (dirInitDot L.fs r parent)
      (fun a s' => a = true → ∃ ib', Work L cnt held o S (fun m => dirty m ∨ m = s.ino r) ib' s' ∧
        L.Steady s s' ∧ ∃ b, s'.inodes r = ((s.inodes r).setBlocks b).setSize L.fs.block_size) s := by
  obtain ⟨ib1, h1, hib, hsame, -⟩ := h.align (h.agree r hr)
  have hn := h1.live r hr
  have h0' : ib1 (s.ino r) 0 = 0 := (hsame 0 (Nat.zero_le _)).trans h0
  refine wp_weaken (dirInitDot_spec h1.valid h1.owns hn hib h0' parent) ?_
  rintro a s' (⟨rfl, -⟩ | ⟨-, -, ib2, hput⟩) ha
  · cases ha
  · obtain ⟨hw, hst⟩ := h1.touch hr hS (hput.touches hn)
    obtain ⟨s2, hext, -, -, rfl⟩ := hput
    refine ⟨ib2, hw, hst, ib2 (s.ino r), ?_⟩
    show Function.update s2.inodes r ((s2.inodes r).setSize _) r = _
    rw [update_self, hext.inodes, update_self]

theorem mkdir_run (h : Mounted L cnt held s) (hdir : dir ∈ held) (name : List UInt8) (mode : Nat) :
    wp (world False) (mkdir L.fs dir name mode) (fun a s' => ∀ r, a = some r →
        Mounted L cnt (r :: held) s' ∧ L.Spares held (L.Makes s dir) s (L.vol s').blocks s' ∧
          L.NewInode s' r (S_IFDIR ||| (mode &&& 0o777))) s := by
  unfold mkdir
  split_ifs
  · simp
  · simp
  refine wp_then (dirFind_same L.fs dir name) ?_
  rintro found s1 rfl
  split_ifs
  · simp
  refine newEntry_run h hdir (fun now => i_block_dirRecord L.fs mode now) (fun _ => by simp) ?_
  intro n now ib2 s2 hnl hlive hino2 hib2 _ h2
  simp only [wp_bind]
  -- the object of the new directory
  refine wp_mark_of _ _ fun s3 hg => ?_
  obtain ⟨h3, hst3⟩ := h2.ghost hg
  rw [wp_inodeCreate]
  refine ⟨?_, fun hF => hF.elim⟩
  have h4 := h3.create (i := inodeOf n (dirRecord L.fs mode now))
    (by show (L.vol s3).live n; rw [hst3.live]; exact hlive)
    (fun r hr e => hnl (by
      rw [hst3.ino, hino2] at e
      rw [show n = s1.ino r from e.symm]
      exact h.live r hr))
    (fun k hk => by rw [i_block_inodeOf n _ hk, i_block_dirRecord]; exact (hib2 k).symm) (.inr hnl)
  have hino4 : ∀ r ∈ held, (s3.create (inodeOf n (dirRecord L.fs mode now))).ino r = s1.ino r := by
    intro r hr
    rw [← hino2, ← hst3.ino]
    exact s3.ino_create_old _ (h3.fresh r hr)
  have hnew : (s3.create (inodeOf n (dirRecord L.fs mode now))).ino s3.next = n := s3.ino_create_new _
  have howned : ((s3.create (inodeOf n (dirRecord L.fs mode now))).inodes s3.next).Owned (S_IFDIR ||| (mode &&& 0o777)) := by
    rw [show (s3.create (inodeOf n (dirRecord L.fs mode now))).inodes s3.next = _ from update_self ..]
    exact owned_inodeOf (access_dirRecord L.fs mode now)
  simp only [wp_bind]
  refine wp_mark_of _ _ fun s5 hg5 => ?_
  obtain ⟨h5, hst5⟩ := h4.ghost hg5
  have hnew5 : s5.ino s3.next = n := by rw [hst5.ino, hnew]
  rw [wp_inodeAt]
  -- its first block
  refine wp_weaken (dirInitDot_work h5 mem_cons_self (.inr (by rw [hnew5]; exact hnl))
    (by rw [hnew5]; exact hib2 0) _) ?_
  rintro (_ | _) s6 h6
  · simp
  obtain ⟨ib6, h6, hst6, b, hobj6⟩ := h6 rfl
  have hst6 := hst5.trans hst6
  simp only [if_not_true, wp_bind]
  refine wp_weaken (refreshIBlocks_work h6 (.inr (by rw [hst6.ino, hnew]; exact hnl))) ?_
  rintro - s7 ⟨h7, hst7, u, hobj7⟩
  have hst7 := hst6.trans hst7
  refine wp_mark_of _ _ fun s8 hg8 => ?_
  obtain ⟨h8, hst8⟩ := h7.ghost hg8
  have hst8 := hst7.trans hst8
  have howned8 : (s8.inodes s3.next).Owned (S_IFDIR ||| (mode &&& 0o777)) := by
    rw [hg8.inodes, hobj7, hobj6, hg5.inodes]
    exact howned.congr rfl rfl
  refine wp_weaken (privSave_work h8 mem_cons_self (.inr (by rw [hst8.ino, hnew]; exact hnl))) ?_
  rintro _ s9 ⟨rfl, h9, hst9, rfl⟩
  have hstored := newInode_stored h8.valid (live_isIno (h8.live _ mem_cons_self)) howned8 (typed_lt (by decide) mode)
  have hst9 := hst8.trans hst9
  simp only [if_not_true, wp_bind]
  -- the parent
  refine wp_mark_of _ _ fun s10 hg10 => ?_
  obtain ⟨h10, hst10⟩ := h9.ghost hg10
  have hst10 := hst9.trans hst10
  have hdir10 : s10.ino dir = s1.ino dir := by rw [hst10.ino, hino4 dir hdir]
  have hnew10 : s10.ino s3.next = n := by rw [hst10.ino, hnew]
  have hsave := saveLast_work
    (f := fun i => setTimes now { i with priv := { i.priv with i_links_count := u32 (i.priv.i_links_count + 1) } })
    h10 (mem_cons_of_mem _ hdir) (.inl hdir10) (fun m hm => by
      rw [hdir10]
      exact hm.1.resolve_right fun e => hm.2 (by rw [hst8.ino, ← hst5.ino]; exact e)) fun _ => ⟨rfl, rfl⟩
  simp only [wp_bind, wp_update] at hsave ⊢
  refine wp_weaken hsave fun _ _ hsave => wp_weaken hsave ?_
  rintro _ s13 ⟨h13, hst13, hsp13⟩
  simp only [wp_cacheFlush, wp_pure, false_imp_iff, and_true]
  rintro r ⟨⟩
  obtain ⟨hm, hsp⟩ := h13.mounted fun _ hm => hm
  refine ⟨hm, hsp.forget fun r hr => mem_cons_of_mem _ hr, (hstored.ghost hg10).spared mem_cons_self
    (h10.live _ mem_cons_self) ?_ hst13.ino h13.valid hsp13⟩
  rw [hnew10, hdir10]
  exact fun e => hnl (e ▸ h.live dir hdir)

/-! ## Removing names -/

def St.find (fs : Fs) (s : St) (dir : Nat) (name : List UInt8) : Option Nat := ((dirFind fs dir name).run serve s).1

theorem dirFind_eq (fs : Fs) (s : St) (dir : Nat) (name : List UInt8) :
    wp (world False) (dirFind fs dir name) (fun a s' => s' = s ∧ a = s.find fs dir name) s := by
  rw [wp_world_false]
  exact ⟨(wp_world_false _ (fun _ s' => s' = s) s).1 (dirFind_same fs dir name), rfl⟩

theorem find_of_no_blocks (h0 : ∀ k, k ≤ EXT2_DIND_BLOCK → (s.inodes dir).priv.i_block k = 0) (name : List UInt8) :
    s.find L.fs dir name = none := by
  have hz : ∀ x, L.IsSlot (· = 0) x → ptr (fun _ => (s.inodes dir).priv.i_block) (L.vol s).data x = 0 :=
    fun x hx => ptr_eq_zero h0 hx hx.live
  have hfrom : ∀ m l, wp (world False) (dirFindFrom L.fs dir name m l) (fun a _ => a = none) s := by
    intro m
    induction m with
    | zero => intro l; simp [dirFindFrom]
    | succ m ih =>
      intro l
      unfold dirFindFrom
      refine readBlk_spec (fun x hx hne => absurd (hz x hx) hne) rfl (fun hl hne => ?_) (fun _ => ih _) fun _ => rfl
      exact absurd (hz _ (L.isSlot_self 0 hl)) hne
  have : wp (world False) (dirFind L.fs dir name) (fun a _ => a = none) s := by
    simp only [dirFind, wp_bind, wp_slabAlloc, if_not_true, wp_inodeAt, false_imp_iff, and_true]
    exact hfrom _ _
  exact (wp_world_false _ (fun a _ => a = none) s).1 this

theorem removeStart_run {name : List UInt8} {k : Nat → Bytes → M Bool} {Q : Bool → St → Prop} (hv : L.Valid s)
    (hbad : (∀ n, s.find L.fs dir name = some n → L.IsIno n → name.length = 0 ∨ VFS_NAME_MAX < name.length) → Q false s)
    (hk : ∀ n, s.find L.fs dir name = some n → L.IsIno n → ¬(name.length = 0 ∨ VFS_NAME_MAX < name.length) →
      wp (world False) (k n ((L.vol s).inode n)) Q s) :
    wp (world False) (do
        if name.length = 0 ∨ VFS_NAME_MAX < name.length then return false
        let some ino ← dirFind L.fs dir name | return false
        let some di ← inodeRead L.fs ino | return false
        k ino di) Q s := by
  by_cases hname : name.length = 0 ∨ VFS_NAME_MAX < name.length
  · rw [if_pos hname, wp_pure]
    exact hbad fun _ _ _ => hname
  rw [if_neg hname]
  refine wp_then (dirFind_eq L.fs s dir name) ?_
  rintro found s1 ⟨rfl, rfl⟩
  cases hfind : s1.find L.fs dir name with
  | none => exact hbad fun n h => by rw [hfind] at h; cases h
  | some n =>
    dsimp only
    rw [wp_bind]
    by_cases hn : L.IsIno n
    · rw [wp_inodeRead hv hn]
      exact ⟨hk n hfind hn hname, fun hF => hF.elim⟩
    · rw [wp_inodeRead_of_not hn]
      exact hbad fun m h hm => absurd hm (Option.some.inj (hfind.symm.trans h) ▸ hn)

section Remove

variable {o : St} {S dirty : Nat → Prop} {ib : Nat → Nat → Nat} {n r : Nat}

/-- The end of `ext2_unlink` and `ext2_rmdir`. -/
def removeTail (fs : Fs) (dir : Nat) : M Bool := do
  let t ← now
  update dir (setTimes t)
  let _ ← privSave fs dir
  let _ ← cacheFlush
  return true

theorem finish_run (h : Work L cnt held o S dirty ib s) (hd : ∀ m, ¬dirty m) (hS : S (s.ino dir))
    (hino : L.IsIno (s.ino dir)) (hdir : dir ∈ held ∨ ¬(L.vol s).live (s.ino dir)) :
    wp (world False) (removeTail L.fs dir)
      (fun _ s' => Mounted L cnt held s' ∧ L.Spares held S o (L.vol s').blocks s') s := by
  simp only [removeTail, wp_bind]
  refine wp_now_of s fun t => ?_
  rw [wp_update]
  obtain ⟨h1, hst⟩ := h.modify (f := setTimes t) hS fun _ => ⟨rfl, rfl⟩
  have hino1 : L.IsIno ((s.modify dir (setTimes t)).ino dir) := by rw [hst.ino]; exact hino
  rw [wp_privSave h1.valid hino1]
  refine ⟨?_, fun hF => hF.elim⟩
  simp only [wp_cacheFlush, wp_pure, false_imp_iff, and_true]
  by_cases hr : dir ∈ held
  · exact (h1.save hr (by rw [hst.ino]; exact hS)).mounted fun m hm => hd m hm.1
  · have hnl := hdir.resolve_left hr
    have h2 : Work L cnt held o S dirty ib _ := h1.stored hino1 (fun _ => by rw [hst.ino]; exact hS)
      (privToDisk ((s.modify dir (setTimes t)).inodes dir).priv) (fun hl => absurd (by rw [hst.live, hst.ino] at hl; exact hl) hnl) fun _ _ hm => hm
    exact h2.mounted hd

theorem dispose_run {record : Nat → Bytes} {k : M Bool} {Q : Bool → St → Prop}
    (h : Work L cnt held o S dirty ib s) (hd : ∀ m, ¬dirty m) (hn : L.IsIno n) (hS : S n)
    (hne : ∀ r' ∈ held, s.ino r' ≠ n) (hr : r ∉ held) (hib : (s.inodes r).priv.i_block = ib n)
    (hok : (L.vol s).live n ∨ ∀ k, k ≤ EXT2_DIND_BLOCK → ib n k = 0) (hc : cnt → (L.vol s).live n)
    (hk : ∀ dirty' ib' s', Work L cnt held o S dirty' ib' s' → (∀ m, ¬dirty' m) → s'.ino = s.ino →
      ¬(L.vol s').live n → wp (world False) k Q s') :
    wp (world False) (do
        let _ ← freeAllBlocks L.fs r
        let t ← now
        if !(← inodeWrite L.fs n (record t)) then return false
        let _ ← freeInode L.fs n
        k) Q s := by
  simp only [wp_bind]
  refine wp_weaken (freeAllBlocks_work h hS hne hr hib hok) ?_
  rintro _ s1 ⟨ib1, h1, hst1, hib1⟩
  refine wp_now_of s1 fun t => ?_
  rw [wp_inodeWrite h1.valid hn]
  refine ⟨?_, fun hF => hF.elim⟩
  simp only [if_not_true, wp_bind]
  have hst2 := hst1.trans (steady_stored h1.valid hn (record t))
  have h2 : Work L cnt held o S (fun m => dirty m ∨ m = n) ib1 (L.stored s1 n (record t)) :=
    h1.stored hn (fun _ => hS) _ (fun _ hd' => absurd (.inr rfl) hd') fun _ _ hm => hm
  refine wp_weaken (freeInode_spec h2.valid hn) ?_
  rintro a s3 (⟨-, hupd⟩ | ⟨-, hF, -⟩)
  · have h3 := h2.freeInode hn hS (fun r' hr' => by rw [hst2.ino]; exact hne r' hr') (fun _ k hk => hib1 k hk)
      (fun hcnt => by rw [hst2.live]; exact hc hcnt) hupd
    refine hk _ ib1 s3 h3 (fun m hm => hm.1.elim (hd m) hm.2) ?_ ?_
    · rw [← hst2.ino]
      funext r'
      rw [St.ino, hupd.same.inodes]
      rfl
    · rw [Vol.live, hupd.vol]
      simp [Layout.freeInode]
  · exact hF.elim

end Remove

/-- The objects of other inodes. -/
def St.besides (s : St) (held : List Nat) (n : Nat) : List Nat := held.filter fun r => s.ino r ≠ n

theorem St.mem_besides {n r : Nat} : r ∈ s.besides held n ↔ r ∈ held ∧ s.ino r ≠ n := by
  simp [St.besides, mem_filter]

def Vol.NoBlocks (v : Vol) (n : Nat) : Prop := ∀ k, k ≤ EXT2_DIND_BLOCK → v.blocks n k = 0

/-- The calls that may remove the name of inode `n` touch the directory and `n`. -/
def Removes (s : St) (dir n m : Nat) : Prop := m = s.ino dir ∨ m = n

theorem unlink_run (h : Mounted L cnt held s) (hdir : dir ∈ held) (name : List UInt8)
    (hok : ∀ n, s.find L.fs dir name = some n →
      (L.vol s).live n ∧ Di.i_links_count ((L.vol s).inode n) ≤ 1 ∨ (L.vol s).NoBlocks n)
    (hc : ∀ n, s.find L.fs dir name = some n → cnt → Di.i_links_count ((L.vol s).inode n) ≤ 1 → (L.vol s).live n) :
    wp (world False) (unlink L.fs dir name)
      (fun a s' => a = true → ∃ n, s.find L.fs dir name = some n ∧ Mounted L cnt (s.besides held n) s' ∧
        L.Spares (s.besides held n) (Removes s dir n) s (L.vol s').blocks s') s := by
  unfold unlink
  refine removeStart_run h.valid (fun _ h => by cases h) fun n hfind hn _ => ?_
  by_cases hmode : ifmt (Di.i_mode ((L.vol s).inode n)) = S_IFDIR
  · simp [hmode]
  rw [if_neg hmode, wp_bind]
  have hlinks : (if 0 < Di.i_links_count ((L.vol s).inode n) then Di.i_links_count ((L.vol s).inode n) - 1
      else Di.i_links_count ((L.vol s).inode n)) = 0 ↔ Di.i_links_count ((L.vol s).inode n) ≤ 1 := by
    split_ifs <;> omega
  generalize (if 0 < Di.i_links_count ((L.vol s).inode n) then Di.i_links_count ((L.vol s).inode n) - 1
    else Di.i_links_count ((L.vol s).inode n)) = links at hlinks ⊢
  -- the entry goes, and the objects of the inode with it
  refine wp_weaken (dirRemove_work (h.work (Removes s dir n)) hdir (.inl rfl) name) ?_
  rintro (_ | _) s2 h2
  · simp
  obtain ⟨h2, hst2, -⟩ := h2 rfl
  have h3 : Work L cnt (s.besides held n) s (Removes s dir n) _ _ s2 :=
    h2.forget fun r hr => (St.mem_besides.1 hr).1
  have hnot4 : s2.next ∉ s.besides held n := fun hr => Nat.lt_irrefl _ (h3.fresh _ hr)
  have hne4 : ∀ r ∈ s.besides held n, (s2.create (inodeOf n ((L.vol s).inode n))).ino r ≠ n := fun r hr => by
    rw [s2.ino_create_old _ (h3.fresh r hr), hst2.ino]
    exact (St.mem_besides.1 hr).2
  obtain ⟨ib4, h4, hobj4, hib4, -⟩ := (h3.createOther (inodeOf n ((L.vol s).inode n))).1.align
    (r := s2.next) (n := n) fun k hk => by rw [s2.create_new, i_block_inodeOf n _ hk]; rfl
  have hdir4 : (s2.create (inodeOf n ((L.vol s).inode n))).ino dir = s.ino dir := by
    rw [s2.ino_create_old _ (h2.fresh dir hdir), hst2.ino]
  simp only [if_not_true]
  rw [wp_bind, wp_newInode]
  have hlive : (L.vol (s2.create (inodeOf n ((L.vol s).inode n)))).live = (L.vol s).live := hst2.live
  have hdirIno := live_isIno (h.live dir hdir)
  have hkeep : s.ino dir ≠ n → dir ∈ s.besides held n := fun e => St.mem_besides.2 ⟨hdir, e⟩
  by_cases h0 : links = 0
  · simp only [h0, if_true]
    refine dispose_run h4 (fun _ => id) hn (.inr rfl) hne4 hnot4 hobj4 ?_ (fun hcnt => ?_) ?_
    · rw [hlive]
      exact (hok n hfind).imp And.left fun hnb k hk => (hib4 k hk).trans (hnb k hk)
    · rw [hlive]
      exact hc n hfind hcnt (hlinks.1 h0)
    intro dirty' ib5 s5 h5 hd5 hino5 hnl5
    refine wp_weaken (finish_run h5 hd5 (.inl (by rw [hino5, hdir4])) (by rw [hino5, hdir4]; exact hdirIno) ?_)
      fun _ s' hm _ => ⟨n, hfind, hm⟩
    rw [hino5, hdir4]
    by_cases e : s.ino dir = n
    · exact .inr (by rw [e]; exact hnl5)
    · exact .inl (hkeep e)
  · -- other names are left, so there were no blocks
    have hnb : (L.vol s).NoBlocks n := (hok n hfind).resolve_left fun hl => h0 (hlinks.2 hl.2)
    have hne : s.ino dir ≠ n := by
      intro e
      have : s.find L.fs dir name = none := find_of_no_blocks (fun k hk => by
        rw [h.agree dir hdir k hk, e]; exact hnb k hk) name
      rw [hfind] at this
      cases this
    simp only [h0, if_false, wp_bind]
    refine wp_weaken (freeAllBlocks_work h4 (.inr rfl) hne4 hnot4 hobj4
      (.inr fun k hk => (hib4 k hk).trans (hnb k hk))) ?_
    rintro _ s5 ⟨ib5, h5, hst5, hib5⟩
    refine wp_now_of s5 fun t => ?_
    rw [wp_inodeWrite h5.valid hn]
    refine ⟨?_, fun hF => hF.elim⟩
    have h6 : Work L cnt (s.besides held n) s (Removes s dir n) (fun _ => False) ib5 (L.stored s5 n _) :=
      h5.stored hn (fun _ => .inr rfl) ((((L.vol s).inode n).put 2 26 links).put 4 20 t) (fun _ _ k hk => ?_)
        fun m hm hd => (hd.resolve_right hm)
    · have hst6 := hst5.trans (steady_stored h5.valid hn ((((L.vol s).inode n).put 2 26 links).put 4 20 t))
      simp only [if_not_true]
      exact wp_weaken (finish_run h6 (fun _ => id) (.inl (by rw [hst6.ino, hdir4]))
        (by rw [hst6.ino, hdir4]; exact hdirIno) (.inl (hkeep hne))) fun _ s' hm _ => ⟨n, hfind, hm⟩
    · rw [i_block_slice _ hk, hib5 k hk, Di.i_block, get_put_of_disjoint _ _ (by omega),
        get_put_of_disjoint _ _ (by omega)]
      exact hnb k hk

theorem rmdir_run (h : Mounted L cnt held s) (hdir : dir ∈ held) (name : List UInt8)
    (hok : ∀ n, s.find L.fs dir name = some n → (L.vol s).live n ∨ (L.vol s).NoBlocks n)
    (hc : ∀ n, s.find L.fs dir name = some n → cnt → (L.vol s).live n) :
    wp (world False) (rmdir L.fs dir name)
      (fun a s' => a = true → ∃ n, s.find L.fs dir name = some n ∧ Mounted L cnt (s.besides held n) s' ∧
        L.Spares (s.besides held n) (Removes s dir n) s (L.vol s').blocks s') s := by
  unfold rmdir
  refine removeStart_run h.valid (fun _ h => by cases h) fun n hfind hn _ => ?_
  by_cases hmode : ifmt (Di.i_mode ((L.vol s).inode n)) = S_IFDIR
  swap
  · simp [hmode]
  rw [if_neg (not_not.2 hmode), wp_bind, wp_newInode]
  obtain ⟨h2, -⟩ := (h.work (Removes s dir n)).createOther (inodeOf n ((L.vol s).inode n))
  have hino2 : ∀ r ∈ held, (s.create (inodeOf n ((L.vol s).inode n))).ino r = s.ino r := fun r hr =>
    s.ino_create_old _ (h.fresh r hr)
  have hobj2 := s.create_new (inodeOf n ((L.vol s).inode n))
  set s2 := s.create (inodeOf n ((L.vol s).inode n)) with hs2
  split_ifs
  · simp
  refine wp_then (dirEmpty_same L.fs s.next) ?_
  rintro empty _ rfl
  by_cases hempty : empty = some true
  swap
  · simp [hempty]
  rw [if_neg (not_not.2 hempty)]
  refine wp_then (dirRemove_work h2 hdir (.inl (hino2 dir hdir)) name) ?_
  rintro (_ | _) s3 h3
  · simp
  obtain ⟨h3, hst3, hobj3⟩ := h3 rfl
  have hino3 : ∀ r ∈ held, s3.ino r = s.ino r := fun r hr => by rw [hst3.ino, hino2 r hr]
  -- from here on the objects of the directory that goes are out of use
  have h4 : Work L cnt (s.besides held n) s (Removes s dir n) _ _ s3 :=
    h3.forget fun r hr => (St.mem_besides.1 hr).1
  obtain ⟨ib4, h4, hobj4, hib4, -⟩ := h4.align (r := s.next) (n := n) fun k hk => by
    rw [hobj3, hobj2, i_block_inodeOf n _ hk]; rfl
  have hlive : (L.vol s3).live = (L.vol s).live := hst3.live
  simp only [if_not_true]
  refine dispose_run h4 (fun _ => id) hn (.inr rfl) (fun r hr => ?_) (fun hr => ?_) hobj4 ?_ (fun hcnt => ?_) ?_
  · rw [hino3 r (St.mem_besides.1 hr).1]
    exact (St.mem_besides.1 hr).2
  · exact Nat.lt_irrefl _ (h.fresh _ (St.mem_besides.1 hr).1)
  · rw [hlive]
    exact (hok n hfind).imp id fun hnb k hk => (hib4 k hk).trans (hnb k hk)
  · rw [hlive]
    exact hc n hfind hcnt
  intro dirty' ib5 s5 h5 hd5 hino5 hnl5
  have hdir5 : s5.ino dir = s.ino dir := by rw [hino5, hino3 dir hdir]
  obtain ⟨h6, hst6⟩ := h5.modify (r := dir)
    (f := fun i => { i with priv := { i.priv with i_links_count := i.priv.i_links_count - 1 } })
    (.inl hdir5) fun _ => ⟨rfl, rfl⟩
  rw [wp_bind, wp_update]
  refine wp_weaken (finish_run h6 hd5 (.inl (by rw [hst6.ino, hdir5]))
    (by rw [hst6.ino, hdir5]; exact live_isIno (h.live dir hdir)) ?_) fun _ s' hm _ => ⟨n, hfind, hm⟩
  rw [hst6.ino, hst6.live, hdir5]
  by_cases e : s.ino dir = n
  · exact .inr (by rw [e]; exact hnl5)
  · exact .inl (St.mem_besides.2 ⟨hdir, e⟩)

end Names

/-! ## Contents -/

section Contents

variable {L : Layout} {cnt : Prop} {held : List Nat} {o s s' : St} {S dirty : Nat → Prop}
  {ib ib' : Nat → Nat → Nat} {n r : Nat}

def Layout.content (L : Layout) (s : St) (n off : Nat) : UInt8 := L.byte (L.vol s).blocks (L.vol s) n off

theorem Layout.blk_congr {v : Vol} (hib : ∀ k, k ≤ EXT2_DIND_BLOCK → ib' n k = ib n k) {l : Nat}
    (hl : l < L.maxBlocks) : L.blk ib' v n l = L.blk ib v n l := by
  have : ptr ib' v.data (L.slotOf n l) = ptr ib v.data (L.slotOf n l) :=
    @ptr_congr L (· = n) _ _ _ _ (fun m k hm hk => by rw [hm]; exact hib k hk) (fun _ _ _ _ => rfl) _ (L.isSlot_self n hl)
  rw [Layout.blk, block, this]
  rfl

theorem Layout.byte_congr {v : Vol} (hib : ∀ k, k ≤ EXT2_DIND_BLOCK → ib' n k = ib n k) {off : Nat}
    (hoff : off < L.maxBytes) : L.byte ib' v n off = L.byte ib v n off := by
  rw [Layout.byte, blk_congr hib (div_lt_maxBlocks hoff)]
  rfl

theorem Layout.Spares.content (h : L.Spares held S o (L.vol s).blocks s) (hn : (L.vol o).live n) (hS : ¬S n)
    {off : Nat} (hoff : off < L.maxBytes) : L.content s n off = L.content o n off := by
  have hx := L.isSlot_self n (div_lt_maxBlocks hoff)
  unfold Layout.content Layout.byte Layout.blk
  rw [h.block n _ hn hS hx (L.leaf_slotOf n _)]

structure Layout.Wrote (L : Layout) (cnt : Prop) (held : List Nat) (s : St) (r pos stop : Nat) (buf : Bytes)
    (s' : St) : Prop where
  mounted : Mounted L cnt held s'
  spares : L.Spares held (· = s.ino r) s (L.vol s').blocks s'
  steady : L.Steady s s'
  size : (s'.inodes r).size = if (s.inodes r).size < stop then stop else (s.inodes r).size
  i_size : (s'.inodes r).priv.i_size = if (s.inodes r).size < stop then u32 stop else (s.inodes r).priv.i_size
  mode : (s'.inodes r).mode = (s.inodes r).mode
  content : stop ≤ L.maxBytes → ∀ off, off < L.maxBytes → L.content s' (s.ino r) off =
    if pos ≤ off ∧ off < stop then buf (off - pos) else L.content s (s.ino r) off
  limit : pos < stop → pos ≤ L.maxBytes → stop ≤ L.maxBytes

/-- `s'` is `s` with the record of object `r` up to date and other fields of the object set. -/
structure Layout.Synced (L : Layout) (r a b : Nat) (s s' : St) : Prop where
  steady : L.Steady s s'
  data : (L.vol s').data = (L.vol s).data
  size : (s'.inodes r).size = a
  i_size : (s'.inodes r).priv.i_size = b
  mode : (s'.inodes r).mode = (s.inodes r).mode

theorem Layout.Synced.modify {f : Inode → Inode} {a b : Nat}
    (hf : ∀ i, (f i).priv.ino = i.priv.ino ∧ (f i).mode = i.mode) (ha : (f (s.inodes r)).size = a)
    (hb : (f (s.inodes r)).priv.i_size = b) : L.Synced r a b s (s.modify r f) := by
  have hobj : (s.modify r f).inodes r = f (s.inodes r) := update_self ..
  exact ⟨steady_modify fun i => (hf i).1, rfl, by rw [hobj, ha], by rw [hobj, hb], by rw [hobj, (hf _).2]⟩

theorem Layout.Synced.trans {s'' : St} {a b a' b' : Nat} (h : L.Synced r a b s s')
    (h' : L.Synced r a' b' s' s'') : L.Synced r a' b' s s'' :=
  ⟨h.steady.trans h'.steady, h'.data.trans h.data, h'.size, h'.i_size, h'.mode.trans h.mode⟩

section

variable (h : Work L cnt held o S dirty ib s)

include h

theorem Work.objectPtrs (hr : r ∈ held) : DataPtrs L (s.ino r) (s.objectPtrs r) (L.vol s).data := by
  obtain ⟨ib1, h1, hib1, -⟩ := h.align (h.agree r hr)
  exact (h1.owns.dataPtrs (h1.live r hr)).object hib1

theorem sync_run {α : Type} {e : α} {k : M α} {Q : α → St → Prop}
    (hr : r ∈ held) (hS : S (s.ino r)) (hd : ∀ m, dirty m → m = s.ino r)
    (hk : ∀ s', Work L cnt held o S (fun _ => False) ib s' →
      L.Synced r (s.inodes r).size (s.inodes r).priv.i_size s s' → L.Refreshed s r s' →
      wp (world False) k Q s') :
    wp (world False) (do
        refreshIBlocks L.fs r
        if !(← privSave L.fs r) then return e
        k) Q s := by
  refine wp_then (refreshIBlocks_run (h.objectPtrs hr)) ?_
  rintro _ s1 rfl
  have hrefreshed := refreshed_stored h.valid (live_isIno (h.live r hr))
  generalize L.sectors s r = u at hrefreshed ⊢
  obtain ⟨h1, hst1⟩ := h.modify (r := r) (f := fun i => i.setCount u) hS fun _ => ⟨rfl, rfl⟩
  have hsync : L.Synced r (s.inodes r).size (s.inodes r).priv.i_size s (s.modify r fun i => i.setCount u) :=
    .modify (fun _ => ⟨rfl, rfl⟩) rfl rfl
  have hn := live_isIno (h1.live r hr)
  rw [wp_bind, wp_privSave h1.valid hn]
  refine ⟨?_, fun hF => hF.elim⟩
  simp only [if_not_true]
  refine hk _ ((h1.save hr (by rw [hst1.ino]; exact hS)).dirty_mono fun m hm => hm.2 ?_) (hsync.trans ⟨?_, ?_, hsync.size, hsync.i_size, rfl⟩)
    hrefreshed
  · rw [hst1.ino]
    exact hd m hm.1
  · exact steady_stored h1.valid hn _
  · rw [show ((s.modify r fun i => i.setCount u).inodes r).priv.ino = (s.modify r fun i => i.setCount u).ino r from rfl,
      (L.upd_stored h1.valid hn _).vol]

omit h in
theorem Layout.wrote_of_work {pos stop : Nat} {buf : Bytes}
    (h : Work L cnt held s (· = s.ino r) (fun _ => False) ib' s') (hr : r ∈ held) (hst : L.Steady s s')
    (hsize : (s'.inodes r).size = if (s.inodes r).size < stop then stop else (s.inodes r).size)
    (hi_size : (s'.inodes r).priv.i_size = if (s.inodes r).size < stop then u32 stop else (s.inodes r).priv.i_size)
    (hmode : (s'.inodes r).mode = (s.inodes r).mode)
    (hbyte : stop ≤ L.maxBytes → ∀ off, off < L.maxBytes → L.byte ib' (L.vol s') (s.ino r) off =
      if pos ≤ off ∧ off < stop then buf (off - pos) else L.content s (s.ino r) off)
    (hlimit : pos < stop → pos ≤ L.maxBytes → stop ≤ L.maxBytes) :
    L.Wrote cnt held s r pos stop buf s' := by
  obtain ⟨hm, hsp⟩ := h.mounted fun _ => id
  refine ⟨hm, hsp, hst, hsize, hi_size, hmode, fun hstop off hoff => ?_, hlimit⟩
  rw [← hbyte hstop off hoff]
  refine byte_congr (fun k hk => ?_) hoff
  have hlive := h.live r hr
  rw [hst.ino] at hlive
  exact h.saved _ k hlive id hk

omit h in
/-- The object has the pointers of `s`; with `p` its record is stored, without nothing on the volume has changed. -/
def Layout.SavedIf (L : Layout) (r : Nat) (p : Prop) (s s' : St) : Prop :=
  s'.objectPtrs r = s.objectPtrs r ∧ (p → L.Stored s' r) ∧ (¬p → L.vol s' = L.vol s)

theorem writeTail_run {pos stop count : Nat} (hr : r ∈ held) (hS : S (s.ino r))
    (hd : ∀ m, dirty m → m = s.ino r ∧ pos < stop) :
    wp (world False) (do
        let grows := decide ((← inodeAt r).size < stop)
        if grows then
          update r fun i => i.setSizes stop
        update r (setTimes (← now))
        if pos < stop ∨ grows then
          refreshIBlocks L.fs r
          if !(← privSave L.fs r) then return none
        return some count)
      (fun a s' => ∀ c, a = some c → c = count ∧ Work L cnt held o S (fun _ => False) ib s' ∧
        L.Synced r (if (s.inodes r).size < stop then stop else (s.inodes r).size)
          (if (s.inodes r).size < stop then u32 stop else (s.inodes r).priv.i_size) s s' ∧
        L.SavedIf r (pos < stop ∨ (s.inodes r).size < stop) s s') s := by
  -- what is left after the updates of the object, in state `s1`
  have key : ∀ s1, Work L cnt held o S dirty ib s1 →
      L.Synced r (if (s.inodes r).size < stop then stop else (s.inodes r).size)
        (if (s.inodes r).size < stop then u32 stop else (s.inodes r).priv.i_size) s s1 →
      s1.objectPtrs r = s.objectPtrs r → L.vol s1 = L.vol s →
      ∀ (p : Prop) [Decidable p], (p ↔ (s.inodes r).size < stop) → wp (world False) (do
          if pos < stop ∨ p then
            refreshIBlocks L.fs r
            if !(← privSave L.fs r) then return none
          return some count)
        (fun a s' => ∀ c, a = some c → c = count ∧ Work L cnt held o S (fun _ => False) ib s' ∧
          L.Synced r (if (s.inodes r).size < stop then stop else (s.inodes r).size)
            (if (s.inodes r).size < stop then u32 stop else (s.inodes r).priv.i_size) s s' ∧
          L.SavedIf r (pos < stop ∨ (s.inodes r).size < stop) s s') s1 := by
    intro s1 h1 hs1 hptrs hvol p _ hp
    have hiff : pos < stop ∨ p ↔ pos < stop ∨ (s.inodes r).size < stop := or_congr_right hp
    have hino : s1.ino r = s.ino r := by rw [hs1.steady.ino]
    by_cases hsave : pos < stop ∨ p
    · simp only [hsave, if_true]
      refine sync_run h1 hr (by rw [hino]; exact hS) (fun m hm => by rw [hino]; exact (hd m hm).1) ?_
      intro s2 h2 hs2 hr2
      rw [wp_pure]
      rintro c ⟨⟩
      rw [hs1.size, hs1.i_size] at hs2
      exact ⟨rfl, h2, hs1.trans hs2, hr2.objectPtrs.trans hptrs, fun _ => hr2.stored, fun hno => absurd (hiff.1 hsave) hno⟩
    · simp only [hsave, if_false, wp_pure]
      rintro c ⟨⟩
      exact ⟨rfl, h1.dirty_mono fun m hm => hsave (.inl (hd m hm).2), hs1, hptrs, fun hyes => absurd (hiff.2 hyes) hsave, fun _ => hvol⟩
  simp only [wp_bind, wp_inodeAt]
  by_cases hg : (s.inodes r).size < stop
  · obtain ⟨h1, hst1⟩ := h.modify (r := r) (f := fun i => i.setSizes stop) hS fun _ => ⟨rfl, rfl⟩
    have hs1 : L.Synced r stop (u32 stop) s (s.modify r fun i => i.setSizes stop) :=
      .modify (fun _ => ⟨rfl, rfl⟩) rfl rfl
    simp only [hg, decide_true, if_true, wp_bind, wp_update] at key ⊢
    refine wp_now_of _ fun t => ?_
    obtain ⟨h2, -⟩ := h1.modify (r := r) (f := setTimes t) (by rw [hst1.ino]; exact hS) fun _ => ⟨rfl, rfl⟩
    refine key _ h2 (hs1.trans (.modify (fun _ => ⟨rfl, rfl⟩) hs1.size hs1.i_size)) ?_ rfl True Iff.rfl
    unfold St.objectPtrs
    simp only [St.modify, update_self]
    rfl
  · simp only [hg, decide_false, Bool.false_eq_true, if_false, wp_bind, wp_update] at key ⊢
    refine wp_now_of _ fun t => ?_
    obtain ⟨h2, -⟩ := h.modify (r := r) (f := setTimes t) hS fun _ => ⟨rfl, rfl⟩
    refine key _ h2 (.modify (fun _ => ⟨rfl, rfl⟩) rfl rfl) ?_ rfl False Iff.rfl
    unfold St.objectPtrs
    simp only [St.modify, update_self]
    rfl

end

section

variable (h : Mounted L cnt held s)

include h

theorem writeData_run (hr : r ∈ held) (pos : Nat) (buf : Bytes) (count : Nat) :
    wp (world False) (writeData L.fs r pos buf count)
      (fun a s' => ∀ c, a = some c → c = count ∧ L.Wrote cnt held s r pos (u64 (pos + count)) buf s' ∧
        ∃ s₂, (u64 (pos + count) ≤ pos ∧ s₂ = s ∨ pos < u64 (pos + count) ∧
            (writeFrom L.fs r pos buf (u64 (pos + count)) (u64 (pos + count) - pos) pos).run serve s = (true, s₂)) ∧
          L.SavedIf r (pos < u64 (pos + count) ∨ (s.inodes r).size < u64 (pos + count)) s₂ s') s := by
  unfold writeData
  generalize u64 (pos + count) = stop
  dsimp only
  rw [wp_bind, wp_slabAlloc]
  refine ⟨?_, fun hF => hF.elim⟩
  rw [if_neg (by simp), wp_bind]
  obtain ⟨ib1, h1, hib1, hsame, -⟩ := (h.work (· = s.ino r)).align (h.agree r hr)
  have hbyte1 : ∀ off, off < L.maxBytes → L.byte ib1 (L.vol s) (s.ino r) off = L.content s (s.ino r) off :=
    fun off hoff => byte_congr hsame hoff
  by_cases hle : stop ≤ pos
  · -- nothing to write
    rw [Nat.sub_eq_zero_of_le hle, writeFrom, wp_pure]
    refine wp_weaken (writeTail_run h1 hr rfl fun _ hd => hd.elim) ?_
    rintro a s' hw c hc
    obtain ⟨rfl, h2, hsync, hsaved⟩ := hw c hc
    refine ⟨rfl, wrote_of_work h2 hr hsync.steady hsync.size hsync.i_size hsync.mode (fun _ off hoff => ?_)
      fun hlt => absurd hlt (Nat.not_lt.2 hle), s, .inl ⟨hle, rfl⟩, hsaved⟩
    rw [if_neg (by omega), ← hbyte1 off hoff, Layout.byte, Layout.blk, hsync.data]
    rfl
  have hw := (wp_world_false _ _ _).1 (writeFrom_run h1.valid h1.owns (h1.live r hr) hib1 pos buf stop (stop - pos) pos le_rfl (by omega))
  refine (wp_world_false _ _ _).2 ?_
  generalize hrun : (writeFrom L.fs r pos buf stop (stop - pos) pos).run serve s = res at hw
  obtain ⟨_ | _, s₂⟩ := res
  · simp
  obtain ⟨ib2, hw⟩ := hw rfl
  obtain ⟨h2, hst2⟩ := h1.touch hr rfl hw.toTouches
  have hobj2 : s₂.inodes r = (s.inodes r).setBlocks (ib2 (s.ino r)) := by rw [hw.inodes, update_self]
  rw [if_neg (by simp)]
  refine wp_weaken (writeTail_run h2 hr (by rw [hst2.ino]) fun m hd => ⟨?_, by omega⟩) ?_
  · rw [hst2.ino]
    exact hd.resolve_left id
  rintro a s' hw' c hc
  obtain ⟨rfl, h3, hsync, hsaved⟩ := hw' c hc
  rw [show (s₂.inodes r).size = (s.inodes r).size by rw [hobj2]; rfl] at hsaved
  refine ⟨rfl, wrote_of_work h3 hr (hst2.trans hsync.steady) ?_ ?_ ?_ (fun hstop off hoff => ?_) hw.limit,
    s₂, .inr ⟨Nat.not_le.1 hle, rfl⟩, hsaved⟩
  · rw [hsync.size, hobj2]; rfl
  · rw [hsync.i_size, hobj2]; rfl
  · rw [hsync.mode, hobj2]; rfl
  · rw [Layout.byte, Layout.blk, hsync.data]
    refine (hw.byte hstop off hoff).trans ?_
    rw [hbyte1 off hoff]

theorem writeData_saved {pos count c : Nat} {buf : Bytes} (hr : r ∈ held)
    (hrun : (writeData L.fs r pos buf count).run serve s = (some c, s')) :
    (pos < u64 (pos + count) ∨ (s.inodes r).size < u64 (pos + count) → L.Stored s' r) ∧
      (¬(pos < u64 (pos + count) ∨ (s.inodes r).size < u64 (pos + count)) → L.vol s' = L.vol s) := by
  obtain ⟨-, -, s2, hs2, -, h1, h2⟩ := run_of_wp (writeData_run h hr pos buf count) hrun c rfl
  refine ⟨h1, fun hno => (h2 hno).trans ?_⟩
  rw [(hs2.resolve_right fun hlt => hno (.inl hlt.1)).2]

theorem write_run {f pos : Nat} (hf : s.files f = ⟨r, pos⟩) (hr : r ∈ held) (buf : Bytes) (count : Nat) :
    wp (world False) (write L.fs f buf count) (fun a s' => ∀ c, a = some c → c = 0 ∧ s' = s ∨
        0 < c ∧ c < 2 ^ 32 ∧ L.Wrote cnt held s r pos (u64 (pos + c)) buf s') s := by
  unfold write
  rw [wp_bind, wp_fileAt, hf, wp_bind, wp_inodeAt]
  by_cases hreg : ifmt (s.inodes r).mode ≠ S_IFREG
  · rw [if_pos hreg, wp_pure]
    rintro c ⟨⟩
  rw [if_neg hreg]
  by_cases h0 : count = 0
  · rw [if_pos h0, wp_pure]
    rintro c ⟨⟩
    exact .inl ⟨rfl, rfl⟩
  rw [if_neg h0]
  refine wp_then (writeData_run h hr pos buf _) fun a s1 hw => ?_
  cases a with
  | none =>
    rw [wp_pure]
    rintro c ⟨⟩
  | some c =>
    obtain ⟨hc, hw, -⟩ := hw c rfl
    dsimp only
    rw [wp_bind, wp_cacheFlush]
    refine ⟨?_, fun hF => hF.elim⟩
    rw [wp_pure]
    rintro c ⟨⟩
    rw [hc]
    refine .inr ⟨?_, ?_, hw⟩
    · split_ifs <;> omega
    · split_ifs <;> omega

omit h in
def Layout.slice (L : Layout) (s : St) (n pos m : Nat) : List UInt8 :=
  (List.range m).map fun j => L.content s n (pos + j)

theorem readData_slice (hr : r ∈ held) (hsize : (s.inodes r).size ≤ L.maxBytes) (pos count : Nat) :
    wp (world False) (readData L.fs r pos count)
      (fun a s' => s' = s ∧ a = some (L.slice s (s.ino r) pos (min count ((s.inodes r).size - pos)))) s := by
  obtain ⟨ib1, h1, hib1, hsame, -⟩ := (h.work (· = s.ino r)).align (h.agree r hr)
  refine wp_weaken (readData_run (h1.owns.dataPtrs (h1.live r hr)) hib1 pos count hsize) ?_
  rintro a s' ⟨rfl, rfl⟩
  refine ⟨rfl, congrArg some (map_congr_left fun j hj => byte_congr hsame ?_)⟩
  have := mem_range.1 hj
  omega

end

/-! ## Truncating -/

/-- The block that logical block `l` of inode `n` is mapped to, 0 for a hole. -/
def Layout.pointer (L : Layout) (s : St) (n l : Nat) : Nat := ptr (L.vol s).blocks (L.vol s).data (L.slotOf n l)

theorem Owns.nodup_range {v : Vol} {live : Nat → Prop} (h : Owns L live ib v) (hn : live n) {l m : Nat}
    (hmax : m = 0 ∨ l + m ≤ L.maxBlocks) :
    (((List.range' l m).map fun j => ptr ib v.data (L.slotOf n j)).filter (· ≠ 0)).Nodup := by
  have := h.nodup_ptrs (l := (List.range' l m).map (L.slotOf n))
    (List.Nodup.map (fun a b e => (slotOf_inj e).2) nodup_range') (fun x hx => by
      obtain ⟨j, hj, rfl⟩ := mem_map.1 hx
      have := mem_range'_1.1 hj
      exact L.isSlot_slotOf hn (by omega)) fun _ _ _ => rfl
  rwa [map_map] at this

theorem Layout.Edits.synced {f : Nat → Nat} {l : List Nat} (h : L.Edits r s f (L.release (L.vol s) l) s') :
    L.Synced r (s.inodes r).size (s.inodes r).priv.i_size s s' := by
  obtain ⟨hdata, hibit, -⟩ := release_same (L := L) (v := L.vol s) l
  have hobj : s'.inodes r = (s.inodes r).setBlocks f := by rw [h.inodes, update_self]
  refine ⟨⟨funext fun r' => ?_, ?_⟩, by rw [h.vol, hdata], by rw [hobj]; rfl, by rw [hobj]; rfl, by rw [hobj]; rfl⟩
  · rw [St.ino, h.inodes, update_apply]
    split_ifs with e
    · rw [e]; rfl
    · rfl
  · unfold Vol.live
    rw [h.vol, hibit]

section

variable (h : Work L cnt held o S dirty ib s)

include h

/-- The blocks from `l` on, `m` of them, are released and the direct pointers
among them cleared; none of the others is mapped. -/
theorem cut_part_work (hr : r ∈ held) (hS : S (s.ino r)) {l m : Nat} (hmax : m = 0 ∨ l + m ≤ L.maxBlocks)
    (hno : ∀ j, 12 ≤ j → l ≤ j → j < l + m → ptr ib (L.vol s).data (L.slotOf (s.ino r) j) = 0)
    (he : L.Edits r s (cleared l (min (l + m) 12) (ib (s.ino r)))
      (L.release (L.vol s) ((List.range' l m).map fun j => ptr ib (L.vol s).data (L.slotOf (s.ino r) j))) s') :
    Work L cnt held o S (fun x => dirty x ∨ x = s.ino r)
      (Function.update ib (s.ino r) (cleared l (min (l + m) 12) (ib (s.ino r)))) s' := by
  have hlive := h.live r hr
  refine h.cut (T := fun x => x.1.1 = s.ino r ∧ x.2 = [] ∧ l ≤ x.1.2 ∧ x.1.2 < min (l + m) 12) hS (fun _ => rfl)
    (fun r' hr' e => h.distinct r' hr' r hr e) he (fun _ hx => hx.1)
    (fun x hx => ptr_cleared _ (Nat.min_le_right _ _) x hx.length) (fun b hb => ?_) fun _ => ?_
  · simp only [mem_map, mem_range'_1]
    constructor
    · rintro ⟨j, hj, rfl⟩
      have hj12 : j < 12 := by
        by_contra h12
        exact hb (hno j (by omega) hj.1 hj.2)
      refine ⟨_, L.isSlot_slotOf hlive (by omega), ?_, rfl⟩
      rw [slotOf_direct hj12]
      exact ⟨rfl, rfl, hj.1, by simp only; omega⟩
    · rintro ⟨⟨⟨n, k⟩, p⟩, hx, ⟨rfl, rfl, h1, h2⟩, rfl⟩
      have h2 : k < min (l + m) 12 := h2
      exact ⟨k, ⟨h1, by omega⟩, by rw [slotOf_direct (by omega)]⟩
  · exact h.owns.nodup_range hlive hmax

/-- All blocks of the inode are released, those of the first `m` logical blocks
a first time; the direct pointers among them are cleared in between. -/
theorem cut_all_work (hr : r ∈ held) (hS : S (s.ino r)) {m : Nat} (hmax : m ≤ L.maxBlocks)
    (hno : cnt → ∀ j, 12 ≤ j → j < m → ptr ib (L.vol s).data (L.slotOf (s.ino r) j) = 0) {ib₁ : Nat → Nat → Nat}
    (hib₁ : ib₁ = Function.update ib (s.ino r) (cleared 0 (min m 12) (ib (s.ino r)))) {f : Nat → Nat}
    (he : L.Edits r s (cleared 0 14 f)
      (L.release (L.vol s) (((List.range' 0 m).map fun j => ptr ib (L.vol s).data (L.slotOf (s.ino r) j)) ++
        (L.slots (s.ino r)).map (ptr ib₁ (L.vol s).data))) s') :
    Work L cnt held o S (fun x => dirty x ∨ x = s.ino r) (Function.update ib (s.ino r) (cleared 0 14 f)) s' := by
  have hlive := h.live r hr
  have hptr : ∀ x : Slot, x.2.length ≤ depth x.1.2 → ptr ib₁ (L.vol s).data x =
      if x.1.1 = s.ino r ∧ x.2 = [] ∧ 0 ≤ x.1.2 ∧ x.1.2 < min m 12 then 0 else ptr ib (L.vol s).data x := by
    rw [hib₁]
    exact ptr_cleared _ (Nat.min_le_right _ _)
  refine h.cut (T := fun x => x.1.1 = s.ino r) hS (fun _ => rfl)
    (fun r' hr' e => h.distinct r' hr' r hr e) he (fun _ hx => hx) (fun x hx => ptr_dropped _ _ hx)
    (fun b hb => ?_) fun hc => ?_
  · simp only [mem_append, mem_map, mem_range'_1]
    constructor
    · rintro (⟨j, hj, rfl⟩ | ⟨x, hx, rfl⟩)
      · exact ⟨_, L.isSlot_slotOf hlive (by omega), L.slotOf_ino _ _, rfl⟩
      · have hx' := isSlot_of_mem_slots hlive hx
        rw [hptr x hx'.length] at hb ⊢
        split_ifs at hb ⊢ with e
        · exact absurd rfl hb
        · exact ⟨x, hx', (mem_slots.1 hx).live, rfl⟩
    · rintro ⟨x, hx, e, rfl⟩
      by_cases hd : x.1.1 = s.ino r ∧ x.2 = [] ∧ 0 ≤ x.1.2 ∧ x.1.2 < min m 12
      · obtain ⟨⟨n, k⟩, p⟩ := x
        obtain ⟨rfl, rfl, -, hk⟩ := hd
        have hk : k < min m 12 := hk
        exact .inl ⟨k, by omega, by rw [slotOf_direct (by omega)]⟩
      · exact .inr ⟨x, mem_slots.2 ⟨e, hx.root, hx.length, hx.index⟩, by rw [hptr x hx.length, if_neg hd]⟩
  · rw [filter_append, nodup_append]
    refine ⟨h.owns.nodup_range hlive (.inr (by omega)), ?_, ?_⟩
    · -- what the second pass meets are pointers the first one left
      refine h.owns.nodup_ptrs (nodup_slots _) (fun x hx => isSlot_of_mem_slots hlive hx) fun x hx h0 => ?_
      rw [hptr x (mem_slots.1 hx).length] at h0 ⊢
      split_ifs at h0 ⊢
      · exact absurd rfl h0
      · rfl
    · intro a ha b hb e
      subst e
      simp only [mem_filter, mem_map, mem_range'_1, ne_eq, decide_eq_true_eq] at ha hb
      obtain ⟨⟨j, hj, rfl⟩, h0⟩ := ha
      obtain ⟨⟨x, hx, e⟩, -⟩ := hb
      have hx' := isSlot_of_mem_slots hlive hx
      have hj12 : j < 12 := by
        by_contra h12
        exact h0 (hno hc j (by omega) (by omega))
      rw [hptr x hx'.length] at e
      split_ifs at e with hd
      · exact h0 e.symm
      · have := h.owns.inj x _ hx' (L.isSlot_slotOf hlive (by omega)) (by rw [e]; exact h0) e
        rw [this, slotOf_direct hj12] at hd
        exact hd ⟨rfl, rfl, Nat.zero_le _, by simp only; omega⟩

omit h in
/-- The result of a successful `ext2_truncate`; a block is cut if it is among
those between the new and the old end, and all of them if none is kept. -/
structure Layout.Truncated (L : Layout) (cnt : Prop) (held : List Nat) (s : St) (r m : Nat) (s' : St) :
    Prop where
  mounted : Mounted L cnt held s'
  spares : L.Spares held (· = s.ino r) s (L.vol s').blocks s'
  steady : L.Steady s s'
  size : (s'.inodes r).size = m
  i_size : (s'.inodes r).priv.i_size = u32 m
  mode : (s'.inodes r).mode = (s.inodes r).mode
  pointer : ∀ l, l < L.maxBlocks → L.pointer s' (s.ino r) l =
    if newBlocks L.fs m < blocksOf L.fs (s.inodes r).priv.i_size ∧ newBlocks L.fs m ≤ l ∧
      (l < blocksOf L.fs (s.inodes r).priv.i_size ∨ newBlocks L.fs m = 0)
    then 0 else L.pointer s (s.ino r) l
  data : (L.vol s').data = (L.vol s).data

theorem truncateTail_run {size : Nat} (hr : r ∈ held) (hS : S (s.ino r)) (hd : ∀ m, dirty m → m = s.ino r) :
    wp (world False) (truncateTail L.fs r size)
      (fun _ s' => Work L cnt held o S (fun _ => False) ib s' ∧ L.Synced r size (u32 size) s s') s := by
  simp only [truncateTail, wp_bind]
  refine wp_now_of _ fun mtime => wp_now_of _ fun ctime => ?_
  obtain ⟨h1, hst1⟩ := h.modify (r := r) (f := fun i =>
    { i with size := size, priv := { i.priv with i_size := u32 size, i_mtime := mtime, i_ctime := ctime } })
    hS fun _ => ⟨rfl, rfl⟩
  have hs1 : L.Synced r size (u32 size) s (s.modify r fun i =>
    { i with size := size, priv := { i.priv with i_size := u32 size, i_mtime := mtime, i_ctime := ctime } }) :=
    .modify (fun _ => ⟨rfl, rfl⟩) rfl rfl
  rw [wp_update]
  have key := sync_run (e := false) (k := do let _ ← cacheFlush; return true)
    (Q := fun _ s' => Work L cnt held o S (fun _ => False) ib s' ∧ L.Synced r size (u32 size) s s') h1 hr
    (by rw [hst1.ino]; exact hS) (fun m hm => by rw [hst1.ino]; exact hd m hm) fun s2 h2 hs2 _ => by
      simp only [wp_bind, wp_cacheFlush, wp_pure, false_imp_iff, and_true]
      rw [hs1.size, hs1.i_size] at hs2
      exact ⟨h2, hs1.trans hs2⟩
  simpa only [wp_bind] using key

end

theorem truncate_run (h : Mounted L cnt held s) (hr : r ∈ held) (size : Nat)
    (hok : newBlocks L.fs size = 0 ∨ ∀ l, 12 ≤ l → newBlocks L.fs size ≤ l →
      l < blocksOf L.fs (s.inodes r).priv.i_size → l < L.maxBlocks → L.pointer s (s.ino r) l = 0)
    (hc : cnt → ∀ l, 12 ≤ l → newBlocks L.fs size ≤ l → l < blocksOf L.fs (s.inodes r).priv.i_size →
      l < L.maxBlocks → L.pointer s (s.ino r) l = 0) :
    wp (world False) (truncate L.fs r size) (fun a s' => a = true → L.Truncated cnt held s r size s') s := by
  obtain ⟨ib1, h₁, hib1, hsame, -⟩ := (h.work (· = s.ino r)).align (h.agree r hr)
  have hlive := h₁.live r hr
  have hptr : ∀ l, l < L.maxBlocks → ptr ib1 (L.vol s).data (L.slotOf (s.ino r) l) = L.pointer s (s.ino r) l :=
    fun l hl => @ptr_congr L (· = s.ino r) _ _ _ _ (fun m k hm hk => by rw [hm]; exact hsame k hk)
      (fun _ _ _ _ => rfl) _ (L.isSlot_self _ hl)
  set old := blocksOf L.fs (s.inodes r).priv.i_size with hold
  set new := newBlocks L.fs size with hnew
  -- what is left once blocks were cut and the object's pointers are `ib2`
  have finish : ∀ ib2 s2, Work L cnt held s (· = s.ino r) (fun m => False ∨ m = s.ino r) ib2 s2 → L.Steady s s2 →
      (L.vol s2).data = (L.vol s).data → (s2.inodes r).mode = (s.inodes r).mode →
      (∀ l, l < L.maxBlocks → ptr ib2 (L.vol s).data (L.slotOf (s.ino r) l) =
        if new < old ∧ new ≤ l ∧ (l < old ∨ new = 0) then 0 else L.pointer s (s.ino r) l) →
      wp (world False) (truncateTail L.fs r size) (fun a s' => a = true → L.Truncated cnt held s r size s') s2 := by
    intro ib2 s2 h₂ hst hdata hmode hptr2
    refine wp_weaken (truncateTail_run h₂ hr (by rw [hst.ino]) fun m hm => by
      rw [hst.ino]; exact hm.resolve_left id) ?_
    rintro _ s3 ⟨h3, hs3⟩ -
    have hst3 := hst.trans hs3.steady
    have hdata3 := hs3.data.trans hdata
    obtain ⟨hm, hsp⟩ := h3.mounted fun _ => id
    refine ⟨hm, hsp, hst3, hs3.size, hs3.i_size, hs3.mode.trans hmode, fun l hl => ?_, hdata3⟩
    rw [← hptr2 l hl, Layout.pointer, hdata3]
    refine @ptr_congr L (· = s.ino r) _ _ _ _ (fun m k hm hk => ?_) (fun _ _ _ _ => rfl) _ (L.isSlot_self _ hl)
    have hlive3 := h3.live r hr
    rw [hst3.ino] at hlive3
    rw [hm]
    exact h3.saved _ k hlive3 id hk
  unfold truncate
  rw [wp_bind, wp_inodeAt]
  split_ifs
  · simp
  rw [wp_bind, wp_inodeAt]
  dsimp only
  rw [← hold, ← hnew]
  by_cases hlt : new < old
  swap
  · -- the file does not get shorter by a block
    rw [if_neg hlt]
    refine finish ib1 s (h₁.dirty_mono fun _ => False.elim) ⟨rfl, rfl⟩ rfl rfl fun l hl => ?_
    rw [if_neg (fun e => hlt e.1), hptr l hl]
  rw [if_pos hlt]
  refine wp_then (truncateFrom_run h₁.valid (h₁.owns.dataPtrs hlive) hib1 (old - new) new) ?_
  rintro (_ | _) s2 h₂
  · simp
  obtain ⟨hmax, he⟩ := h₂ rfl
  rw [if_neg (by simp)]
  have hmax : old ≤ L.maxBlocks := by omega
  by_cases h0 : new = 0
  · -- nothing is kept: the blocks are visited a second time
    rw [if_pos h0, wp_bind]
    rw [h0, Nat.zero_add, Nat.sub_zero] at he
    set ib2 := Function.update ib1 (s.ino r) (cleared 0 (min old 12) (ib1 (s.ino r))) with hib2
    have hs := he.synced
    have hd2 : DataPtrs L (s.ino r) ib2 (L.vol s2).data := by
      intro x hx hx0
      rw [hs.data, hib2, ptr_cleared _ (Nat.min_le_right _ _) x hx.length] at hx0 ⊢
      split_ifs at hx0 ⊢
      · exact absurd rfl hx0
      · exact h₁.owns.dataPtrs hlive x hx hx0
    refine wp_weaken (freeAllBlocks_run he.valid hd2 (by rw [he.i_block, hib2, update_self])) ?_
    rintro _ s3 ⟨-, he3⟩
    have he3 := he.trans he3
    rw [he.vol, release_data, ← release_append] at he3
    have hs3 := he3.synced
    refine finish _ s3 (cut_all_work h₁ hr rfl hmax (fun hcnt j h1 h2 => ?_) hib2 he3) hs3.steady hs3.data hs3.mode
      fun l hl => ?_
    · rw [hptr j (by omega)]
      exact hc hcnt j h1 (by omega) h2 (by omega)
    · rw [ptr_dropped _ _ (L.isSlot_self _ hl), if_pos (L.slotOf_ino _ _), if_pos ⟨hlt, by omega, .inr h0⟩]
  · rw [if_neg h0]
    have hno : ∀ j, 12 ≤ j → new ≤ j → j < new + (old - new) →
        ptr ib1 (L.vol s).data (L.slotOf (s.ino r) j) = 0 := fun j h12 h1 h2 => by
      rw [hptr j (by omega)]
      exact hok.resolve_left h0 j h12 h1 (by omega) (by omega)
    have hs := he.synced
    refine finish _ s2 (cut_part_work h₁ hr rfl (.inr (by omega)) hno he) hs.steady hs.data hs.mode fun l hl => ?_
    rw [ptr_cleared_slotOf _ (Nat.min_le_right _ _) hl, hptr l hl]
    by_cases hcut : new ≤ l ∧ l < old
    · have hif : new < old ∧ new ≤ l ∧ (l < old ∨ new = 0) := ⟨hlt, hcut.1, .inl hcut.2⟩
      rw [if_pos hif]
      by_cases h12 : l < 12
      · rw [if_pos (by omega)]
      · rw [← hptr l hl, hno l (by omega) hcut.1 (by omega), ite_self]
    · rw [if_neg (by omega), if_neg (by omega)]

end Contents

end Ext2
