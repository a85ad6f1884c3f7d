import Loeux.Ext2.DirMap
/-!
# A mounted volume between and during calls

`Mounted` is what holds between two calls: the volume is consistent and the
inode objects in memory agree with their records. `Work` is what holds inside a
call that started in state `o`: some records may be behind (`dirty`), and the
files outside `S` are as they were.
-/
open Lib Function List Nat

namespace Ext2

open Layout

def St.ino (s : St) (r : Nat) : Nat := (s.inodes r).priv.ino

namespace St

variable (s : St) (i : Inode)

theorem create_new : (s.create i).inodes s.next = i := update_self ..

theorem create_old {r : Nat} (hr : r < s.next) : (s.create i).inodes r = s.inodes r :=
  update_of_ne (Nat.ne_of_lt hr) _ _

theorem ino_create_new : (s.create i).ino s.next = i.priv.ino := by rw [ino, create_new]

theorem ino_create_old {r : Nat} (hr : r < s.next) : (s.create i).ino r = s.ino r := by
  rw [ino, create_old s i hr]; rfl

end St

structure Mounted (L : Layout) (cnt : Prop) (held : List Nat) (s : St) : Prop where
  valid : L.Valid s
  owns : Owns L (L.vol s).live (L.vol s).blocks (L.vol s)
  counted : cnt → L.Counted (L.vol s)
  fresh : ∀ r ∈ held, r < s.next
  live : ∀ r ∈ held, (L.vol s).live (s.ino r)
  agree : ∀ r ∈ held, ∀ k, k ≤ EXT2_DIND_BLOCK → (s.inodes r).priv.i_block k = (L.vol s).blocks (s.ino r) k
  distinct : ∀ r ∈ held, ∀ r' ∈ held, s.ino r = s.ino r' → r = r'

/-- The files outside `S` that were live in `o` have the same contents, and their
objects are the same. -/
structure Layout.Spares (L : Layout) (held : List Nat) (S : Nat → Prop) (o : St) (ib : Nat → Nat → Nat)
    (s : St) : Prop where
  live : ∀ m, (L.vol o).live m → ¬S m → (L.vol s).live m
  block : ∀ m x, (L.vol o).live m → ¬S m → L.IsSlot (· = m) x → Leaf x →
    block ib (L.vol s).data x = block (L.vol o).blocks (L.vol o).data x
  inodes : ∀ r ∈ held, ¬S (s.ino r) → s.inodes r = o.inodes r
  pointer : ∀ m x, (L.vol o).live m → ¬S m → L.IsSlot (· = m) x →
    ptr ib (L.vol s).data x = ptr (L.vol o).blocks (L.vol o).data x
  record : ∀ m, (L.vol o).live m → ¬S m → (L.vol s).inode m = (L.vol o).inode m
  next : o.next ≤ s.next
  ino : ∀ r ∈ held, r < o.next → s.ino r = o.ino r

structure Work (L : Layout) (cnt : Prop) (held : List Nat) (o : St) (S dirty : Nat → Prop)
    (ib : Nat → Nat → Nat) (s : St) : Prop where
  valid : L.Valid s
  owns : Owns L (L.vol s).live ib (L.vol s)
  counted : cnt → L.Counted (L.vol s)
  saved : ∀ m k, (L.vol s).live m → ¬dirty m → k ≤ EXT2_DIND_BLOCK → (L.vol s).blocks m k = ib m k
  fresh : ∀ r ∈ held, r < s.next
  live : ∀ r ∈ held, (L.vol s).live (s.ino r)
  agree : ∀ r ∈ held, ∀ k, k ≤ EXT2_DIND_BLOCK → (s.inodes r).priv.i_block k = ib (s.ino r) k
  distinct : ∀ r ∈ held, ∀ r' ∈ held, s.ino r = s.ino r' → r = r'
  spares : L.Spares held S o ib s

section Work

variable {L : Layout} {cnt : Prop} {held held' : List Nat} {o s s' : St} {S dirty dirty' : Nat → Prop}
  {ib ib' : Nat → Nat → Nat} {n r : Nat}

/-! ## Beginning and end of a call -/

theorem Mounted.work (h : Mounted L cnt held s) (S : Nat → Prop) :
    Work L cnt held s S (fun _ => False) (L.vol s).blocks s :=
  ⟨h.valid, h.owns, h.counted, fun _ _ _ _ _ => rfl, h.fresh, h.live, h.agree, h.distinct,
    ⟨fun _ hm _ => hm, fun _ _ _ _ _ _ => rfl, fun _ _ _ => rfl, fun _ _ _ _ _ => rfl, fun _ _ _ => rfl, le_rfl,
      fun _ _ _ => rfl⟩⟩

variable (h : Work L cnt held o S dirty ib s)

include h

theorem Work.congr_ib (hib : ∀ m k, (L.vol s).live m → k ≤ EXT2_DIND_BLOCK → ib' m k = ib m k) :
    Work L cnt held o S dirty ib' s where
  valid := h.valid
  owns := h.owns.congr hib rfl rfl
  counted := h.counted
  saved m k hm hd hk := by rw [hib m k hm hk, h.saved m k hm hd hk]
  fresh := h.fresh
  live := h.live
  agree r hr k hk := by rw [hib _ k (h.live r hr) hk, h.agree r hr k hk]
  distinct := h.distinct
  spares := by
    have hptr : ∀ m x, (L.vol o).live m → ¬S m → L.IsSlot (· = m) x →
        ptr ib' (L.vol s).data x = ptr ib (L.vol s).data x := fun m x hm hS hx =>
      ptr_congr hib (fun _ _ _ _ => rfl) ⟨hx.live ▸ h.spares.live m hm hS, hx.root, hx.length, hx.index⟩
    refine ⟨h.spares.live, fun m x hm hS hx hl => ?_, h.spares.inodes, fun m x hm hS hx => ?_, h.spares.record,
      h.spares.next, h.spares.ino⟩
    · rw [block, hptr m x hm hS hx]
      exact h.spares.block m x hm hS hx hl
    · rw [hptr m x hm hS hx]
      exact h.spares.pointer m x hm hS hx

theorem Work.mounted (hd : ∀ m, ¬dirty m) : Mounted L cnt held s ∧ L.Spares held S o (L.vol s).blocks s := by
  have h' : Work L cnt held o S dirty (L.vol s).blocks s :=
    h.congr_ib fun m k hm hk => h.saved m k hm (hd m) hk
  exact ⟨⟨h'.valid, h'.owns, h'.counted, h'.fresh, h'.live, h'.agree, h'.distinct⟩, h'.spares⟩

theorem Work.rebase {S' : Nat → Prop} (hS : ∀ m, dirty m → S' m) : Work L cnt held s S' dirty ib s := by
  have hptr : ∀ m x, (L.vol s).live m → ¬S' m → L.IsSlot (· = m) x →
      ptr ib (L.vol s).data x = ptr (L.vol s).blocks (L.vol s).data x := fun m x hm hSm hx =>
    @ptr_congr L (· = m) _ _ _ _ (fun m' k hm' hk => by
      rw [show m' = m from hm']
      exact (h.saved m k hm (fun hd => hSm (hS m hd)) hk).symm) (fun _ _ _ _ => rfl) _ hx
  refine { h with spares := ⟨fun _ hm _ => hm, fun m x hm hSm hx _ => ?_, fun _ _ _ => rfl, hptr, fun _ _ _ => rfl, le_rfl,
    fun _ _ _ => rfl⟩ }
  unfold block
  rw [hptr m x hm hSm hx]

theorem Work.align (hk : ∀ k, k ≤ EXT2_DIND_BLOCK → (s.inodes r).priv.i_block k = ib n k) :
    ∃ ib', Work L cnt held o S dirty ib' s ∧ (s.inodes r).priv.i_block = ib' n ∧
      (∀ k, k ≤ EXT2_DIND_BLOCK → ib' n k = ib n k) ∧ ∀ m, m ≠ n → ib' m = ib m := by
  have hn : ∀ k, k ≤ EXT2_DIND_BLOCK → Function.update ib n (s.inodes r).priv.i_block n k = ib n k := by
    intro k hk'
    rw [update_self, hk k hk']
  have hm : ∀ m, m ≠ n → Function.update ib n (s.inodes r).priv.i_block m = ib m := fun m hm =>
    update_of_ne hm _ _
  refine ⟨_, h.congr_ib fun m k _ hk => ?_, by rw [update_self], hn, hm⟩
  by_cases e : m = n
  · rw [e, hn k hk]
  · rw [hm m e]

theorem Work.dirty_mono (hd : ∀ m, dirty m → dirty' m) : Work L cnt held o S dirty' ib s :=
  { h with saved := fun m k hm hd' hk => h.saved m k hm (fun e => hd' (hd m e)) hk }

omit h in
theorem Layout.Spares.forget (h : L.Spares held S o ib s) (hsub : ∀ r ∈ held', r ∈ held) : L.Spares held' S o ib s :=
  { h with
    inodes := fun r hr => h.inodes r (hsub r hr)
    ino := fun r hr => h.ino r (hsub r hr) }

theorem Work.forget (hsub : ∀ r ∈ held', r ∈ held) : Work L cnt held' o S dirty ib s :=
  { h with
    fresh := fun r hr => h.fresh r (hsub r hr)
    live := fun r hr => h.live r (hsub r hr)
    agree := fun r hr => h.agree r (hsub r hr)
    distinct := fun r hr r' hr' => h.distinct r (hsub r hr) r' (hsub r' hr')
    spares := h.spares.forget hsub }

/-! ## Steps of a call -/

omit h in
structure Layout.Steady (L : Layout) (s s' : St) : Prop where
  ino : s'.ino = s.ino
  live : (L.vol s').live = (L.vol s).live

omit h in
theorem Layout.Steady.trans {s'' : St} (h : L.Steady s s') (h' : L.Steady s' s'') : L.Steady s s'' :=
  ⟨h'.ino.trans h.ino, h'.live.trans h.live⟩

omit h in
theorem Layout.steady_modify {f : Inode → Inode} (hf : ∀ i, (f i).priv.ino = i.priv.ino) :
    L.Steady s (s.modify r f) := by
  refine ⟨funext fun r' => ?_, rfl⟩
  show (Function.update s.inodes r (f (s.inodes r)) r').priv.ino = _
  rw [update_apply]
  split_ifs with e
  · rw [hf, e]; rfl
  · rfl

omit h in
theorem Layout.steady_stored (hv : L.Valid s) (hn : L.IsIno n) (di : Bytes) : L.Steady s (L.stored s n di) :=
  ⟨rfl, by unfold Vol.live; rw [(L.upd_stored hv hn di).vol]⟩

theorem Work.ghost (hg : Ghost s s') : Work L cnt held o S dirty ib s' ∧ L.Steady s s' := by
  obtain ⟨hd, hi, hn, -, hb, hf, -⟩ := hg
  cases s; cases s'
  subst hd hi hn hb hf
  exact ⟨⟨h.valid.congr rfl, h.owns, h.counted, h.saved, h.fresh, h.live, h.agree, h.distinct,
    ⟨h.spares.live, h.spares.block, h.spares.inodes, h.spares.pointer, h.spares.record, h.spares.next,
      h.spares.ino⟩⟩, rfl, rfl⟩

theorem Work.touch (hr : r ∈ held) (hS : S (s.ino r)) (ht : L.Touches (L.vol s).live (s.ino r) r ib s ib' s') :
    Work L cnt held o S (fun m => dirty m ∨ m = s.ino r) ib' s' ∧ L.Steady s s' := by
  have hlive : (L.vol s').live = (L.vol s).live := by
    unfold Vol.live
    rw [ht.touched.ibit]
  have hino : ∀ r', s'.ino r' = s.ino r' := by
    intro r'
    by_cases e : r' = r
    · subst e; exact ht.ino
    · rw [St.ino, ht.others r' e]; rfl
  have happart : ∀ m x, (L.vol o).live m → ¬S m → L.IsSlot (· = m) x → L.IsSlot (L.vol s).live x ∧ x.1.1 ≠ s.ino r := by
    intro m x hm hSm hx
    refine ⟨⟨hx.live ▸ h.spares.live m hm hSm, hx.root, hx.length, hx.index⟩, ?_⟩
    rw [hx.live]
    rintro rfl
    exact hSm hS
  refine ⟨⟨ht.valid, hlive ▸ ht.touched.owns, fun hc => ht.touched.counted (h.counted hc), ?_, ?_, ?_, ?_, ?_,
    ⟨?_, ?_, ?_, ?_, ?_, ?_, ?_⟩⟩, ⟨funext hino, hlive⟩⟩
  · intro m k hm hd hk
    rw [hlive] at hm
    have hmn : m ≠ s.ino r := fun e => hd (.inr e)
    rw [Vol.blocks, ht.touched.inode, ht.touched.others m hmn]
    exact h.saved m k hm (fun e => hd (.inl e)) hk
  · intro r' hr'
    rw [ht.next]
    exact h.fresh r' hr'
  · intro r' hr'
    rw [hlive, hino]
    exact h.live r' hr'
  · intro r' hr' k hk
    rw [hino]
    by_cases e : r' = r
    · subst e
      rw [ht.i_block]
    · rw [ht.others r' e, ht.touched.others _ fun e' => e (h.distinct r' hr' r hr e')]
      exact h.agree r' hr' k hk
  · intro r1 h1 r2 h2 e
    rw [hino, hino] at e
    exact h.distinct r1 h1 r2 h2 e
  · intro m hm hSm
    rw [hlive]
    exact h.spares.live m hm hSm
  · intro m x hm hSm hx hl
    obtain ⟨hx', hmn⟩ := happart m x hm hSm hx
    rw [ht.touched.block_apart x hx' hl hmn]
    exact h.spares.block m x hm hSm hx hl
  · intro r' hr' hSr
    rw [hino] at hSr
    have e : r' ≠ r := by
      rintro rfl
      exact hSr hS
    rw [ht.others r' e]
    exact h.spares.inodes r' hr' hSr
  · intro m x hm hSm hx
    obtain ⟨hx', hmn⟩ := happart m x hm hSm hx
    rw [ht.touched.apart x hx' hmn]
    exact h.spares.pointer m x hm hSm hx
  · intro m hm hSm
    rw [ht.touched.inode]
    exact h.spares.record m hm hSm
  · rw [ht.next]
    exact h.spares.next
  · intro r' hr' hlt
    rw [hino]
    exact h.spares.ino r' hr' hlt

theorem Work.overwrite (hr : r ∈ held) (hS : S (s.ino r))
    (hib : ∀ m k, (L.vol s).live m → k ≤ EXT2_DIND_BLOCK → ib m k = ib' m k)
    (ht : L.Touches (L.vol s).live (s.ino r) r ib' s ib' s') :
    Work L cnt held o S dirty ib s' ∧ L.Steady s s' := by
  obtain ⟨hw, hst⟩ := (h.congr_ib fun m k hm hk => (hib m k hm hk).symm).touch hr hS ht
  rw [← hst.live] at hib
  refine ⟨{ hw.congr_ib hib with saved := fun m k hm hd hk => ?_ }, hst⟩
  rw [Vol.blocks, ht.touched.inode]
  exact h.saved m k (hst.live ▸ hm) hd hk

theorem Work.modify (hS : S (s.ino r)) {f : Inode → Inode}
    (hf : ∀ i, (f i).priv.ino = i.priv.ino ∧ (f i).priv.i_block = i.priv.i_block) :
    Work L cnt held o S dirty ib (s.modify r f) ∧ L.Steady s (s.modify r f) := by
  have hst : L.Steady s (s.modify r f) := steady_modify fun i => (hf i).1
  have hobj : ∀ r', (s.modify r f).inodes r' = if r' = r then f (s.inodes r) else s.inodes r' := by
    intro r'
    exact update_apply ..
  have hino : ∀ r', (s.modify r f).ino r' = s.ino r' := congrFun hst.ino
  refine ⟨⟨h.valid.congr rfl, h.owns, h.counted, h.saved, h.fresh, ?_, ?_, ?_,
    ⟨h.spares.live, h.spares.block, ?_, h.spares.pointer, h.spares.record, h.spares.next, fun r' hr' hlt => ?_⟩⟩, hst⟩
  · intro r' hr'
    rw [hino]
    exact h.live r' hr'
  · intro r' hr' k hk
    rw [hino, hobj]
    split_ifs with e
    · rw [(hf _).2, e]
      exact h.agree r (e ▸ hr') k hk
    · exact h.agree r' hr' k hk
  · intro r1 h1 r2 h2 e
    rw [hino, hino] at e
    exact h.distinct r1 h1 r2 h2 e
  · intro r' hr' hSr
    rw [hino] at hSr
    rw [hobj, if_neg]
    · exact h.spares.inodes r' hr' hSr
    · rintro rfl
      exact hSr hS
  · rw [hino]
    exact h.spares.ino r' hr' hlt

theorem Work.stored (hn : L.IsIno n) (hS : (L.vol o).live n → S n) (di : Bytes)
    (hdi : (L.vol s).live n → ¬dirty' n → ∀ k, k ≤ EXT2_DIND_BLOCK → Di.i_block (di.slice 128 0) k = ib n k)
    (hd : ∀ m, m ≠ n → dirty m → dirty' m) :
    Work L cnt held o S dirty' ib (L.stored s n di) := by
  have hupd := L.upd_stored h.valid hn di
  have hlive := (steady_stored h.valid hn di).live
  have hdata : (L.vol (L.stored s n di)).data = (L.vol s).data := by rw [hupd.vol]
  refine ⟨hupd.valid, ?_, ?_, ?_, h.fresh, ?_, h.agree, h.distinct,
    ⟨?_, ?_, h.spares.inodes, ?_, ?_, h.spares.next, h.spares.ino⟩⟩
  · rw [hlive]
    exact h.owns.congr (fun _ _ _ _ => rfl) (by rw [hupd.vol]) hdata
  · intro hc
    exact (h.counted hc).congr (by rw [hupd.vol]) (by rw [hupd.vol]) (by rw [hupd.vol]) (by rw [hupd.vol])
      (by rw [hupd.vol]) (by rw [hupd.vol])
  · intro m k hm hdm hk
    rw [hlive] at hm
    rw [Vol.blocks, hupd.vol]
    by_cases e : m = n
    · subst e
      simp only [update_self]
      exact hdi hm hdm k hk
    · simp only [update_of_ne e]
      exact h.saved m k hm (fun hd' => hdm (hd m e hd')) hk
  · intro r' hr'
    rw [hlive]
    exact h.live r' hr'
  · rw [hlive]
    exact h.spares.live
  · intro m x hm hSm hx hl
    rw [hdata]
    exact h.spares.block m x hm hSm hx hl
  · intro m x hm hSm hx
    rw [hdata]
    exact h.spares.pointer m x hm hSm hx
  · intro m hm hSm
    have e : m ≠ n := by
      rintro rfl
      exact hSm (hS hm)
    rw [hupd.vol]
    simp only [update_of_ne e]
    exact h.spares.record m hm hSm

variable {live : Nat → Prop}

omit h in
theorem Owns.ib_lt {v : Vol} (h : Owns L live ib v) (hn : live n) {k : Nat}
    (hk : k ≤ EXT2_DIND_BLOCK) : ib n k < 256 ^ 4 := by
  by_cases h0 : ib n k = 0
  · rw [h0]; decide
  · exact (h.data ((n, k), []) ⟨hn, hk, Nat.zero_le _, by simp⟩ h0).lt

theorem Work.save (hr : r ∈ held) (hS : S (s.ino r)) : Work L cnt held o S (fun m => dirty m ∧ m ≠ s.ino r) ib
      (L.stored s (s.inodes r).priv.ino (privToDisk (s.inodes r).priv)) := by
  have hlive := h.live r hr
  refine h.stored (live_isIno hlive) (fun _ => hS) _ (fun _ _ k hk => ?_) fun m hm hd => ⟨hd, hm⟩
  have hk' : k < EXT2_N_BLOCKS := Nat.lt_of_le_of_lt hk (by decide)
  rw [i_block_privToDisk _ hk', h.agree r hr k hk]
  exact mod_eq_of_lt (h.owns.ib_lt hlive hk)

/-! ## Inodes that come and go -/

theorem Work.newInode (ha : L.AllocatesInode s n s') (di : Bytes)
    (hdi : ∀ k, k ≤ EXT2_DIND_BLOCK → Di.i_block (di.slice 128 0) k = 0) :
    Work L cnt held o S dirty (Function.update ib n fun _ => 0) (L.stored s' n di) ∧
      (L.vol (L.stored s' n di)).live n ∧ (∀ r ∈ held, s.ino r ≠ n) ∧ ¬(L.vol s).live n := by
  obtain ⟨hino, hfree, hupd⟩ := ha
  have hnl : ¬(L.vol s).live n := by simp [Vol.live, hfree]
  have hlive : ∀ m, (L.vol s').live m ↔ m = n ∨ (L.vol s).live m := by
    intro m
    rw [Vol.live, hupd.vol, Vol.live]
    by_cases e : m = n
    · subst e; simp [Layout.allocInode]
    · simp [Layout.allocInode, e]
  have hsame : ∀ r, s'.inodes r = s.inodes r := fun r => by rw [hupd.same.inodes]
  have hne : ∀ r ∈ held, s.ino r ≠ n := fun r hr e => hnl (e ▸ h.live r hr)
  -- the new inode is behind until its record is stored
  have hw : Work L cnt held o S (fun m => dirty m ∨ m = n) (Function.update ib n fun _ => 0) s' := by
    have hdata : (L.vol s').data = (L.vol s).data := by rw [hupd.vol]; rfl
    have hptr : ∀ m x, (L.vol o).live m → ¬S m → L.IsSlot (· = m) x →
        ptr (Function.update ib n fun _ => 0) (L.vol s).data x = ptr ib (L.vol s).data x := by
      intro m x hm hS hx
      have hx' : L.IsSlot (L.vol s).live x := ⟨hx.live ▸ h.spares.live m hm hS, hx.root, hx.length, hx.index⟩
      refine ptr_congr (fun a b ha _ => ?_) (fun _ _ _ _ => rfl) hx'
      have e : a ≠ n := fun e => hnl (e ▸ ha)
      rw [update_of_ne e]
    refine ⟨hupd.valid, ?_, ?_, ?_, ?_, ?_, ?_, ?_, ⟨?_, ?_, ?_, ?_, ?_, ?_, ?_⟩⟩
    · refine h.owns.relive (n := n) (fun m hm => ?_) (fun m k hm _ _ => ?_) (fun hn => absurd hn hnl)
        (fun _ k _ => ?_) (by rw [hupd.vol]; rfl) hdata
      · simp [hlive, hm]
      · rw [update_of_ne hm]
      · rw [update_self]
    · intro hc
      rw [hupd.vol]
      exact (h.counted hc).allocInode hino hfree
    · intro m k hm hd hk
      have e : m ≠ n := fun e => hd (.inr e)
      rw [update_of_ne e, Vol.blocks, hupd.vol]
      exact h.saved m k (((hlive m).1 hm).resolve_left e) (fun e => hd (.inl e)) hk
    · intro r hr
      rw [hupd.same.next]
      exact h.fresh r hr
    · intro r hr
      rw [hlive, St.ino, hsame]
      exact .inr (h.live r hr)
    · intro r hr k hk
      rw [St.ino, hsame, update_of_ne (show (s.inodes r).priv.ino ≠ n from hne r hr)]
      exact h.agree r hr k hk
    · intro r1 h1 r2 h2 e
      rw [St.ino, St.ino, hsame, hsame] at e
      exact h.distinct r1 h1 r2 h2 e
    · intro m hm hS
      exact (hlive m).2 (.inr (h.spares.live m hm hS))
    · intro m x hm hS hx hl
      rw [← h.spares.block m x hm hS hx hl, block, hdata, hptr m x hm hS hx]
      rfl
    · intro r hr hS
      rw [St.ino, hsame] at hS
      rw [hsame]
      exact h.spares.inodes r hr hS
    · intro m x hm hS hx
      rw [hdata, hptr m x hm hS hx]
      exact h.spares.pointer m x hm hS hx
    · intro m hm hS
      rw [hupd.vol]
      exact h.spares.record m hm hS
    · rw [hupd.same.next]
      exact h.spares.next
    · intro r hr hlt
      rw [St.ino, hsame]
      exact h.spares.ino r hr hlt
  have hst : Work L cnt held o S dirty _ (L.stored s' n di) :=
    hw.stored hino (fun hn => by_contra fun hS => hnl (h.spares.live n hn hS)) di
      (fun _ _ k hk => by rw [hdi k hk, update_self]) fun m hm hd => hd.resolve_right hm
  refine ⟨hst, ?_, hne, hnl⟩
  rw [Vol.live, (L.upd_stored hupd.valid hino di).vol]
  exact (hlive n).2 (.inl rfl)

theorem Work.createOther (i : Inode) :
    Work L cnt held o S dirty ib (s.create i) ∧ (∀ r ∈ held, (s.create i).inodes r = s.inodes r) := by
  have hold : ∀ r ∈ held, (s.create i).inodes r = s.inodes r := fun r hr => s.create_old i (h.fresh r hr)
  have hino : ∀ r ∈ held, (s.create i).ino r = s.ino r := fun r hr => s.ino_create_old i (h.fresh r hr)
  refine ⟨⟨h.valid.congr rfl, h.owns, h.counted, h.saved, fun r hr => ?_, fun r hr => ?_,
    fun r hr k hk => ?_, fun r1 h1 r2 h2 e => ?_, ⟨h.spares.live, h.spares.block, fun r hr hSr => ?_,
      h.spares.pointer, h.spares.record, h.spares.next.trans (le_succ _), fun r hr hlt => ?_⟩⟩, hold⟩
  · exact lt_succ_of_lt (h.fresh r hr)
  · rw [hino r hr]; exact h.live r hr
  · rw [hino r hr, hold r hr]; exact h.agree r hr k hk
  · rw [hino r1 h1, hino r2 h2] at e
    exact h.distinct r1 h1 r2 h2 e
  · rw [hino r hr] at hSr
    rw [hold r hr]
    exact h.spares.inodes r hr hSr
  · rw [hino r hr]
    exact h.spares.ino r hr hlt

theorem Work.create {i : Inode} (hl : (L.vol s).live i.priv.ino) (hne : ∀ r ∈ held, s.ino r ≠ i.priv.ino)
    (hi : ∀ k, k ≤ EXT2_DIND_BLOCK → i.priv.i_block k = ib i.priv.ino k) (hS : S i.priv.ino) :
    Work L cnt (s.next :: held) o S dirty ib (s.create i) := by
  have hnew := s.create_new i
  have hinew := s.ino_create_new i
  have h' := (h.createOther i).1
  have hne : ∀ r ∈ held, (s.create i).ino r ≠ (s.create i).ino s.next := fun r hr => by
    rw [hinew, s.ino_create_old i (h.fresh r hr)]
    exact hne r hr
  refine ⟨h'.valid, h'.owns, h'.counted, h'.saved, ?_, ?_, ?_, ?_,
    ⟨h'.spares.live, h'.spares.block, ?_, h'.spares.pointer, h'.spares.record, h'.spares.next, ?_⟩⟩
  · intro r hr
    rcases mem_cons.1 hr with rfl | hr
    · exact lt_succ_self _
    · exact h'.fresh r hr
  · intro r hr
    rcases mem_cons.1 hr with rfl | hr
    · rw [hinew]; exact hl
    · exact h'.live r hr
  · intro r hr k hk
    rcases mem_cons.1 hr with rfl | hr
    · rw [hinew, hnew]; exact hi k hk
    · exact h'.agree r hr k hk
  · intro r1 h1 r2 h2 e
    rcases mem_cons.1 h1 with rfl | h1 <;> rcases mem_cons.1 h2 with rfl | h2
    · rfl
    · exact absurd e.symm (hne r2 h2)
    · exact absurd e (hne r1 h1)
    · exact h'.distinct r1 h1 r2 h2 e
  · intro r hr hSr
    rcases mem_cons.1 hr with rfl | hr
    · rw [hinew] at hSr
      exact absurd hS hSr
    · exact h'.spares.inodes r hr hSr
  · intro r hr hlt
    rcases mem_cons.1 hr with rfl | hr
    · exact absurd h.spares.next (Nat.not_le.2 hlt)
    · exact h'.spares.ino r hr hlt

theorem Work.cut {f : Nat → Nat} {l : List Nat} {T : Slot → Prop}
    [DecidablePred T] (hS : S n) (hr : r ∈ held → s.ino r = n) (hone : ∀ r' ∈ held, s.ino r' = n → r' = r)
    (he : L.Edits r s f (L.release (L.vol s) l) s') (hT : ∀ x, T x → x.1.1 = n)
    (hp : ∀ x, L.IsSlot (L.vol s).live x →
      ptr (Function.update ib n f) (L.vol s).data x = if T x then 0 else ptr ib (L.vol s).data x)
    (hl : ∀ b, b ≠ 0 → (b ∈ l ↔ ∃ x, L.IsSlot (L.vol s).live x ∧ T x ∧ ptr ib (L.vol s).data x = b))
    (hnd : cnt → (l.filter (· ≠ 0)).Nodup) :
    Work L cnt held o S (fun m => dirty m ∨ m = n) (Function.update ib n f) s' := by
  obtain ⟨hdata, hibit, hinode⟩ := release_same (L := L) (v := L.vol s) l
  rw [← he.vol] at hdata hibit hinode
  have hlive : (L.vol s').live = (L.vol s).live := by
    unfold Vol.live
    rw [hibit]
  have hobj : ∀ r', s'.inodes r' = if r' = r then (s.inodes r).setBlocks f else s.inodes r' := by
    intro r'
    rw [he.inodes, update_apply]
  have hino : ∀ r', s'.ino r' = s.ino r' := by
    intro r'
    rw [St.ino, hobj]
    split_ifs with e
    · rw [e]; rfl
    · rfl
  have hused : ∀ b, (L.vol s').used b = true ↔ (L.vol s).used b = true ∧
      ¬∃ x, L.IsSlot (L.vol s).live x ∧ T x ∧ ptr ib (L.vol s).data x = b ∧ b ≠ 0 := by
    intro b
    rw [he.vol, release_used]
    simp only [Bool.and_eq_true, Bool.not_eq_true', decide_eq_false_iff_not]
    refine and_congr_right fun _ => not_congr ?_
    constructor
    · rintro ⟨hb, h0⟩
      obtain ⟨x, hx, hTx, e⟩ := (hl b h0).1 hb
      exact ⟨x, hx, hTx, e, h0⟩
    · rintro ⟨x, hx, hTx, e, h0⟩
      exact ⟨(hl b h0).2 ⟨x, hx, hTx, e⟩, h0⟩
  have hkept : ∀ m x, (L.vol o).live m → ¬S m → L.IsSlot (· = m) x →
      ptr (Function.update ib n f) (L.vol s).data x = ptr ib (L.vol s).data x := by
    intro m x hm hSm hx
    rw [hp x ⟨hx.live ▸ h.spares.live m hm hSm, hx.root, hx.length, hx.index⟩, if_neg]
    intro hTx
    rw [hx.live.symm.trans (hT x hTx)] at hSm
    exact hSm hS
  refine ⟨he.valid, ?_, ?_, ?_, ?_, ?_, ?_, ?_, ⟨?_, ?_, ?_, ?_, ?_, ?_, ?_⟩⟩
  · rw [hlive]
    exact h.owns.shrink T (fun x hx => by rw [hdata]; exact hp x hx) hused
  · intro hc
    rw [he.vol]
    refine (h.counted hc).release (fun b hb h0 => ?_) (hnd hc)
    obtain ⟨x, hx, -, rfl⟩ := (hl b h0).1 hb
    have hd := h.owns.data x hx h0
    exact ⟨hd.1, (h.owns.used _ hd).2 ⟨x, hx, rfl⟩⟩
  · intro m k hm hd hk
    rw [hlive] at hm
    rw [Vol.blocks, hinode, update_of_ne fun e => hd (.inr e)]
    exact h.saved m k hm (fun e => hd (.inl e)) hk
  · intro r' hr'
    rw [he.next]
    exact h.fresh r' hr'
  · intro r' hr'
    rw [hlive, hino]
    exact h.live r' hr'
  · intro r' hr' k hk
    rw [hino, hobj]
    split_ifs with e
    · subst e
      rw [hr hr', update_self]
      rfl
    · rw [update_of_ne fun e' => e (hone r' hr' e')]
      exact h.agree r' hr' k hk
  · intro r1 h1 r2 h2 e
    rw [hino, hino] at e
    exact h.distinct r1 h1 r2 h2 e
  · intro m hm hSm
    rw [hlive]
    exact h.spares.live m hm hSm
  · intro m x hm hSm hx hl
    rw [← h.spares.block m x hm hSm hx hl, block, hdata, hkept m x hm hSm hx]
    rfl
  · intro r' hr' hSr
    rw [hino] at hSr
    rw [hobj, if_neg]
    · exact h.spares.inodes r' hr' hSr
    · rintro rfl
      exact hSr (hr hr' ▸ hS)
  · intro m x hm hSm hx
    rw [hdata, hkept m x hm hSm hx]
    exact h.spares.pointer m x hm hSm hx
  · intro m hm hSm
    rw [hinode]
    exact h.spares.record m hm hSm
  · rw [he.next]
    exact h.spares.next
  · intro r' hr' hlt
    rw [hino]
    exact h.spares.ino r' hr' hlt

omit h in
theorem ptr_dropped (f : Nat → Nat) (data : Nat → Bytes) {x : Slot} (hx : L.IsSlot live x) :
    ptr (Function.update ib n (cleared 0 14 f)) data x = if x.1.1 = n then 0 else ptr ib data x := by
  split_ifs with e
  · refine ptr_eq_zero (fun k hk => ?_) hx e
    have hk : k ≤ 13 := hk
    rw [update_self, cleared, if_pos (by omega)]
  · exact @ptr_congr L (· ≠ n) _ _ _ _ (fun m k hm _ => by rw [update_of_ne hm]) (fun _ _ _ _ => rfl)
      _ ⟨e, hx.root, hx.length, hx.index⟩

omit h in
theorem Owns.nodup_ptrs {v : Vol} (h : Owns L live ib v) {l : List Slot} (hl : l.Nodup)
    (hs : ∀ x ∈ l, L.IsSlot live x) {g : Slot → Nat} (hg : ∀ x ∈ l, g x ≠ 0 → g x = ptr ib v.data x) :
    ((l.map g).filter (· ≠ 0)).Nodup := by
  rw [filter_map]
  refine List.Nodup.map_on ?_ (hl.filter _)
  intro x hx y hy e
  simp only [mem_filter, Function.comp, ne_eq, decide_eq_true_eq] at hx hy
  rw [hg x hx.1 hx.2, hg y hy.1 hy.2] at e
  exact h.inj x y (hs x hx.1) (hs y hy.1) (by rw [← hg x hx.1 hx.2]; exact hx.2) e

omit h in
theorem Layout.isSlot_of_mem_slots (hn : live n) {x : Slot} (hx : x ∈ L.slots n) : L.IsSlot live x := by
  have hx := mem_slots.1 hx
  exact ⟨hx.live ▸ hn, hx.root, hx.length, hx.index⟩

theorem freeAllBlocks_work (hS : S n) (hne : ∀ r' ∈ held, s.ino r' ≠ n)
    (hr : r ∉ held) (hib : (s.inodes r).priv.i_block = ib n)
    (hok : (L.vol s).live n ∨ ∀ k, k ≤ EXT2_DIND_BLOCK → ib n k = 0) :
    Prog.wp (world False) (freeAllBlocks L.fs r)
      (fun _ s' => ∃ ib', Work L cnt held o S (fun m => dirty m ∨ m = n) ib' s' ∧ L.Steady s s' ∧
        ∀ k, k ≤ EXT2_DIND_BLOCK → ib' n k = 0) s := by
  have hzero : ¬(L.vol s).live n → ∀ x, L.IsSlot (· = n) x → ptr ib (L.vol s).data x = 0 := fun hnl x hx =>
    ptr_eq_zero (hok.resolve_left hnl) hx hx.live
  have hd : DataPtrs L n ib (L.vol s).data := by
    by_cases hn : (L.vol s).live n
    · exact h.owns.dataPtrs hn
    · exact fun x hx h0 => absurd (hzero hn x hx) h0
  refine wp_weaken (freeAllBlocks_run h.valid hd hib) ?_
  rintro _ s' ⟨-, he⟩
  have hsame := release_same (L := L) (v := L.vol s) ((L.slots n).map (ptr ib (L.vol s).data))
  refine ⟨Function.update ib n (cleared 0 14 (ib n)), ?_, ⟨funext fun r' => ?_, ?_⟩, fun k hk => ?_⟩
  · refine h.cut (T := fun x => x.1.1 = n) hS (fun hr' => absurd hr' hr) (fun r' hr' e => absurd e (hne r' hr')) he
      (fun _ hx => hx) (fun x hx => ptr_dropped _ _ hx) (fun b hb => ?_) fun hc => ?_
    · rw [mem_map]
      constructor
      · rintro ⟨x, hx, rfl⟩
        have hn : (L.vol s).live n := by
          by_contra hn
          exact hb (hzero hn x (mem_slots.1 hx))
        exact ⟨x, isSlot_of_mem_slots hn hx, (mem_slots.1 hx).live, rfl⟩
      · rintro ⟨x, hx, e, rfl⟩
        exact ⟨x, mem_slots.2 ⟨e, hx.root, hx.length, hx.index⟩, rfl⟩
    · by_cases hn : (L.vol s).live n
      · exact h.owns.nodup_ptrs (nodup_slots n) (fun x hx => isSlot_of_mem_slots hn hx) fun _ _ _ => rfl
      · rw [filter_eq_nil_iff.2]
        · exact nodup_nil
        · intro b hb
          obtain ⟨x, hx, rfl⟩ := mem_map.1 hb
          simp [hzero hn x (mem_slots.1 hx)]
  · rw [St.ino, he.inodes, update_apply]
    split_ifs with e
    · rw [e]; rfl
    · rfl
  · unfold Vol.live
    rw [he.vol, hsame.2.1]
  · have hk : k ≤ 13 := hk
    rw [update_self, cleared, if_pos (by omega)]

theorem Work.freeInode (hn : L.IsIno n) (hS : S n)
    (hne : ∀ r ∈ held, s.ino r ≠ n) (h0 : (L.vol s).live n → ∀ k, k ≤ EXT2_DIND_BLOCK → ib n k = 0)
    (hc : cnt → (L.vol s).live n) (hupd : L.Upd s (L.freeInode (L.vol s) n) s') :
    Work L cnt held o S (fun m => dirty m ∧ m ≠ n) ib s' := by
  have hlive : ∀ m, (L.vol s').live m ↔ m ≠ n ∧ (L.vol s).live m := by
    intro m
    rw [Vol.live, hupd.vol, Vol.live]
    by_cases e : m = n
    · subst e; simp [Layout.freeInode]
    · simp [Layout.freeInode, e]
  have hsame : ∀ r, s'.inodes r = s.inodes r := fun r => by rw [hupd.same.inodes]
  have hdata : (L.vol s').data = (L.vol s).data := by rw [hupd.vol]; rfl
  refine ⟨hupd.valid, ?_, ?_, ?_, ?_, ?_, ?_, ?_, ⟨?_, ?_, ?_, ?_, ?_, ?_, ?_⟩⟩
  · refine h.owns.relive (n := n) (fun m hm => ?_) (fun _ _ _ _ _ => rfl) h0 (fun hn' => ?_)
      (by rw [hupd.vol]; rfl) hdata
    · simp [hlive, hm]
    · exact absurd rfl ((hlive n).1 hn').1
  · intro hcnt
    rw [hupd.vol]
    exact (h.counted hcnt).freeInode hn (hc hcnt)
  · intro m k hm hd hk
    have hm := (hlive m).1 hm
    rw [Vol.blocks, hupd.vol]
    exact h.saved m k hm.2 (fun e => hd ⟨e, hm.1⟩) hk
  · intro r hr
    rw [hupd.same.next]
    exact h.fresh r hr
  · intro r hr
    rw [hlive, St.ino, hsame]
    exact ⟨hne r hr, h.live r hr⟩
  · intro r hr k hk
    rw [St.ino, hsame]
    exact h.agree r hr k hk
  · intro r1 h1 r2 h2 e
    rw [St.ino, St.ino, hsame, hsame] at e
    exact h.distinct r1 h1 r2 h2 e
  · intro m hm hSm
    refine (hlive m).2 ⟨?_, h.spares.live m hm hSm⟩
    rintro rfl
    exact hSm hS
  · intro m x hm hSm hx hl
    rw [hdata]
    exact h.spares.block m x hm hSm hx hl
  · intro r hr hSr
    rw [St.ino, hsame] at hSr
    rw [hsame]
    exact h.spares.inodes r hr hSr
  · intro m x hm hSm hx
    rw [hdata]
    exact h.spares.pointer m x hm hSm hx
  · intro m hm hSm
    rw [hupd.vol]
    exact h.spares.record m hm hSm
  · rw [hupd.same.next]
    exact h.spares.next
  · intro r hr hlt
    rw [St.ino, hsame]
    exact h.spares.ino r hr hlt

end Work

namespace Sample

set_option maxRecDepth 100000

theorem mounted : Mounted layout True [0, 1] st where
  valid := valid
  owns := owns_st
  counted _ := ⟨⟨by
    intro g hg
    obtain rfl : g = 0 := lt_one_iff.1 hg
    decide, by decide⟩, ⟨by
    intro g hg
    obtain rfl : g = 0 := lt_one_iff.1 hg
    decide, by decide⟩⟩
  fresh := by decide
  live := by simp only [Vol.live]; decide
  agree := by
    have h : ∀ r ∈ [0, 1], ∀ k, k < 14 → (st.inodes r).priv.i_block k = (layout.vol st).blocks (st.ino r) k := by
      decide
    exact fun r hr k hk => h r hr k (lt_succ_of_le hk)
  distinct := by decide
end Sample

end Ext2
