import Loeux.Ext2.Mounted
/-!
# Mode and owner of new inodes

`ext2_create` and `ext2_mkdir` store the mode they are given and no owner: what is
read back from the record of a new inode has user and group 0.
-/
open Lib Bytes Nat

namespace Ext2

/-- The fields that permissions are decided by. -/
structure Access where
  mode : Nat
  uid : Nat
  gid : Nat
deriving DecidableEq

def Inode.access (i : Inode) : Access := ⟨i.mode, i.uid, i.gid⟩

def Di.access (di : Bytes) : Access := ⟨Di.i_mode di, Di.i_uid di, Di.i_gid di⟩

def Priv.access (p : Priv) : Access := ⟨p.i_mode, p.i_uid, p.i_gid⟩

/-- The object and its private part are of a new inode with this mode. -/
structure Inode.Owned (i : Inode) (mode : Nat) : Prop where
  object : i.access = ⟨mode, 0, 0⟩
  priv : i.priv.access = ⟨mode, 0, 0⟩

theorem access_slice (di : Bytes) : Di.access (di.slice 128 0) = Di.access di := by
  unfold Di.access Di.i_mode Di.i_uid Di.i_gid
  rw [get_slice _ (by decide), get_slice _ (by decide), get_slice _ (by decide)]

theorem access_privToDisk {p : Priv} {mode : Nat} (h : p.access = ⟨mode, 0, 0⟩) (hm : mode < 2 ^ 16) :
    Di.access ((privToDisk p).slice 128 0) = ⟨mode, 0, 0⟩ := by
  obtain ⟨rfl, h1, h2⟩ := Access.mk.inj h
  rw [access_slice]
  unfold Di.access Di.i_mode Di.i_uid Di.i_gid privToDisk
  rw [get_putIBlock_of_lt _ _ _ (by decide), get_putIBlock_of_lt _ _ _ (by decide), get_putIBlock_of_lt _ _ _ (by decide)]
  refine congr (congr (congrArg _ ?_) ?_) ?_
  · iterate 8 rw [get_put_of_disjoint _ _ (by decide)]
    rw [get_put]
    exact mod_eq_of_lt hm
  · iterate 7 rw [get_put_of_disjoint _ _ (by decide)]
    rw [get_put, h1]
    rfl
  · iterate 2 rw [get_put_of_disjoint _ _ (by decide)]
    rw [get_put, h2]
    rfl

theorem typed_lt {t : Nat} (ht : t < 2 ^ 16) (mode : Nat) : t ||| (mode &&& 0o777) < 2 ^ 16 :=
  or_lt_two_pow ht (and_lt_two_pow _ (by decide))

theorem access_fileRecord (mode now : Nat) : Di.access (fileRecord mode now) = ⟨S_IFREG ||| (mode &&& 0o777), 0, 0⟩ := by
  unfold Di.access Di.i_mode Di.i_uid Di.i_gid fileRecord
  refine congr (congr (congrArg _ ?_) ?_) ?_
  · iterate 4 rw [get_put_of_disjoint _ _ (by decide)]
    rw [get_put]
    exact mod_eq_of_lt (typed_lt (by decide) _)
  · iterate 5 rw [get_put_of_disjoint _ _ (by decide)]
    exact get_zero ..
  · iterate 5 rw [get_put_of_disjoint _ _ (by decide)]
    exact get_zero ..

theorem access_dirRecord (fs : Fs) (mode now : Nat) :
    Di.access (dirRecord fs mode now) = ⟨S_IFDIR ||| (mode &&& 0o777), 0, 0⟩ := by
  unfold Di.access Di.i_mode Di.i_uid Di.i_gid dirRecord
  refine congr (congr (congrArg _ ?_) ?_) ?_
  · iterate 5 rw [get_put_of_disjoint _ _ (by decide)]
    rw [get_put]
    exact mod_eq_of_lt (typed_lt (by decide) _)
  · iterate 6 rw [get_put_of_disjoint _ _ (by decide)]
    exact get_zero ..
  · iterate 6 rw [get_put_of_disjoint _ _ (by decide)]
    exact get_zero ..

theorem owned_inodeOf {n mode : Nat} {di : Bytes} (h : Di.access di = ⟨mode, 0, 0⟩) : (inodeOf n di).Owned mode := ⟨h, h⟩

theorem inodeRead_same {F : Prop} {s : St} (fs : Fs) (n : Nat) : Prog.wp (world F) (inodeRead fs n) (fun _ s' => s' = s) s := by
  unfold inodeRead
  split_ifs
  · rfl
  · simp [loadBg]

section

variable {L : Layout} {held : List Nat} {s s' : St} {r mode : Nat}

/-- The record of object `r` and the object itself are those of a new inode. -/
structure Layout.NewInode (L : Layout) (s : St) (r mode : Nat) : Prop where
  valid : L.Valid s
  ino : L.IsIno (s.ino r)
  object : (s.inodes r).access = ⟨mode, 0, 0⟩
  record : Di.access ((L.vol s).inode (s.ino r)) = ⟨mode, 0, 0⟩

theorem Layout.vol_ghost (hg : Ghost s s') : L.vol s' = L.vol s := by
  obtain ⟨hd, hi, hn, -, hb, hf, -⟩ := hg
  cases s; cases s'
  subst hd hi hn hb hf
  rfl

theorem Inode.Owned.congr {i j : Inode} (h : i.Owned mode) (ho : j.access = i.access) (hp : j.priv.access = i.priv.access) :
    j.Owned mode := ⟨ho.trans h.object, hp.trans h.priv⟩

theorem Layout.newInode_stored (hv : L.Valid s) (hino : L.IsIno (s.ino r)) (h : (s.inodes r).Owned mode) (hm : mode < 2 ^ 16) :
    L.NewInode (L.stored s (s.ino r) (privToDisk (s.inodes r).priv)) r mode := by
  have hupd := L.upd_stored hv hino (privToDisk (s.inodes r).priv)
  refine ⟨hupd.valid, hino, h.object, ?_⟩
  show Di.access ((L.vol (L.stored s (s.ino r) _)).inode (s.ino r)) = _
  rw [hupd.vol]
  simp only [Function.update_self]
  exact access_privToDisk h.priv hm

theorem Layout.NewInode.ghost (h : L.NewInode s r mode) (hg : Ghost s s') : L.NewInode s' r mode := by
  have hino : s'.ino r = s.ino r := by rw [St.ino, hg.inodes]; rfl
  refine ⟨h.valid.congr hg.disk, by rw [hino]; exact h.ino, by rw [hg.inodes]; exact h.object, ?_⟩
  rw [hino, Layout.vol_ghost hg]
  exact h.record

theorem Layout.NewInode.spared {ib : Nat → Nat → Nat} {S : Nat → Prop} (h : L.NewInode s r mode) (hr : r ∈ held)
    (hlive : (L.vol s).live (s.ino r)) (hS : ¬S (s.ino r)) (hino : s'.ino = s.ino) (hv : L.Valid s') (hsp : L.Spares held S s ib s') :
    L.NewInode s' r mode := by
  have e := congrFun hino r
  refine ⟨hv, by rw [e]; exact h.ino, ?_, ?_⟩
  · rw [hsp.inodes r hr (by rw [e]; exact hS)]
    exact h.object
  · rw [e, hsp.record _ hlive hS]
    exact h.record

end

end Ext2
