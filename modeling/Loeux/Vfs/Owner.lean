import Loeux.Ext2.Consistency
import Loeux.Vfs.Removal
/-!
# Who owns a new file

`vfs_create` and `vfs_mkdir` set mode, user and group in the inode object after
ext2 has stored its record. Only what the record has is found when the inode is
read again.
-/
open Lib Act

namespace Vfs

/-- The attributes that the inode `n` is read with, as in `ext2_lookup`. -/
def reread (fs : Ext2.Fs) (o : Ext2.St) (n : Nat) : Option Attr :=
  ((Ext2.inodeRead fs n).run Ext2.serve o).1.map fun di =>
    { mode := (Ext2.inodeOf n di).mode, uid := (Ext2.inodeOf n di).uid, gid := (Ext2.inodeOf n di).gid
      size := (Ext2.inodeOf n di).size }

/-- Permission bits, owner and group are the same, and so is every decision of
`vfs_permission`. -/
structure SameAccess (a b : Attr) : Prop where
  mode : a.mode = b.mode
  uid : a.uid = b.uid
  gid : a.gid = b.gid
  permission : ∀ cred mask, permission a cred mask = permission b cred mask

theorem sameAccess_iff {a b : Attr} : SameAccess a b ↔ a.mode = b.mode ∧ a.uid = b.uid ∧ a.gid = b.gid := by
  refine ⟨fun h => ⟨h.mode, h.uid, h.gid⟩, fun ⟨h1, h2, h3⟩ => ⟨h1, h2, h3, fun cred mask => ?_⟩⟩
  unfold permission
  rw [h1, h2, h3]

/-- The object has the access that is found when its inode is read again. -/
def Persists (fs : Ext2.Fs) (o : Ext2.St) (i : Nat) : Prop :=
  ∃ a, reread fs o (o.ino i) = some a ∧ SameAccess a ((ext2 fs).attr o i)

theorem lookup_reread {fs : Ext2.Fs} {o o' : Ext2.St} {dir i : Nat} {name : Name}
    (h : (Ext2.lookup fs dir name).run Ext2.serve o = (some i, o')) : reread fs o (o'.ino i) = some ((ext2 fs).attr o' i) := by
  have hwp : Prog.wp (Ext2.world False) (Ext2.lookup fs dir name)
      (fun a s' => ∀ i, a = some i → reread fs o (s'.ino i) = some ((ext2 fs).attr s' i)) o := by
    unfold Ext2.lookup
    rw [Prog.wp_bind, Ext2.wp_inodeAt]
    split_ifs
    · nofun
    · nofun
    · nofun
    rw [Prog.wp_bind]
    refine Ext2.wp_weaken (Ext2.dirFind_eq fs o dir name) ?_
    rintro a s1 ⟨rfl, rfl⟩
    cases s1.find fs dir name with
    | none => nofun
    | some ino =>
      dsimp only
      rw [Prog.wp_bind]
      refine (Ext2.wp_world_false _ _ _).2 ?_
      have hsame := (Ext2.wp_world_false _ _ _).1 (Ext2.inodeRead_same fs ino (s := s1) (F := False))
      have hread : reread fs s1 ino = ((Ext2.inodeRead fs ino).run Ext2.serve s1).1.map _ := rfl
      generalize (Ext2.inodeRead fs ino).run Ext2.serve s1 = res at hsame hread
      obtain ⟨_ | di, s2⟩ := res
      · nofun
      dsimp only at hsame hread ⊢
      subst hsame
      rw [Ext2.wp_inodeCreate]
      refine ⟨?_, fun hF => hF.elim⟩
      rintro i ⟨⟩
      rw [Ext2.St.ino_create_new]
      show reread fs s2 ino = some _
      rw [hread]
      show some _ = some ((ext2 fs).attr (s2.create (Ext2.inodeOf ino di)) s2.next)
      have hobj : (s2.create (Ext2.inodeOf ino di)).inodes s2.next = Ext2.inodeOf ino di := Function.update_self ..
      simp only [ext2, hobj]
  exact Ext2.run_of_wp hwp h i rfl

/-! ## Steps that leave the volume and the cache alone -/

section

variable {fs : Ext2.Fs} {s s' : St Ext2.St} {i : Nat}

theorem wp_put_owner {α : Type} {k : Unit → M Ext2.St α} {Q : α → St Ext2.St → Prop}
    (hQ : ∀ s', s'.fs = s.fs → s'.cache = s.cache ∧ s'.key = s.key → wp (k ⟨⟩) Q s') : wp (inodePut (ext2 fs) i >>= k) Q s :=
  wp_put_calm fun s' h => hQ s' h.fs ⟨h.cache, funext h.key⟩

theorem wp_inodeCacheFind_fs {parent : Nat} {name : Name} {Q : Option Nat → St Ext2.St → Prop}
    (hQ : ∀ r s', s'.fs = s.fs → SameFiles s s' → Q r s') : wp (inodeCacheFind parent name) Q s := by
  refine Act.wp_mono (Q := fun _ s' => s'.fs = s.fs ∧ SameFiles s s') ⟨?_, quiet_inodeCacheFind parent name s⟩
    fun r s' h => hQ r s' h.1 h.2
  suffices h : wp (inodeCacheFind parent name) (fun _ s' => s'.fs = s.fs) s from h
  unfold inodeCacheFind
  by_cases hn : name = []
  · rw [if_pos hn]
    exact rfl
  rw [if_neg hn, wp_bind]
  refine wp_slabAlloc fun b f => ?_
  cases b
  · exact rfl
  simp only [if_not_true]
  by_cases hl : VFS_MAX_PATH_LEN ≤ name.length
  · rw [if_pos hl]
    exact rfl
  rw [if_neg hl, wp_bind, wp_get]
  split
  · exact rfl
  · exact rfl

theorem wp_insert_owner {Q : Bool → St Ext2.St → Prop}
    (hQ : ∀ b s', s'.fs = s.fs → (b = true → s'.cache = i :: s.cache ∧ s'.key i = s.key i) → Q b s') : wp (inodeCacheInsert (ext2 fs) i) Q s := by
  unfold inodeCacheInsert
  rw [wp_bind, wp_get]
  split_ifs
  · exact hQ _ _ rfl nofun
  rw [wp_bind, wp_inodeGet, wp_bind, wp_get]
  split_ifs
  · exact wp_put_owner fun s1 h1 _ => hQ _ _ h1 nofun
  rw [wp_bind]
  refine wp_slabAlloc fun b f => ?_
  cases b
  · exact wp_put_owner fun s1 h1 _ => hQ _ _ h1 nofun
  · refine hQ _ _ rfl fun _ => ⟨rfl, ?_⟩
    exact (calm_setRef s i _).key i

/-! ## New objects -/

variable {L : Ext2.Layout}

/-- The attributes that `adopt` sets. -/
def owned (mode : Nat) (cred : Cred) (o : Ext2.Inode) : Ext2.Inode :=
  { o with mode := ifmt o.mode ||| mode, uid := cred.uid, gid := cred.gid }

theorem wp_adopt_owner {parent mode new : Nat} {name : Name} {Q : Bool → St Ext2.St → Prop}
    (hQ : ∀ b s', (b = true → s'.fs = s.fs.modify new (owned mode s.task.cred) ∧ s'.cache.head? = some new ∧
      s'.key new = ⟨some parent, name⟩) → Q b s') :
    wp (adopt (ext2 fs) parent name mode new) Q s := by
  unfold adopt
  rw [wp_bind, wp_attrOf_iff, wp_bind, wp_get, wp_bind, wp_call_iff fun _ => rfl, wp_bind, wp_modify, wp_bind, wp_inodeGet, wp_bind]
  refine wp_insert_owner fun b s1 h1 hcache => ?_
  cases b
  · refine wp_put_owner fun s2 _ _ => wp_put_owner fun s3 _ _ => wp_put_owner fun s4 _ _ => ?_
    exact hQ false s4 nofun
  · obtain ⟨hcache, hkey⟩ := hcache rfl
    refine hQ true s1 fun _ => ⟨h1, by rw [hcache]; rfl, hkey.trans ?_⟩
    exact ((calm_setRef _ parent _).key new).trans (key_setKey _)

theorem persists_owned {o : Ext2.St} {new mode : Nat} {cred : Cred} {t : Nat} (h : L.NewInode o new (t ||| (mode &&& 0o777)))
    (ht : ∀ x, x < 512 → (t ||| x) &&& S_IFMT ||| x = t ||| x) :
    Persists L.fs (o.modify new (owned (mode &&& 0o777) cred)) new ↔ cred.uid = 0 ∧ cred.gid = 0 := by
  have hobj : (o.modify new (owned (mode &&& 0o777) cred)).inodes new = owned (mode &&& 0o777) cred (o.inodes new) :=
    Function.update_self ..
  have hino : (o.modify new (owned (mode &&& 0o777) cred)).ino new = o.ino new := by
    rw [Ext2.St.ino, hobj]
    rfl
  have hread : ((Ext2.inodeRead L.fs (o.ino new)).run Ext2.serve (o.modify new (owned (mode &&& 0o777) cred))).1 =
      some ((L.vol o).inode (o.ino new)) := by
    have hv : L.Valid (o.modify new (owned (mode &&& 0o777) cred)) := h.valid.congr rfl
    have hwp := (Ext2.wp_inodeRead (F := False) hv h.ino
      fun a _ => a = some ((L.vol o).inode (o.ino new))).2 ⟨rfl, fun hF => hF.elim⟩
    exact (Ext2.wp_world_false _ _ _).1 hwp
  obtain ⟨hm, hu, hg⟩ := Ext2.Access.mk.inj h.record
  obtain ⟨hm', -, -⟩ := Ext2.Access.mk.inj h.object
  have hmode : ifmt (o.inodes new).mode ||| (mode &&& 0o777) = t ||| (mode &&& 0o777) := by
    rw [hm']
    exact ht _ (show mode &&& 0o777 < 2 ^ 9 from Nat.and_lt_two_pow _ (by decide))
  unfold Persists reread
  rw [hino, hread]
  simp only [Option.map_some, Option.some.injEq, exists_eq_left', sameAccess_iff, ext2, hobj, owned, Ext2.inodeOf, hm, hu, hg,
    hmode, true_and]
  exact and_congr eq_comm eq_comm

variable {path : Name} {mode : Nat}

/-- The volume is in order when the parent directory has been found. -/
def Enters (L : Ext2.Layout) (path : Name) (s : St Ext2.St) : Prop :=
  ∀ parent name s₁, enterParent (ext2 L.fs) path s = (some (parent, name), s₁) →
    ∃ held, parent ∈ held ∧ Ext2.Mounted L False held s₁.fs

theorem SameFiles.task (h : SameFiles s s') : s'.task = s.task := by
  unfold St.task
  rw [h.tasks, h.current]

theorem wp_call_run {c : Call} {Q : Ans c → St Ext2.St → Prop} (hQ : ∀ r o, ext2Call fs c s.fs = (r, o) →
      Q r (match made c r with | some i => (s.setFs o).setRef i 1 | none => s.setFs o)) : wp (call (ext2 fs) c) Q s :=
  hQ _ _ rfl

theorem typed_reg : ∀ x, x < 512 → (S_IFREG ||| x) &&& S_IFMT ||| x = S_IFREG ||| x ∧ (S_IFREG ||| x) &&& 0o777 = x := by
  decide +kernel

theorem typed_dir : ∀ x, x < 512 → (S_IFDIR ||| x) &&& S_IFMT ||| x = S_IFDIR ||| x ∧ (S_IFDIR ||| x) &&& 0o777 = x := by
  decide +kernel

theorem wp_enter {α : Type} {bad : α} {k : Nat → Name → M Ext2.St α} {Q : α → St Ext2.St → Prop} (h : Enters L path s)
    (hbad : ∀ s', Q bad s')
    (hk : ∀ parent name held s₁, parent ∈ held → Ext2.Mounted L False held s₁.fs → s₁.task = s.task →
      (enterParent (ext2 L.fs) path s).1 = some (parent, name) → wp (k parent name) Q s₁) :
    wp (do
      let some (parent, name) ← enterParent (ext2 L.fs) path | return bad
      if let some exist ← inodeCacheFind parent name then
        inodePut (ext2 L.fs) exist
        inodePut (ext2 L.fs) parent
        return bad
      k parent name) Q s := by
  have hquiet := quiet_enterParent (F := ext2 L.fs) path s
  rw [wp_bind]
  rcases hE : enterParent (ext2 L.fs) path s with ⟨_ | ⟨parent, name⟩, s₁⟩
  · exact Act.wp_of_eq hE (hbad s₁)
  refine Act.wp_of_eq hE ?_
  rw [hE] at hquiet
  obtain ⟨held, hparent, hm⟩ := h parent name s₁ hE
  dsimp only
  rw [wp_bind]
  refine wp_inodeCacheFind_fs fun r s2 hfs2 hfiles2 => ?_
  cases r with
  | some exist => exact wp_put_owner fun s3 _ _ => wp_put_owner fun s4 _ _ => hbad s4
  | none =>
    exact hk parent name held s2 hparent (by rw [hfs2]; exact hm) (hfiles2.task.trans hquiet.task) (by rw [hE])

theorem wp_adopted {α : Type} {bad : α} {parent new t : Nat} {name : Name} {s₁ : St Ext2.St} {k : M Ext2.St α}
    {Q : α → St Ext2.St → Prop}
    (hnew : L.NewInode s₁.fs new (t ||| ((t ||| (mode &&& 0o777)) &&& 0o777)))
    (ht : ∀ x, x < 512 → (t ||| x) &&& S_IFMT ||| x = t ||| x ∧ (t ||| x) &&& 0o777 = x)
    (htask : s₁.task = s.task) (hbad : ∀ s', Q bad s')
    (hk : ∀ s₂, s₂.cache.head? = some new ∧ s₂.key new = ⟨some parent, name⟩ →
      (Persists L.fs s₂.fs new ↔ s.task.cred.uid = 0 ∧ s.task.cred.gid = 0) → wp k Q s₂) :
    wp (do
      if !(← adopt (ext2 L.fs) parent name (mode &&& 0o777) new) then return bad
      k) Q s₁ := by
  have hlt : mode &&& 0o777 < 2 ^ 9 := Nat.and_lt_two_pow _ (by decide)
  rw [(ht _ hlt).2] at hnew
  rw [wp_bind]
  refine wp_adopt_owner fun b s₂ h2 => ?_
  cases b
  · exact hbad s₂
  obtain ⟨hfs, hhead⟩ := h2 rfl
  refine hk s₂ hhead ?_
  rw [hfs, htask]
  exact persists_owned hnew fun x hx => (ht x hx).1

theorem create_persists (h : Enters L path s) : wp (create (ext2 L.fs) path mode) (fun r s' => ∀ i, r = some i →
      (Persists L.fs s'.fs i ↔ s.task.cred.uid = 0 ∧ s.task.cred.gid = 0)) s := by
  unfold create
  refine wp_enter h (fun _ => nofun) fun parent name held s1 hparent hm htask _ => ?_
  rw [wp_bind]
  refine wp_call_run fun r o hrun => ?_
  cases r with
  | none => exact wp_put_owner fun _ _ _ => nofun
  | some new =>
    obtain ⟨-, -, hnew⟩ := Ext2.run_of_wp (Ext2.create_run hm hparent name (S_IFREG ||| (mode &&& 0o777))) hrun new rfl
    refine wp_adopted hnew typed_reg htask (fun _ => nofun) fun s2 _ hp => ?_
    rw [wp_bind, wp_inodeGet]
    refine wp_put_owner fun s3 hfs3 _ => wp_put_owner fun s4 hfs4 _ => ?_
    rw [wp_pure]
    rintro _ ⟨⟩
    rw [hfs4, hfs3]
    exact hp

/-- `i` is the new object that the cache finds at the path: its key is the parent directory that
`path` leads to and its last component. -/
def Newest (L : Ext2.Layout) (path : Name) (s s' : St Ext2.St) (i : Nat) : Prop :=
  s'.cache.head? = some i ∧ ∃ parent name, (enterParent (ext2 L.fs) path s).1 = some (parent, name) ∧
    s'.key i = ⟨some parent, name⟩

theorem mkdir_persists (h : Enters L path s) :
    wp (mkdir (ext2 L.fs) path mode) (fun r s' => r = true → ∃ i, Newest L path s s' i ∧
      (Persists L.fs s'.fs i ↔ s.task.cred.uid = 0 ∧ s.task.cred.gid = 0)) s := by
  unfold mkdir
  refine wp_enter h (fun _ => nofun) fun parent name held s1 hparent hm htask henter => ?_
  rw [wp_bind]
  refine wp_call_run fun r o hrun => ?_
  cases r with
  | none => exact wp_put_owner fun _ _ _ => nofun
  | some new =>
    obtain ⟨-, -, hnew⟩ := Ext2.run_of_wp (Ext2.mkdir_run hm hparent name (S_IFDIR ||| (mode &&& 0o777))) hrun new rfl
    refine wp_adopted hnew typed_dir htask (fun _ => nofun) fun s2 hhead hp => ?_
    refine wp_put_owner fun s3 hfs3 hc3 => wp_put_owner fun s4 hfs4 hc4 => ?_
    rw [wp_pure, hfs4, hfs3]
    exact fun _ => ⟨new, ⟨by rw [hc4.1, hc3.1, hhead.1], parent, name, henter, by rw [hc4.2, hc3.2, hhead.2]⟩, hp⟩

/-- The access of a new file or directory is the same after its inode is read again if
and only if the caller is user 0 and group 0. -/
theorem access_persists_iff (h : Enters L path s) :
    (∀ i s', create (ext2 L.fs) path mode s = (some i, s') →
      (Persists L.fs s'.fs i ↔ s.task.cred.uid = 0 ∧ s.task.cred.gid = 0)) ∧
    (∀ s', mkdir (ext2 L.fs) path mode s = (true, s') → ∃ i, Newest L path s s' i ∧
      (Persists L.fs s'.fs i ↔ s.task.cred.uid = 0 ∧ s.task.cred.gid = 0)) :=
  ⟨fun i _ hrun => run_of_wp (create_persists h) hrun i rfl, fun _ hrun => run_of_wp (mkdir_persists h) hrun rfl⟩

end

namespace Sample

set_option maxRecDepth 100000

theorem boot_enters : Enters Ext2.Sample.layout [47, 104] boot := by
  intro parent name s1 h
  have hparent : (enterParent (ext2 Ext2.Sample.layout.fs) [47, 104] boot).1 = some (1, [104]) := by decide +kernel
  have hfs : (enterParent (ext2 Ext2.Sample.layout.fs) [47, 104] boot).2.fs = boot.fs := rfl
  rw [h] at hparent hfs
  cases hparent
  have hfs : s1.fs = boot.fs := hfs
  refine ⟨boot.dirs, by decide, ?_⟩
  rw [hfs]
  exact rooted_boot.mounted

/-- What the superuser creates is read back with the same access. -/
theorem root_persists : ∃ i s', Enters Ext2.Sample.layout [47, 104] boot ∧
    create (ext2 Ext2.Sample.layout.fs) [47, 104] 0o644 boot = (some i, s') ∧ Persists Ext2.Sample.layout.fs s'.fs i := by
  have hrun : create (ext2 Ext2.Sample.layout.fs) [47, 104] 0o644 boot =
      (some 2, (create (ext2 Ext2.Sample.layout.fs) [47, 104] 0o644 boot).2) := Prod.ext (by decide +kernel) rfl
  exact ⟨2, _, boot_enters, hrun, ((access_persists_iff boot_enters).1 2 _ hrun).2 ⟨rfl, rfl⟩⟩

/-- The record of a root directory that everybody may write. -/
def openRoot : Bytes := Ext2.Sample.rootRecord.put 2 0 0o40777

def user : St Ext2.St :=
  { boot with
    fs := { Ext2.Sample.st with
      disk := Function.update Ext2.Sample.st.disk 5 (Bytes.zero.copy 128 128 openRoot)
      inodes := fun r => if r = 0 then Ext2.Sample.st.inodes 0 else Ext2.inodeOf 2 openRoot }
    tasks := fun _ => ⟨.initlized, 0, ⟨1000, 1000, []⟩, none, [47], fun _ => none⟩ }

/-- User 1000 may read the new file as long as its inode stays in memory. -/
theorem owner_lost : ∃ s', create (ext2 Ext2.Sample.layout.fs) [47, 104] 0o600 user = (some 2, s') ∧
    permission ((ext2 Ext2.Sample.layout.fs).attr s'.fs 2) ⟨1000, 1000, []⟩ MAY_READ = true ∧
    (reread Ext2.Sample.layout.fs s'.fs (s'.fs.ino 2)).map (permission · ⟨1000, 1000, []⟩ MAY_READ) = some false :=
  ⟨_, Prod.ext (by decide +kernel) rfl, by decide +kernel, by decide +kernel⟩

end Sample

end Vfs
