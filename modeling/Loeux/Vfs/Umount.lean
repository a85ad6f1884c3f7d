import Loeux.Vfs.Refs
import Mathlib.Data.List.Count
/-!
# Unmounting

`vfs_umount` collects the cached inodes of the superblock in a batch, removes
them, and does so again, eight times at most. Each round takes as many entries as
the batch holds, so the cache is clear of them if and only if there were no more
than eight batches.
-/
open Lib Act List

namespace Vfs

def VFS_INODE_CACHE_SIZE : Nat := 128

namespace Mount

def child : Mount → List Mount
  | mk _ _ child => child

mutual

/-- `vfs_find_mount_exact`. -/
def findExact (p : Name) : Mount → Option Mount
  | mk _ _ child => findExactIn p child

def findExactIn (p : Name) : List Mount → Option Mount
  | [] => none
  | c :: cs =>
    if c.path = p then some c
    else match c.findExact p with
      | some r => some r
      | none => findExactIn p cs

end

mutual

/-- Unlink the mount at `p` from the list of its parent; with `back` it is linked
again in front. -/
def detach (p : Name) (back : Bool) : Mount → Option Mount
  | mk path root child =>
    match detachIn p back child with
    | none => none
    | some (cs, none) => some (mk path root cs)
    | some (cs, some mnt) => some (mk path root (if back then mnt :: cs else cs))

def detachIn (p : Name) (back : Bool) : List Mount → Option (List Mount × Option Mount)
  | [] => none
  | c :: cs =>
    if c.path = p then some (cs, some c)
    else match c.detach p back with
      | some c => some (c :: cs, none)
      | none => (detachIn p back cs).map fun (cs, mnt) => (c :: cs, mnt)

end

end Mount

/-- What `vfs_umount` uses of the file systems and of the hash table. A superblock is
known by its root. -/
structure Supers (σ : Type) where
  /-- The root of `inode->sb`. -/
  sb : Nat → Nat
  /-- What `kill_sb` does to the file system's own state. -/
  kill : Nat → σ → σ
  /-- The order in which `hash_table_foreach` comes to the entries. -/
  visit : Nat → List Nat → List Nat
  visit_perm : ∀ n l, (visit n l).Perm l

section

variable {σ : Type} (F : FileSystem σ) (V : Supers σ)

/-- An inode of the superblock is the working directory of a task, or open in one. -/
def St.busy (s : St σ) (sb : Nat) : Bool :=
  (List.range NTASKS).any fun t =>
    (s.tasks t).cwd.any (V.sb · = sb) ||
      (List.range NOFILE).any fun fd => (((s.tasks t).ofile fd).bind s.fileInode).any (V.sb · = sb)

def umountCollectCb (sb : Nat) (victims : List Nat) (i : Nat) : List Nat :=
  if victims.length < VFS_INODE_CACHE_SIZE ∧ V.sb i = sb then victims ++ [i] else victims

def removeAll : List Nat → M σ Unit
  | [] => return
  | i :: victims => do
    inodeCacheRemove F i
    removeAll victims

def purge (sb : Nat) : (n : Nat) → M σ Unit
  | 0 => return
  | n + 1 => do
    let victims := (V.visit n (← get).cache).foldl (umountCollectCb V sb) []
    if victims = [] then return
    removeAll F victims
    purge sb n

def umount (target : Name) : M σ Bool := do
  if target.head? ≠ some slash ∨ target = [slash] then return false
  let s ← get
  let some root := s.mount | return false
  let some mnt := root.findExact target | return false
  if mnt.child.length ≠ 0 then return false
  if s.busy V mnt.root then return false
  modify fun s => { s with mount := root.detach target false }
  if !(← slabAlloc) then
    modify fun s => { s with mount := root.detach target true }
    return false
  purge F V mnt.root 8
  -- `kill_sb`
  inodePut F mnt.root
  modify fun s => s.setFs (V.kill mnt.root s.fs)
  return true

end

section

variable {σ : Type} {F : FileSystem σ} {V : Supers σ} {s s' : St σ} {i sb : Nat}

/-- No two entries of the cache have the same key. -/
def St.Keyed (s : St σ) : Prop := s.cache.Pairwise fun i j => s.key i ≠ s.key j

theorem St.Keyed.inj (h : s.Keyed) {j : Nat} (hi : i ∈ s.cache) (hj : j ∈ s.cache) (e : s.key i = s.key j) : i = j := by
  by_contra hne
  have hsymm : Std.Symm fun i j => s.key i ≠ s.key j := ⟨fun _ _ hab => hab.symm⟩
  exact h.forall hi hj hne e

/-! ## Removing entries -/

def SameKeys (s s' : St σ) : Prop := ∀ c, s'.key c = s.key c

theorem St.Keyed.congr (h : s.Keyed) (hk : SameKeys s s') (hsub : s'.cache.Sublist s.cache) : s'.Keyed := by
  unfold St.Keyed
  simp only [hk _]
  exact h.sublist hsub

theorem wp_inodePut_frame {Q : Unit → St σ → Prop} (hQ : ∀ s', s'.cache = s.cache → SameKeys s s' → Q ⟨⟩ s') :
    wp (inodePut F i) Q s := by
  unfold inodePut
  rw [wp_bind, wp_get]
  dsimp only
  split_ifs
  · exact hQ s rfl fun _ => rfl
  · exact hQ _ rfl fun c => key_setRef _ c
  · exact hQ _ rfl fun c => key_setRef _ c

theorem eraseP_eq_erase {p : Nat → Bool} {l : List Nat} (h : ∀ j ∈ l, p j = true ↔ j = i) : l.eraseP p = l.erase i := by
  induction l with
  | nil => rfl
  | cons j l ih =>
    have hj := h j mem_cons_self
    have hl := ih fun j hj => h j (mem_cons_of_mem _ hj)
    by_cases e : j = i
    · subst e
      rw [eraseP_cons_of_pos (hj.2 rfl), erase_cons_head]
    · rw [eraseP_cons_of_neg (fun hp => e (hj.1 hp)), erase_cons_tail (by simpa using e), hl]

theorem wp_inodeCacheRemove_erase (h : s.Keyed) (hi : i ∈ s.cache) :
    wp (inodeCacheRemove F i) (fun _ s' => s'.cache = s.cache.erase i ∧ SameKeys s s') s := by
  have hany : (s.cache.any fun j => decide (s.key j = s.key i)) = true := any_eq_true.2 ⟨i, hi, by simp⟩
  have herase : (s.cache.eraseP fun j => decide (s.key j = s.key i)) = s.cache.erase i := by
    refine eraseP_eq_erase fun j hj => ?_
    rw [decide_eq_true_eq]
    exact ⟨fun e => h.inj hj hi e, fun e => by rw [e]⟩
  unfold inodeCacheRemove
  rw [wp_bind, wp_get, if_pos hany, wp_bind, wp_modify, wp_bind]
  refine wp_inodePut_frame fun s1 hc1 hk1 => ?_
  have hcache : s1.cache = s.cache.erase i := hc1.trans herase
  have hkeys : SameKeys s s1 := hk1
  split
  · exact ⟨hcache, hkeys⟩
  · exact wp_inodePut_frame fun s2 hc2 hk2 => ⟨hc2.trans hcache, fun c => (hk2 c).trans (hkeys c)⟩

theorem wp_removeAll (victims : List Nat) (h : s.Keyed) (hsub : victims.Subperm s.cache) :
    wp (removeAll F victims) (fun _ s' => s'.cache = s.cache.diff victims ∧ SameKeys s s') s := by
  induction victims generalizing s with
  | nil => exact ⟨rfl, fun _ => rfl⟩
  | cons i victims ih =>
    have hi : i ∈ s.cache := hsub.subset mem_cons_self
    unfold removeAll
    refine Act.wp_then (wp_inodeCacheRemove_erase h hi) fun _ s1 h1 => ?_
    obtain ⟨hc1, hk1⟩ := h1
    have hsub1 : victims.Subperm s1.cache := by
      rw [hc1]
      have := hsub.erase i
      rwa [erase_cons_head] at this
    have h1 : s1.Keyed := h.congr hk1 (by rw [hc1]; exact erase_sublist)
    refine Act.wp_mono (ih h1 hsub1) fun _ s2 h2 => ⟨?_, fun c => (h2.2 c).trans (hk1 c)⟩
    rw [h2.1, hc1, diff_cons]

/-! ## Rounds -/

theorem foldl_collect (l victims : List Nat) (hv : victims.length ≤ VFS_INODE_CACHE_SIZE) :
    l.foldl (umountCollectCb V sb) victims =
      victims ++ (l.filter (V.sb · = sb)).take (VFS_INODE_CACHE_SIZE - victims.length) := by
  induction l generalizing victims with
  | nil => simp
  | cons i l ih =>
    rw [foldl_cons]
    by_cases hi : V.sb i = sb
    · rw [filter_cons_of_pos (by simpa using hi)]
      by_cases hlt : victims.length < VFS_INODE_CACHE_SIZE
      · obtain ⟨k, hk⟩ : ∃ k, VFS_INODE_CACHE_SIZE - victims.length = k + 1 := ⟨VFS_INODE_CACHE_SIZE - victims.length - 1, by omega⟩
        have hk' : VFS_INODE_CACHE_SIZE - (victims ++ [i]).length = k := by
          rw [length_append, length_singleton]
          omega
        rw [umountCollectCb, if_pos ⟨hlt, hi⟩, ih _ (by rw [length_append, length_singleton]; omega), hk, hk',
          take_succ_cons, append_assoc, singleton_append]
      · have hfull : VFS_INODE_CACHE_SIZE - victims.length = 0 := by omega
        rw [umountCollectCb, if_neg fun h => hlt h.1, ih _ hv, hfull, take_zero, take_zero]
    · rw [umountCollectCb, if_neg fun h => hi h.2, ih _ hv, filter_cons_of_neg (by simpa using hi)]

theorem wp_purge (n : Nat) (h : s.Keyed) : wp (purge F V sb n)
      (fun _ s' => s'.cache.countP (V.sb · = sb) = s.cache.countP (V.sb · = sb) - n * VFS_INODE_CACHE_SIZE) s := by
  induction n generalizing s with
  | zero => exact (by simp : s.cache.countP (V.sb · = sb) = s.cache.countP (V.sb · = sb) - 0 * VFS_INODE_CACHE_SIZE)
  | succ n ih =>
    unfold purge
    rw [wp_bind, wp_get]
    dsimp only
    rw [foldl_collect _ [] (Nat.zero_le _), nil_append, length_nil, Nat.sub_zero]
    set victims := ((V.visit n s.cache).filter (V.sb · = sb)).take VFS_INODE_CACHE_SIZE with hvictims
    have hperm := V.visit_perm n s.cache
    have hsub : victims.Subperm s.cache :=
      ((take_sublist _ _).trans filter_sublist).subperm.trans hperm.subperm
    have hlen : victims.length = min VFS_INODE_CACHE_SIZE (s.cache.countP (V.sb · = sb)) := by
      rw [hvictims, length_take, ← countP_eq_length_filter, hperm.countP_eq]
    have hall : victims.countP (V.sb · = sb) = victims.length :=
      countP_eq_length.2 fun i hi => (mem_filter.1 (mem_of_mem_take hi)).2
    split_ifs with hnil
    · rw [hnil, length_nil] at hlen
      rw [wp_pure]
      have h128 : 0 < VFS_INODE_CACHE_SIZE := by decide
      omega
    refine Act.wp_then (wp_removeAll victims h hsub) fun _ s1 h1 => ?_
    obtain ⟨hc1, hk1⟩ := h1
    have hkeyed1 : s1.Keyed := h.congr hk1 (by rw [hc1]; exact diff_sublist _ _)
    refine Act.wp_mono (ih hkeyed1) fun _ s2 h2 => ?_
    rw [h2, hc1, countP_diff hsub, hall, hlen, Nat.succ_mul]
    omega

/-! ## The whole call -/

/-- An inode of the superblock is held by an open file or is a working directory. -/
def St.Held (V : Supers σ) (s : St σ) (sb : Nat) : Prop :=
  ∃ t i, t < NTASKS ∧ V.sb i = sb ∧
    ((s.tasks t).cwd = some i ∨ ∃ fd f, fd < NOFILE ∧ (s.tasks t).ofile fd = some f ∧ s.fileInode f = some i)

theorem busy_iff : s.busy V sb = true ↔ s.Held V sb := by
  unfold St.busy St.Held
  simp only [any_eq_true, mem_range, Bool.or_eq_true, Option.any_eq_true, decide_eq_true_eq, Option.bind_eq_some_iff]
  constructor
  · rintro ⟨t, ht, ⟨i, hi, hsb⟩ | ⟨fd, hfd, i, ⟨f, hf, hi⟩, hsb⟩⟩
    · exact ⟨t, i, ht, hsb, .inl hi⟩
    · exact ⟨t, i, ht, hsb, .inr ⟨fd, f, hfd, hf, hi⟩⟩
  · rintro ⟨t, i, ht, hsb, hi | ⟨fd, f, hfd, hf, hi⟩⟩
    · exact ⟨t, ht, .inl ⟨i, hi, hsb⟩⟩
    · exact ⟨t, ht, .inr ⟨fd, hfd, i, ⟨f, hf, hi⟩, hsb⟩⟩

variable {target : Name} {root mnt : Mount}

theorem umount_held (hm : s.mount = some root) (hf : root.findExact target = some mnt) (hh : s.Held V mnt.root) :
    umount F V target s = (false, s) := by
  have hwp : wp (umount F V target) (fun r s' => r = false ∧ s' = s) s := by
    unfold umount
    split_ifs
    · exact ⟨rfl, rfl⟩
    rw [wp_bind, wp_get, hm]
    dsimp only
    rw [hf]
    dsimp only
    split_ifs
    · exact ⟨rfl, rfl⟩
    · exact ⟨rfl, rfl⟩
    · exact absurd (busy_iff.2 hh) ‹_›
  exact Prod.ext hwp.1 hwp.2

theorem umount_left (hm : s.mount = some root) (hf : root.findExact target = some mnt) (h : s.Keyed) :
    wp (umount F V target) (fun r s' => r = true →
      s'.cache.countP (V.sb · = mnt.root) = s.cache.countP (V.sb · = mnt.root) - 8 * VFS_INODE_CACHE_SIZE) s := by
  unfold umount
  split_ifs
  · nofun
  rw [wp_bind, wp_get, hm]
  dsimp only
  rw [hf]
  dsimp only
  split_ifs
  · nofun
  · nofun
  rw [wp_bind, wp_modify, wp_bind]
  refine wp_slabAlloc fun b f => ?_
  cases b
  · nofun
  simp only [if_not_true]
  refine Act.wp_then (wp_purge 8 h) fun _ s1 h1 => ?_
  rw [wp_bind]
  refine wp_inodePut_frame fun s2 hc2 _ => fun _ => ?_
  show s2.cache.countP _ = _
  rw [hc2]
  exact h1

theorem wp_slabAlloc_of {Q : Bool → St σ → Prop} (hs : s.slab 0 = true) (hQ : Q true (s.setSlab fun n => s.slab (n + 1))) :
    wp slabAlloc Q s := by
  show Q (s.slab 0) _
  rw [hs]
  exact hQ

theorem umount_succeeds (ht : target.head? = some slash) (hne : target ≠ [slash]) (hm : s.mount = some root)
    (hf : root.findExact target = some mnt) (hc : mnt.child.length = 0) (hh : s.busy V mnt.root = false)
    (hs : s.slab 0 = true) : (umount F V target s).1 = true := by
  suffices h : wp (umount F V target) (fun r _ => r = true) s from h
  unfold umount
  rw [if_neg (by simp [ht, hne]), wp_bind, wp_get, hm]
  dsimp only
  rw [hf]
  dsimp only
  rw [if_neg (by simpa using hc), hh, if_neg (by simp), wp_bind, wp_modify, wp_bind]
  refine wp_slabAlloc_of hs ?_
  exact rfl

/-- A call that succeeds leaves no entry of the superblock behind if and only if there
were no more than eight batches of them, and a superblock of which an inode is held
stays mounted, with nothing changed. -/
theorem umount_clears_iff (hm : s.mount = some root) (hf : root.findExact target = some mnt) (h : s.Keyed) :
    (∀ s', umount F V target s = (true, s') →
      ((∀ i ∈ s'.cache, V.sb i ≠ mnt.root) ↔ s.cache.countP (V.sb · = mnt.root) ≤ 8 * VFS_INODE_CACHE_SIZE)) ∧
    (s.Held V mnt.root → umount F V target s = (false, s)) := by
  refine ⟨fun s' hrun => ?_, umount_held hm hf⟩
  have hleft := run_of_wp (umount_left hm hf h) hrun rfl
  have hnone : (∀ i ∈ s'.cache, V.sb i ≠ mnt.root) ↔ s'.cache.countP (V.sb · = mnt.root) = 0 := by
    rw [countP_eq_zero]
    simp only [decide_eq_true_eq, ne_eq]
  rw [hnone, hleft, Nat.sub_eq_zero_iff_le]

end

namespace Sample

def letters (i : Nat) : Name := [97 + UInt8.ofNat (i / 256), 97 + UInt8.ofNat (i / 16 % 16), 97 + UInt8.ofNat (i % 16)]

theorem letters_inj {i j : Nat} (hi : i < 4096) (hj : j < 4096) (h : letters i = letters j) : i = j := by
  have hcancel : ∀ {a b : Nat}, a < 16 → b < 16 → (97 + UInt8.ofNat a : UInt8) = 97 + UInt8.ofNat b → a = b := by
    intro a b ha hb e
    have e := congrArg UInt8.toNat e
    simp only [UInt8.toNat_add, UInt8.toNat_ofNat'] at e
    norm_num at e
    omega
  simp only [letters, List.cons.injEq, and_true] at h
  have h1 := hcancel (by omega) (by omega) h.1
  have h2 := hcancel (by omega) (by omega) h.2.1
  have h3 := hcancel (by omega) (by omega) h.2.2
  omega

/-- A volume at `/` and one at `/m`; the cache has the roots `0` and `1` and `n` files
below the second. -/
def crowded (n : Nat) : St Ext2.St where
  fs := Ext2.Sample.st
  inodes i :=
    if i = 0 then ⟨3, ⟨none, [47]⟩⟩
    else if i = 1 then ⟨n + 2, ⟨some 0, [47]⟩⟩
    else ⟨1, ⟨some 1, letters i⟩⟩
  cache := List.range (n + 2)
  files _ := none
  nfiles := 0
  tasks _ := ⟨.initlized, 0, ⟨0, 0, []⟩, none, [47], fun _ => none⟩
  current := 0
  pid_counter := 1
  mount := some (.mk [47] 0 [.mk [47, 109] 1 []])
  slab _ := true
  gets _ := 0
  closes _ := 0

/-- Every object but the root of all is of the second volume. -/
def supers : Supers Ext2.St where
  sb i := if i = 0 then 0 else 1
  kill _ o := o
  visit _ l := l
  visit_perm _ l := .refl l

theorem crowded_keyed {n : Nat} (hn : n + 2 ≤ 4096) : (crowded n).Keyed := by
  refine pairwise_lt_range.imp_of_mem fun {i j} hi hj hlt => ?_
  have hj := mem_range.1 hj
  have hj0 : j ≠ 0 := by omega
  unfold St.key crowded
  dsimp only
  rw [if_neg hj0]
  by_cases hi0 : i = 0
  · rw [if_pos hi0]
    split_ifs <;> simp
  · rw [if_neg hi0, if_neg (by omega : j ≠ 1)]
    by_cases hi1 : i = 1
    · rw [if_pos hi1]
      simp
    · rw [if_neg hi1]
      simp only [ne_eq, Key.mk.injEq, true_and]
      exact fun e => absurd (letters_inj (by omega) (by omega) e) (by omega)

theorem crowded_mount (n : Nat) : (crowded n).mount = some (.mk [47] 0 [.mk [47, 109] 1 []]) := rfl

theorem crowded_found : (Mount.mk [47] 0 [.mk [47, 109] 1 []]).findExact [47, 109] = some (.mk [47, 109] 1 []) := by
  simp [Mount.findExact, Mount.findExactIn, Mount.path]

theorem crowded_idle (n : Nat) : (crowded n).busy supers 1 = false := by
  have hsame : (crowded n).busy supers 1 = (crowded 0).busy supers 1 := rfl
  rw [hsame]
  decide

theorem crowded_succeeds (n : Nat) :
    ∃ s', umount (ext2 Ext2.Sample.layout.fs) supers [47, 109] (crowded n) = (true, s') := by
  have h := umount_succeeds (F := ext2 Ext2.Sample.layout.fs) (V := supers) rfl (by decide) (crowded_mount n) crowded_found rfl
    (crowded_idle n) rfl
  generalize umount (ext2 Ext2.Sample.layout.fs) supers [47, 109] (crowded n) = x at h
  exact ⟨x.2, Prod.ext h rfl⟩

theorem crowded_left {n : Nat} {s' : St Ext2.St} (hn : n + 2 ≤ 4096)
    (hrun : umount (ext2 Ext2.Sample.layout.fs) supers [47, 109] (crowded n) = (true, s')) :
    s'.cache.countP (supers.sb · = 1) = (crowded n).cache.countP (supers.sb · = 1) - 8 * VFS_INODE_CACHE_SIZE :=
  run_of_wp (umount_left (crowded_mount n) crowded_found (crowded_keyed hn)) hrun rfl

/-- With 1024 files of the volume in the cache, one entry is left. -/
theorem umount_leaves_entry : ∃ s', umount (ext2 Ext2.Sample.layout.fs) supers [47, 109] (crowded 1024) = (true, s') ∧
    (crowded 1024).Keyed ∧ ∃ i ∈ s'.cache, supers.sb i = 1 := by
  obtain ⟨s', hrun⟩ := crowded_succeeds 1024
  refine ⟨s', hrun, crowded_keyed (by decide), ?_⟩
  have hcount : (crowded 1024).cache.countP (supers.sb · = 1) = 1025 := by decide +kernel
  have hpos : 0 < s'.cache.countP (supers.sb · = 1) := by
    rw [crowded_left (by decide) hrun, hcount]
    decide
  obtain ⟨i, hi, hsb⟩ := countP_pos_iff.1 hpos
  exact ⟨i, hi, of_decide_eq_true hsb⟩

/-- With one file there is none. -/
theorem umount_clears_small : (crowded 1).Keyed ∧ ∃ s', umount (ext2 Ext2.Sample.layout.fs) supers [47, 109] (crowded 1) = (true, s') ∧
    ∀ i ∈ s'.cache, supers.sb i ≠ 1 := by
  obtain ⟨s', hrun⟩ := crowded_succeeds 1
  exact ⟨crowded_keyed (by decide), s', hrun,
    ((umount_clears_iff (crowded_mount 1) crowded_found (crowded_keyed (by decide))).1 s' hrun).2 (by decide)⟩

end Sample

end Vfs
