import Loeux.Lib.Refs
import Loeux.Vfs.Ops
import Loeux.Vfs.Ext2
/-!
# References to inodes

Who holds a reference to an inode object: the cache (one for the inode, and one
for the parent directory in the key of each cached inode), open files, working
directories, mounts, and the callers that were given one. `Exact` says that the
reference counts count them, and every operation keeps it so.
-/
open Lib Function List Option

namespace Vfs

section

variable {σ : Type} {F : FileSystem σ}

def St.mountRoots (s : St σ) : List Nat := (s.mount.map Mount.roots).getD []

def St.fileInode (s : St σ) (f : Nat) : Option Nat := (s.files f).bind (·.target.inode?)

/-- The references to inode `i` that the kernel's data structures hold. -/
def holders (s : St σ) (i : Nat) : Nat :=
  s.cache.count i + s.cache.countP (fun c => (s.key c).parent = some i) + Refs.count s.nfiles s.fileInode i +
    Refs.count NTASKS (fun t => (s.tasks t).cwd) i + s.mountRoots.count i

/-- One more reference than `h`, if there is one. -/
def plus (h : Nat → Nat) (r : Option Nat) : Nat → Nat := fun i => h i + Refs.one r i

@[simp] theorem plus_none (h : Nat → Nat) : plus h none = h := rfl

theorem plus_comm (h : Nat → Nat) (a b : Option Nat) : plus (plus h a) b = plus (plus h b) a := by
  funext i
  unfold plus
  omega

variable (F) in
/-- The reference counts count the holders, `h i` of which are callers. -/
structure Exact (h : Nat → Nat) (s : St σ) : Prop where
  refs : ∀ i, (s.inodes i).refcount = holders s i + h i
  fresh : ∀ i, F.next s.fs ≤ i → (s.inodes i).refcount = 0
  files : ∀ f, s.nfiles ≤ f → s.files f = none
  current : s.current < NTASKS

variable {h : Nat → Nat} {s : St σ} {i p : Nat}

/-! ## Steps that only change who holds what -/

theorem count_cons_one (i : Nat) (l : List Nat) (j : Nat) : (i :: l).count j = l.count j + Refs.one (some i) j := by
  rw [count_cons]
  by_cases hj : i = j
  · subst hj
    simp
  · simp [hj, Refs.one_of_ne hj]

theorem countP_cons_one (s : St σ) (i : Nat) (l : List Nat) (j : Nat) :
    (i :: l).countP (fun c => (s.key c).parent = some j) =
      l.countP (fun c => (s.key c).parent = some j) + Refs.one (s.key i).parent j := by
  rw [countP_cons]
  unfold Refs.one
  by_cases hj : (s.key i).parent = some j <;> simp [hj]

theorem Exact.congr {s' : St σ} (he : Exact F h s) (hi : s'.inodes = s.inodes) (hf : F.next s.fs ≤ F.next s'.fs)
    (hc : s'.cache = s.cache) (hfi : s'.files = s.files) (hn : s'.nfiles = s.nfiles) (ht : s'.tasks = s.tasks)
    (hcur : s'.current = s.current) (hm : s'.mount = s.mount) : Exact F h s' where
  refs j := by
    have := he.refs j
    unfold holders St.mountRoots St.fileInode St.key at this ⊢
    rw [hi, hc, hfi, hn, ht, hm]
    exact this
  fresh j hj := by
    rw [hi]
    exact he.fresh j (hf.trans hj)
  files f hf' := by
    rw [hfi]
    exact he.files f (hn ▸ hf')
  current := hcur ▸ he.current

theorem Exact.live (he : Exact F (plus h (some i)) s) : (s.inodes i).refcount ≠ 0 := by
  have := he.refs i
  unfold plus at this
  rw [Refs.one_self] at this
  omega

@[simp] theorem key_setRef (n c : Nat) : (s.setRef i n).key c = s.key c := by
  unfold St.key St.setRef
  by_cases hc : c = i
  · subst hc
    simp
  · simp [hc]

theorem holders_setRef (n j : Nat) : holders (s.setRef i n) j = holders s j := by
  unfold holders
  simp only [key_setRef]
  rfl

theorem refcount_setRef (n j : Nat) :
    ((s.setRef i n).inodes j).refcount = if j = i then n else (s.inodes j).refcount := by
  unfold St.setRef
  by_cases hj : j = i
  · subst hj
    simp
  · simp [hj]

theorem Exact.setRef {h' : Nat → Nat} {n : Nat} (he : Exact F h s) (hi : n = 0 ∨ i < F.next s.fs)
    (hn : n = holders s i + h' i) (ho : ∀ j, j ≠ i → h' j = h j) : Exact F h' (s.setRef i n) where
  refs j := by
    rw [refcount_setRef, holders_setRef]
    by_cases hj : j = i
    · subst hj
      rw [if_pos rfl, hn]
    · rw [if_neg hj, he.refs j, ho j hj]
  fresh j hj := by
    rw [refcount_setRef]
    by_cases hji : j = i
    · subst hji
      rw [if_pos rfl]
      rcases hi with hi | hi
      · exact hi
      · exact absurd hi (Nat.not_lt.2 hj)
    · rw [if_neg hji]
      exact he.fresh j hj
  files := he.files
  current := he.current

theorem plus_of_ne {j : Nat} (hj : j ≠ i) : plus h (some i) j = h j := by
  unfold plus
  rw [Refs.one_of_ne (Ne.symm hj), Nat.add_zero]

theorem plus_self : plus h (some i) i = h i + 1 := by
  unfold plus
  rw [Refs.one_self]

theorem Exact.lt_next (he : Exact F h s) (hi : (s.inodes i).refcount ≠ 0) : i < F.next s.fs :=
  Nat.lt_of_not_le fun hle => hi (he.fresh i hle)

theorem Exact.get (he : Exact F h s) (hi : (s.inodes i).refcount ≠ 0) :
    Exact F (plus h (some i)) (s.setRef i ((s.inodes i).refcount + 1)) := by
  have h1 := he.refs i
  refine he.setRef (.inr (he.lt_next hi)) ?_ fun j hj => plus_of_ne hj
  rw [plus_self]
  omega

theorem Exact.drop (he : Exact F (plus h (some i)) s) : Exact F h (s.setRef i ((s.inodes i).refcount - 1)) := by
  have h1 := he.refs i
  rw [plus_self] at h1
  exact he.setRef (.inr (he.lt_next he.live)) (by omega) fun j hj => (plus_of_ne hj).symm

theorem Exact.slab (he : Exact F h s) (f : Nat → Bool) : Exact F h (s.setSlab f) :=
  he.congr rfl le_rfl rfl rfl rfl rfl rfl rfl

theorem refcount_setKey (k : Key) (j : Nat) : ((s.setKey i k).inodes j).refcount = (s.inodes j).refcount := by
  unfold St.setKey
  by_cases hj : j = i
  · subst hj
    simp
  · simp [hj]

theorem Exact.setKey (he : Exact F h s) (hi : i ∉ s.cache) (k : Key) : Exact F h (s.setKey i k) where
  refs j := by
    have hc : (s.setKey i k).cache.countP (fun c => ((s.setKey i k).key c).parent = some j) =
        s.cache.countP (fun c => (s.key c).parent = some j) := by
      refine countP_congr fun c hc => ?_
      have hci : c ≠ i := fun e => hi (e ▸ hc)
      have : (s.setKey i k).key c = s.key c := by
        unfold St.setKey St.key
        simp [hci]
      rw [this]
    have := he.refs j
    unfold holders at this ⊢
    rw [refcount_setKey, hc]
    exact this
  fresh j hj := by
    rw [refcount_setKey]
    exact he.fresh j hj
  files := he.files
  current := he.current

/-! ## The basic operations -/

section Rules

open Act

theorem wp_slabAlloc {Q : Bool → St σ → Prop} (hQ : ∀ b f, Q b (s.setSlab f)) : wp slabAlloc Q s :=
  hQ _ _

theorem wp_attrOf {Q : Attr → St σ → Prop} (hQ : ∀ a, Q a s) : wp (attrOf F i) Q s := hQ _

theorem wp_mayI {mask : Nat} {Q : Bool → St σ → Prop} (hQ : ∀ b, Q b s) : wp (mayI F i mask) Q s := hQ _

theorem wp_inodeGet {Q : Unit → St σ → Prop} :
    wp (inodeGet i) Q s ↔ Q ⟨⟩ (s.setRef i ((s.inodes i).refcount + 1)) := Iff.rfl

theorem wp_call (c : Call) (hc : ∀ r, made c r = none) (he : Exact F h s) :
    wp (call F c) (fun _ s' => Exact F h s' ∧ ∃ fs, s' = s.setFs fs) s := by
  unfold call wp
  dsimp only
  rw [hc]
  exact ⟨he.congr rfl (F.next_le _ _) rfl rfl rfl rfl rfl rfl, _, rfl⟩

theorem wp_call_made (c : Call) (he : Exact F h s) :
    wp (call F c) (fun r s' => Exact F (plus h (made c r)) s' ∧ ∀ i, made c r = some i → i ∉ s'.cache) s := by
  unfold call wp
  have hle := F.next_le c s.fs
  cases hm : made c (F.call c s.fs).1 with
  | none =>
    dsimp only
    rw [hm]
    exact ⟨he.congr rfl hle rfl rfl rfl rfl rfl rfl, fun i hi => by cases hi⟩
  | some i =>
    dsimp only
    rw [hm]
    obtain ⟨h1, h2⟩ := F.fresh c s.fs i hm
    have he' : Exact F h (s.setFs (F.call c s.fs).2) := he.congr rfl hle rfl rfl rfl rfl rfl rfl
    -- nobody refers to a new object
    have hr := he.refs i
    rw [he.fresh i h1] at hr
    have h0 : holders (s.setFs (F.call c s.fs).2) i = holders s i := rfl
    refine ⟨he'.setRef (.inr h2) ?_ fun j hj => plus_of_ne hj, ?_⟩
    · rw [h0, plus_self]
      omega
    · rintro j hj
      cases hj
      have : s.cache.count i = 0 := by
        unfold holders at hr
        omega
      exact count_eq_zero.1 this

theorem wp_inodePut (he : Exact F (plus h (some i)) s) :
    wp (inodePut F i) (fun _ s' => Exact F h s' ∧ s'.cache = s.cache ∧ ∀ c, s'.key c = s.key c) s := by
  unfold inodePut
  rw [wp_bind, wp_get, if_neg he.live]
  rw [wp_bind, wp_modify]
  by_cases h0 : (s.inodes i).refcount - 1 = 0
  · rw [if_pos h0]
    refine Act.wp_mono (wp_call (.destroy i) (fun _ => rfl) he.drop) fun _ s' ⟨h1, fs, hfs⟩ => ?_
    subst hfs
    exact ⟨h1, rfl, fun c => key_setRef _ c⟩
  · rw [if_neg h0]
    exact ⟨he.drop, rfl, fun c => key_setRef _ c⟩

theorem wp_inodePut_then {α : Type} (he : Exact F (plus h (some i)) s) {k : Unit → M σ α}
    {Q : α → St σ → Prop} (hQ : ∀ s', Exact F h s' → wp (k ⟨⟩) Q s') : wp (inodePut F i >>= k) Q s := by
  rw [wp_bind]
  exact Act.wp_mono (wp_inodePut he) fun _ s' h' => hQ s' h'.1

/-! ## The cache -/

def St.Cached (s : St σ) (i : Nat) : Prop := s.cache.find? (fun j => s.key j = s.key i) = some i

theorem St.Cached.congr {s' : St σ} (hi : s.Cached i) (hc : s'.cache = s.cache) (hk : ∀ c, s'.key c = s.key c) :
    s'.Cached i := by
  unfold St.Cached
  simp only [hc, hk]
  exact hi

variable (he : Exact F h s)

include he

theorem Exact.live_of_mem (hi : i ∈ s.cache) : (s.inodes i).refcount ≠ 0 := by
  have h1 := he.refs i
  have h2 := count_pos_iff.2 hi
  unfold holders at h1
  omega

theorem wp_inodeCacheFind (parent : Nat) (name : Name) : wp (inodeCacheFind parent name)
      (fun r s' => Exact F (plus h r) s' ∧ ∀ i, r = some i → s'.Cached i) s := by
  unfold inodeCacheFind
  by_cases hn : name = []
  · rw [if_pos hn]
    exact ⟨he, fun i hi => by cases hi⟩
  rw [if_neg hn, wp_bind]
  refine wp_slabAlloc fun b f => ?_
  have he' := he.slab f
  cases b
  · exact ⟨he', fun i hi => by cases hi⟩
  simp only [if_not_true]
  by_cases hl : VFS_MAX_PATH_LEN ≤ name.length
  · rw [if_pos hl]
    exact ⟨he', fun i hi => by cases hi⟩
  rw [if_neg hl, wp_bind, wp_get]
  cases hfind : (s.setSlab f).cache.find? fun i => decide ((s.setSlab f).key i = ⟨some parent, name⟩) with
  | none => exact ⟨he', fun i hi => by cases hi⟩
  | some i =>
    have hk : (s.setSlab f).key i = ⟨some parent, name⟩ := by simpa using find?_some hfind
    have hi : (s.setSlab f).Cached i := by
      unfold St.Cached
      rw [hk]
      exact hfind
    refine ⟨he'.get (he'.live_of_mem (mem_of_find?_eq_some hfind)), ?_⟩
    rintro j hj
    cases hj
    exact hi.congr rfl fun c => key_setRef _ c

omit he in
theorem Exact.push (he : Exact F (plus (plus h (s.key i).parent) (some i)) s) :
    Exact F h { s with cache := i :: s.cache } where
  refs j := by
    have h1 := he.refs j
    have h2 := count_cons_one i s.cache j
    have h3 := countP_cons_one s i s.cache j
    show (s.inodes j).refcount = (i :: s.cache).count j + (i :: s.cache).countP (fun c => (s.key c).parent = some j) +
      Refs.count s.nfiles s.fileInode j + Refs.count NTASKS (fun t => (s.tasks t).cwd) j + s.mountRoots.count j + h j
    unfold holders plus at h1
    omega
  fresh := he.fresh
  files := he.files
  current := he.current

omit he in
theorem wp_inodeCacheInsert (he : Exact F (plus h (s.key i).parent) s) (hi : (s.inodes i).refcount ≠ 0) :
    wp (inodeCacheInsert F i)
      (fun r s' => if r = true then Exact F h s' else Exact F (plus h (s.key i).parent) s') s := by
  unfold inodeCacheInsert
  rw [wp_bind, wp_get]
  by_cases hn : (s.key i).name = []
  · rw [if_pos hn]
    exact he
  rw [if_neg hn, wp_bind, wp_inodeGet]
  have he' := he.get hi
  rw [wp_bind, wp_get]
  split_ifs with hany
  · exact wp_inodePut_then he' fun s' h' => h'
  rw [wp_bind]
  refine wp_slabAlloc fun b f => ?_
  cases b
  · exact wp_inodePut_then (he'.slab f) fun s' h' => h'
  refine Exact.push ?_
  have hk : ((s.setRef i ((s.inodes i).refcount + 1)).setSlab f).key i = s.key i := key_setRef _ i
  rw [hk]
  exact he'.slab f

theorem Exact.erase (hi : s.Cached i) : Exact F (plus (plus h (s.key i).parent) (some i))
      { s with cache := s.cache.eraseP fun j => s.key j = s.key i } where
  refs j := by
    have h1 := he.refs j
    obtain ⟨-, as, bs, hcache, has⟩ := find?_eq_some_iff_append.1 hi
    have herase : s.cache.eraseP (fun j => s.key j = s.key i) = as ++ bs := by
      rw [hcache, eraseP_append_right _ (fun a ha => by simpa using has a ha), eraseP_cons_of_pos (by simp)]
    have hperm : s.cache.Perm (i :: (as ++ bs)) := by
      rw [hcache]
      exact perm_middle
    have h2 := (hperm.count_eq j).trans (count_cons_one i _ j)
    have h3 := (hperm.countP_eq fun c => decide ((s.key c).parent = some j)).trans (countP_cons_one s i _ j)
    show (s.inodes j).refcount = List.count j _ + List.countP (fun c => (s.key c).parent = some j) _ +
      Refs.count s.nfiles s.fileInode j + Refs.count NTASKS (fun t => (s.tasks t).cwd) j + s.mountRoots.count j + _
    rw [herase]
    dsimp only
    unfold holders at h1
    unfold plus
    omega
  fresh := he.fresh
  files := he.files
  current := he.current

theorem wp_inodeCacheRemove (hi : s.Cached i) : wp (inodeCacheRemove F i) (fun _ s' => Exact F h s') s := by
  unfold inodeCacheRemove
  rw [wp_bind, wp_get]
  split_ifs with hany
  · rw [wp_bind, wp_modify]
    refine wp_inodePut_then (he.erase hi) fun s' h' => ?_
    revert h'
    cases (s.key i).parent with
    | none => exact fun h' => h'
    | some parent =>
      intro h'
      exact Act.wp_mono (wp_inodePut h') fun _ _ h'' => h''.1
  · exact he

/-! ## Paths -/

omit he in
theorem key_setKey (k : Key) : (s.setKey i k).key i = k := by simp [St.key, St.setKey]

theorem Exact.live_of_pos (hi : 0 < h i) : (s.inodes i).refcount ≠ 0 := by
  have := he.refs i
  omega

omit he in
theorem wp_cacheNew {parent : Nat} {name : Name} (he : Exact F (plus (plus h (some parent)) (some i)) s)
    (hi : i ∉ s.cache) {α : Type} {ok : M σ α} {bad : α} {Q : α → St σ → Prop}
    (hok : ∀ s', Exact F (plus (plus h (some parent)) (some i)) s' → wp ok Q s')
    (hbad : ∀ s', Exact F h s' → Q bad s') :
    wp (do
      modify fun s => s.setKey i ⟨some parent, name⟩
      inodeGet parent
      if !(← inodeCacheInsert F i) then
        inodePut F parent
        inodePut F i
        inodePut F parent
        return bad
      ok) Q s := by
  rw [wp_bind, wp_modify, wp_bind, wp_inodeGet]
  have he1 := he.setKey hi ⟨some parent, name⟩
  have hp : ((s.setKey i ⟨some parent, name⟩).inodes parent).refcount ≠ 0 := by
    refine he1.live_of_pos ?_
    rw [plus_comm, plus_self]
    omega
  have he2 := he1.get hp
  have hk : ∀ n, ((s.setKey i ⟨some parent, name⟩).setRef parent n).key i = ⟨some parent, name⟩ := fun n => by
    rw [key_setRef, key_setKey]
  have hi2 : (((s.setKey i ⟨some parent, name⟩).setRef parent
      (((s.setKey i ⟨some parent, name⟩).inodes parent).refcount + 1)).inodes i).refcount ≠ 0 := by
    refine he2.live_of_pos ?_
    rw [plus_comm, plus_self]
    omega
  refine Act.wp_then (wp_inodeCacheInsert (i := i)
    (h := plus (plus h (some parent)) (some i)) (by rw [hk]; exact he2) hi2) fun r s' hr => ?_
  cases r with
  | true => exact hok s' hr
  | false =>
    rw [hk] at hr
    refine wp_inodePut_then hr fun s₁ h₁ => ?_
    refine wp_inodePut_then h₁ fun s₂ h₂ => ?_
    exact wp_inodePut_then h₂ fun s₃ h₃ => hbad s₃ h₃

omit he in
theorem wp_walk (names : List Name) {current : Nat} (he : Exact F (plus h (some current)) s) :
    wp (walk F names current) (fun r s' => Exact F (plus h r) s') s := by
  induction names generalizing s current with
  | nil => exact he
  | cons name rest ih =>
    unfold walk
    split_ifs with hl
    · exact wp_inodePut_then he fun s' h' => h'
    rw [wp_bind]
    refine wp_mayI fun b => ?_
    cases b
    · exact wp_inodePut_then he fun s' h' => h'
    simp only [if_not_true]
    refine Act.wp_then (wp_inodeCacheFind he current name) fun r s₁ ⟨h₁, _⟩ => ?_
    cases r with
    | some next =>
      rw [plus_comm] at h₁
      exact wp_inodePut_then h₁ fun s' h' => ih h'
    | none =>
      rw [plus_none] at h₁
      dsimp only
      refine Act.wp_then (wp_call_made (.lookup current name) h₁) fun r s₂ ⟨h₂, hnew⟩ => ?_
      cases r with
      | none => exact wp_inodePut_then h₂ fun s' h' => h'
      | some next =>
        refine wp_cacheNew h₂ (hnew next rfl) (fun s₃ h₃ => ?_) fun s₃ h₃ => h₃
        rw [plus_comm] at h₃
        exact wp_inodePut_then h₃ fun s' h' => ih h'

theorem Exact.live_of_holder (hi : 0 < holders s i) : (s.inodes i).refcount ≠ 0 := by
  have := he.refs i
  omega

theorem Exact.live_root {m : Mount} (hm : s.mount = some m) (path : Name) :
    (s.inodes (m.find path).2).refcount ≠ 0 := by
  refine he.live_of_holder ?_
  have h1 : (m.find path).2 ∈ s.mountRoots := by
    unfold St.mountRoots
    rw [hm]
    exact m.find_mem path
  have h2 := count_pos_iff.2 h1
  unfold holders
  omega

theorem Exact.live_cwd {t : Nat} (ht : t < NTASKS) (hc : (s.tasks t).cwd = some i) : (s.inodes i).refcount ≠ 0 := by
  refine he.live_of_holder ?_
  have h1 : 0 < Refs.count NTASKS (fun t => (s.tasks t).cwd) i := Refs.count_pos ht hc
  unfold holders
  omega

theorem wp_lookupImpl (path : Name) : wp (lookupImpl F path) (fun r s' => Exact F (plus h r) s') s := by
  unfold lookupImpl
  rw [wp_bind, wp_get]
  dsimp only
  generalize hst : (if path.head? = some slash then
      s.mount.map fun m => ((m.find path).2, path.drop (m.find path).1.length)
    else s.task.cwd.map fun cwd => (cwd, path)) = start
  have hlive : ∀ r, start = some r → (s.inodes r.1).refcount ≠ 0 := by
    rintro r rfl
    split_ifs at hst with hs
    · obtain ⟨m, hm, rfl⟩ := map_eq_some_iff.1 hst
      exact he.live_root hm path
    · obtain ⟨cwd, hc, rfl⟩ := map_eq_some_iff.1 hst
      exact he.live_cwd he.current hc
  cases start with
  | none => exact he
  | some r =>
    obtain ⟨current, relative⟩ := r
    have he1 := he.get (hlive _ rfl)
    dsimp only
    generalize (if relative.head? = some slash then relative.tail else relative) = relative
    rw [wp_bind, wp_inodeGet]
    split_ifs with h0
    · exact he1
    rw [wp_bind]
    refine wp_slabAlloc fun b f => ?_
    cases b
    · exact wp_inodePut_then (he1.slab f) fun s' h' => h'
    · exact wp_walk _ (he1.slab f)

theorem wp_lookup (path : Name) : wp (lookup F path) (fun r s' => Exact F (plus h r) s') s := by
  unfold lookup
  rw [wp_bind]
  refine wp_slabAlloc fun b f => ?_
  cases b
  · exact he.slab f
  simp only [if_not_true]
  rw [wp_bind, wp_get]
  cases normalize path (s.setSlab f).task.cwd_path with
  | none => exact he.slab f
  | some path => exact wp_lookupImpl (he.slab f) path

theorem wp_lookupParent (path : Name) :
    wp (lookupParent F path) (fun r s' => Exact F (plus h (r.map Prod.fst)) s') s := by
  unfold lookupParent
  rw [wp_bind]
  refine wp_slabAlloc fun b f => ?_
  cases b
  · exact he.slab f
  simp only [if_not_true]
  rw [wp_bind, wp_get]
  cases normalize path (s.setSlab f).task.cwd_path with
  | none => exact he.slab f
  | some path =>
    dsimp only
    cases splitParent path with
    | none => exact he.slab f
    | some r =>
      obtain ⟨parent_path, name⟩ := r
      dsimp only
      rw [wp_bind]
      refine wp_slabAlloc fun b f' => ?_
      cases b
      · exact (he.slab f).slab f'
      simp only [if_not_true]
      refine Act.wp_then (wp_lookup ((he.slab f).slab f') parent_path) fun r s' h' => ?_
      cases r with
      | none => exact h'
      | some parent => exact h'

/-! ## Directories -/

theorem wp_enterParent (path : Name) :
    wp (enterParent F path) (fun r s' => Exact F (plus h (r.map Prod.fst)) s') s := by
  unfold enterParent
  rw [wp_bind]
  refine wp_slabAlloc fun b f => ?_
  cases b
  · exact he.slab f
  simp only [if_not_true]
  refine Act.wp_then (wp_lookupParent (he.slab f) path) fun r s₁ h₁ => ?_
  cases r with
  | none => exact h₁
  | some r =>
    obtain ⟨parent, name⟩ := r
    dsimp only
    rw [wp_bind]
    refine wp_attrOf fun a => ?_
    split_ifs with hdir
    · exact wp_inodePut_then h₁ fun s' h' => h'
    rw [wp_bind]
    refine wp_mayI fun b => ?_
    cases b
    · exact wp_inodePut_then h₁ fun s' h' => h'
    · exact h₁

omit he in
theorem wp_adopt {parent new_inode : Nat} (name : Name) (mode : Nat)
    (he : Exact F (plus (plus h (some parent)) (some new_inode)) s) (hi : new_inode ∉ s.cache) :
    wp (adopt F parent name mode new_inode)
      (fun r s' => if r = true then Exact F (plus (plus h (some parent)) (some new_inode)) s' else Exact F h s') s := by
  unfold adopt
  rw [wp_bind]
  refine wp_attrOf fun a => ?_
  rw [wp_bind, wp_get]
  refine Act.wp_then (wp_call (.setattr _ _ _ _) (fun _ => rfl) he) fun _ s₁ ⟨h₁, fs, hfs⟩ => ?_
  subst hfs
  exact wp_cacheNew h₁ hi (fun s' h' => h') fun s' h' => h'

theorem wp_enterNew {α : Type} {bad : α} {k : Nat → Name → M σ α} {Q : α → St σ → Prop} (path : Name)
    (hbad : ∀ s', Exact F h s' → Q bad s')
    (hk : ∀ parent name s₁, Exact F (plus h (some parent)) s₁ → wp (k parent name) Q s₁) :
    wp (do
      let some (parent, name) ← enterParent F path | return bad
      if let some exist ← inodeCacheFind parent name then
        inodePut F exist
        inodePut F parent
        return bad
      k parent name) Q s := by
  refine Act.wp_then (wp_enterParent he path) fun r s₁ h₁ => ?_
  cases r with
  | none => exact hbad s₁ h₁
  | some r =>
    obtain ⟨parent, name⟩ := r
    dsimp only
    refine Act.wp_then (wp_inodeCacheFind h₁ parent name) fun r s₂ ⟨h₂, _⟩ => ?_
    cases r with
    | some exist => exact wp_inodePut_then h₂ fun s' h' => wp_inodePut_then h' fun s' h' => hbad s' h'
    | none => exact hk parent name s₂ h₂

theorem wp_create (path : Name) (mode : Nat) : wp (create F path mode) (fun r s' => Exact F (plus h r) s') s := by
  unfold create
  refine wp_enterNew he path (fun s' h' => h') fun parent name s₂ h₂ => ?_
  refine Act.wp_then (wp_call_made (.create _ _ _) h₂) fun r s₃ ⟨h₃, hnew⟩ => ?_
  cases r with
  | none => exact wp_inodePut_then h₃ fun s' h' => h'
  | some new_inode =>
    dsimp only
    refine Act.wp_then (wp_adopt name _ h₃ (hnew _ rfl)) fun r s4 h4 => ?_
    cases r with
    | false => exact h4
    | true =>
      have h4 : Exact F (plus (plus h (some parent)) (some new_inode)) s4 := h4
      simp only [if_not_true]
      rw [wp_bind, wp_inodeGet]
      refine wp_inodePut_then (h4.get h4.live) fun s' h' => ?_
      rw [plus_comm] at h'
      exact wp_inodePut_then h' fun s' h' => h'

theorem wp_mkdir (path : Name) (mode : Nat) : wp (mkdir F path mode) (fun _ s' => Exact F h s') s := by
  unfold mkdir
  refine wp_enterNew he path (fun s' h' => h') fun parent name s₂ h₂ => ?_
  refine Act.wp_then (wp_call_made (.mkdir _ _ _) h₂) fun r s₃ ⟨h₃, hnew⟩ => ?_
  cases r with
  | none => exact wp_inodePut_then h₃ fun s' h' => h'
  | some new_inode =>
    dsimp only
    refine Act.wp_then (wp_adopt name _ h₃ (hnew _ rfl)) fun r s4 h4 => ?_
    cases r with
    | false => exact h4
    | true => exact wp_inodePut_then h4 fun s' h' => wp_inodePut_then h' fun s' h' => h'

theorem wp_remove (path : Name) (ok : Nat → Bool) {op : Nat → Name → M σ Bool} (hop : ∀ {h s} parent name, Exact F h s →
      wp (op parent name) (fun _ s' => Exact F h s' ∧ ∃ fs, s' = s.setFs fs) s) :
    wp (remove F path ok op) (fun _ s' => Exact F h s') s := by
  unfold remove
  refine Act.wp_then (wp_enterParent he path) fun r s₁ h₁ => ?_
  cases r with
  | none => exact h₁
  | some r =>
    obtain ⟨parent, name⟩ := r
    dsimp only
    refine Act.wp_then (wp_inodeCacheFind h₁ parent name) fun r s₂ ⟨h₂, hc⟩ => ?_
    cases r with
    | none => exact wp_inodePut_then h₂ fun s' h' => h'
    | some i =>
      dsimp only
      rw [wp_bind]
      refine wp_attrOf fun a => ?_
      split_ifs with hok
      · exact wp_inodePut_then h₂ fun s' h' => wp_inodePut_then h' fun s' h' => h'
      refine Act.wp_then (hop parent name h₂) fun r s₃ ⟨h₃, fs, hfs⟩ => ?_
      subst hfs
      cases r with
      | false => exact wp_inodePut_then h₃ fun s' h' => wp_inodePut_then h' fun s' h' => h'
      | true =>
        have hc3 : (s₂.setFs fs).Cached i := (hc i rfl).congr rfl fun _ => rfl
        simp only [if_not_true]
        refine Act.wp_then (wp_inodeCacheRemove h₃ hc3) fun _ s4 h4 => ?_
        exact wp_inodePut_then h4 fun s' h' => wp_inodePut_then h' fun s' h' => h'

theorem wp_unlink (path : Name) : wp (unlink F path) (fun _ s' => Exact F h s') s :=
  wp_remove he path _ fun _ _ he => wp_call (.unlink _ _) (fun _ => rfl) he

theorem wp_rmdir (path : Name) : wp (rmdir F path) (fun _ s' => Exact F h s') s :=
  wp_remove he path _ fun _ _ he => wp_call (.rmdir _ _) (fun _ => rfl) he

theorem wp_truncate (i size : Nat) : wp (truncate F i size) (fun _ s' => Exact F h s') s := by
  unfold truncate
  rw [wp_bind]
  refine wp_mayI fun b => ?_
  cases b
  · exact he
  · exact Act.wp_mono (wp_call (.truncate _ _) (fun _ => rfl) he) fun _ _ h' => h'.1

/-! ## Open files -/

variable {file : File}

theorem Exact.lt_nfiles {f : Nat} (hf : s.files f = some file) : f < s.nfiles := by
  by_contra hlt
  rw [he.files f (Nat.not_lt.1 hlt)] at hf
  cases hf

theorem Exact.setFile {h' : Nat → Nat} {f : Nat} {file : Option File} (hf : f < s.nfiles)
    (hh : ∀ j, h' j + Refs.one (file.bind (·.target.inode?)) j = h j + Refs.one (s.fileInode f) j) :
    Exact F h' (s.setFile f file) where
  refs j := by
    have h1 := he.refs j
    have h2 : Refs.count s.nfiles (s.setFile f file).fileInode j + Refs.one (s.fileInode f) j =
        Refs.count s.nfiles s.fileInode j + Refs.one (file.bind (·.target.inode?)) j := by
      refine Refs.count_update hf _ fun g _ => ?_
      unfold St.fileInode St.setFile
      by_cases hg : g = f
      · subst hg
        simp
      · simp [hg]
    have h3 := hh j
    show (s.inodes j).refcount = s.cache.count j + s.cache.countP (fun c => (s.key c).parent = some j) +
      Refs.count s.nfiles (s.setFile f file).fileInode j + Refs.count NTASKS (fun t => (s.tasks t).cwd) j +
      s.mountRoots.count j + h' j
    unfold holders at h1
    omega
  fresh := he.fresh
  files g hg := by
    have hg : s.nfiles ≤ g := hg
    show update s.files f file g = none
    rw [update_of_ne (by omega)]
    exact he.files g hg
  current := he.current

theorem Exact.countGet (f : Nat) : Exact F h (s.countGet f) :=
  he.congr rfl le_rfl rfl rfl rfl rfl rfl rfl

theorem Exact.countClose (f : Nat) : Exact F h (s.countClose f) :=
  he.congr rfl le_rfl rfl rfl rfl rfl rfl rfl

theorem Exact.setFile_same {f : Nat} {file file' : File} (hf : s.files f = some file)
    (ht : file'.target = file.target) : Exact F h (s.setFile f (some file')) := by
  refine he.setFile (he.lt_nfiles hf) fun j => ?_
  unfold St.fileInode
  rw [hf]
  show _ + Refs.one file'.target.inode? j = _ + Refs.one file.target.inode? j
  rw [ht]

theorem Exact.setFile_none {f : Nat} (hf : s.files f = some file) :
    Exact F (plus h file.target.inode?) (s.setFile f none) := by
  refine he.setFile (he.lt_nfiles hf) fun j => ?_
  unfold St.fileInode
  rw [hf]
  rfl

omit he in
theorem inodePut_eq (s : St σ) (i : Nat) : inodePut F i s = (⟨⟩, if (s.inodes i).refcount = 0 then s
    else if (s.inodes i).refcount - 1 = 0 then
      (s.setRef i ((s.inodes i).refcount - 1)).setFs (F.call (.destroy i) s.fs).2
    else s.setRef i ((s.inodes i).refcount - 1)) := by
  show (if (s.inodes i).refcount = 0 then _ else _ : M σ Unit) s = _
  by_cases h0 : (s.inodes i).refcount = 0
  · rw [if_pos h0, if_pos h0]
    rfl
  rw [if_neg h0, if_neg h0]
  show (if (s.inodes i).refcount - 1 = 0 then _ else _ : M σ Unit) (s.setRef i ((s.inodes i).refcount - 1)) = _
  by_cases h1 : (s.inodes i).refcount - 1 = 0
  · rw [if_pos h1, if_pos h1]
    rfl
  · rw [if_neg h1, if_neg h1]
    rfl

omit he in
theorem inodePut_setFile (f : Nat) (x : Option File) :
    (inodePut F i (s.setFile f x)).2 = (inodePut F i s).2.setFile f x := by
  rw [inodePut_eq, inodePut_eq]
  show (if (s.inodes i).refcount = 0 then _ else if (s.inodes i).refcount - 1 = 0 then _ else _) = _
  split_ifs <;> rfl

theorem wp_freeFile {f : Nat} (hf : s.files f = some file) {α : Type}
    {k : Unit → M σ α} {Q : α → St σ → Prop} (hQ : ∀ s', Exact F h s' → wp (k ⟨⟩) Q s') :
    wp (do
      match file.target.inode? with
      | some i => inodePut F i
      | none => pure ⟨⟩
      modify fun s => s.setFile f none
      k ⟨⟩) Q s := by
  have he' := he.setFile_none hf
  revert he'
  cases file.target.inode? with
  | none =>
    intro he'
    exact hQ _ he'
  | some i =>
    intro he'
    show wp (k ⟨⟩) Q ((inodePut F i s).2.setFile f none)
    rw [← inodePut_setFile]
    exact hQ _ (wp_inodePut he').1

theorem Exact.fileGet (f : Nat) :
    Exact F h ((s.setFile f ((s.files f).map fun file => { file with refcount := file.refcount + 1 })).countGet f) := by
  refine Exact.countGet ?_ f
  cases hf : s.files f with
  | none =>
    have : s.setFile f none = s := by
      unfold St.setFile
      rw [← hf, update_eq_self]
    rw [map_none, this]
    exact he
  | some file => exact he.setFile_same hf rfl

theorem wp_filePut (f : Nat) : wp (filePut F f) (fun _ s' => Exact F h s') s := by
  unfold filePut
  rw [wp_bind, wp_get]
  cases hf : s.files f with
  | none => exact he
  | some file =>
    dsimp only
    rw [wp_bind, wp_modify]
    have he' : Exact F h (s.setFile f (some { file with refcount := file.refcount - 1 })) := he.setFile_same hf rfl
    split_ifs with h0
    · refine Act.wp_then (wp_call (.close _) (fun _ => rfl) he') fun _ s₁ ⟨h₁, fs, hfs⟩ => ?_
      subst hfs
      rw [wp_bind, wp_modify]
      have hf' : (s.setFile f (some { file with refcount := file.refcount - 1 })).files f = some _ :=
        update_self ..
      exact wp_freeFile (k := pure) (h₁.countClose f) hf' fun s' h' => h'
    · exact he'

theorem Exact.setTask {h' : Nat → Nat} {t : Nat} {task : Task} (ht : t < NTASKS)
    (hh : ∀ j, h' j + Refs.one task.cwd j = h j + Refs.one (s.tasks t).cwd j) : Exact F h' (s.setTask t task) where
  refs j := by
    have h1 := he.refs j
    have h2 : Refs.count NTASKS (fun u => ((s.setTask t task).tasks u).cwd) j + Refs.one (s.tasks t).cwd j =
        Refs.count NTASKS (fun u => (s.tasks u).cwd) j + Refs.one task.cwd j := by
      refine @Refs.count_update NTASKS t j (fun u => (s.tasks u).cwd) _ ht _ fun u _ => ?_
      unfold St.setTask
      by_cases hu : u = t
      · subst hu
        simp
      · simp [hu]
    have h3 := hh j
    show (s.inodes j).refcount = s.cache.count j + s.cache.countP (fun c => (s.key c).parent = some j) +
      Refs.count s.nfiles s.fileInode j + Refs.count NTASKS (fun u => ((s.setTask t task).tasks u).cwd) j +
      s.mountRoots.count j + h' j
    unfold holders at h1
    omega
  fresh := he.fresh
  files := he.files
  current := he.current

omit he in
theorem wp_setFd {fd : Nat} {f : Option Nat} {Q : Unit → St σ → Prop} : wp (setFd fd f) Q s ↔
      Q ⟨⟩ (s.setTask s.current { s.task with ofile := update s.task.ofile fd f }) := Iff.rfl

omit he in
theorem wp_newFile {Q : Nat → St σ → Prop} :
    wp (newFile file) Q s ↔ Q s.nfiles { s.setFile s.nfiles (some file) with nfiles := s.nfiles + 1 } := Iff.rfl

theorem Exact.setFd (fd : Nat) (f : Option Nat) :
    Exact F h (s.setTask s.current { s.task with ofile := update s.task.ofile fd f }) :=
  he.setTask he.current fun _ => rfl

theorem wp_fdAlloc (f : Nat) : wp (fdAlloc f) (fun r s' => Exact F h s' ∧ (r = none → s' = s)) s := by
  unfold fdAlloc
  rw [wp_bind, wp_get]
  dsimp only
  cases (List.range NOFILE).find? fun fd => decide (s.task.ofile fd = none) with
  | none => exact ⟨he, fun _ => rfl⟩
  | some fd => exact ⟨(he.setFd fd (some f)).fileGet f, fun hr => by cases hr⟩

theorem wp_fdGet (fd : Nat) : wp (fdGet fd) (fun _ s' => Exact F h s') s := by
  unfold fdGet
  split_ifs with hfd
  · exact he
  rw [wp_bind, wp_get]
  cases s.task.ofile fd with
  | none => exact he
  | some f => exact he.fileGet f

theorem wp_dup (oldfd : Nat) : wp (dup F oldfd) (fun _ s' => Exact F h s') s := by
  unfold dup
  refine Act.wp_then (wp_fdGet he oldfd) fun r s₁ h₁ => ?_
  cases r with
  | none => exact h₁
  | some f =>
    dsimp only
    refine Act.wp_then (wp_fdAlloc h₁ f) fun newfd s₂ ⟨h₂, _⟩ => ?_
    rw [wp_bind]
    exact Act.wp_mono (wp_filePut h₂ f) fun _ _ h' => h'

theorem wp_fdClose (fd : Nat) : wp (fdClose F fd) (fun _ s' => Exact F h s') s := by
  unfold fdClose
  split_ifs with hfd
  · exact he
  rw [wp_bind, wp_get]
  cases s.task.ofile fd with
  | none => exact he
  | some f =>
    dsimp only
    rw [wp_bind, wp_setFd, wp_bind]
    exact Act.wp_mono (wp_filePut (he.setFd fd none) f) fun _ _ h' => h'

omit he in
theorem Exact.newFile (he : Exact F (plus h file.target.inode?) s) :
    Exact F h { s.setFile s.nfiles (some file) with nfiles := s.nfiles + 1 } where
  refs j := by
    have h1 := he.refs j
    have h2 : Refs.count (s.nfiles + 1) (s.setFile s.nfiles (some file)).fileInode j =
        Refs.count s.nfiles s.fileInode j + Refs.one file.target.inode? j := by
      rw [Refs.count_succ]
      congr 1
      · refine Refs.count_congr fun g hg => ?_
        unfold St.fileInode St.setFile
        simp [hg.ne]
      · unfold St.fileInode St.setFile
        simp
    show (s.inodes j).refcount = s.cache.count j + s.cache.countP (fun c => (s.key c).parent = some j) +
      Refs.count (s.nfiles + 1) (s.setFile s.nfiles (some file)).fileInode j +
      Refs.count NTASKS (fun t => (s.tasks t).cwd) j + s.mountRoots.count j + h j
    unfold holders plus at h1
    omega
  fresh := he.fresh
  files g hg := by
    have hg : s.nfiles + 1 ≤ g := hg
    show update s.files s.nfiles (some file) g = none
    rw [update_of_ne (by omega)]
    exact he.files g (by omega)
  current := he.current

omit he in
theorem wp_install (he : Exact F (plus h file.target.inode?) s) : wp (install F file) (fun _ s' => Exact F h s') s := by
  unfold install
  rw [wp_bind, wp_newFile]
  refine Act.wp_then (wp_fdAlloc he.newFile s.nfiles) fun r s' ⟨h', hnone⟩ => ?_
  cases r with
  | some fd => exact h'
  | none =>
    have hs := hnone rfl
    subst hs
    exact wp_freeFile (k := fun _ => pure none) h' (update_self ..) fun s' h' => h'

theorem wp_openInode (path : Name) (flags : Nat) :
    wp (openInode F path flags) (fun r s' => Exact F (plus h r) s') s := by
  unfold openInode
  by_cases hc : has flags O_CREAT = true
  · rw [if_pos hc]
    refine Act.wp_then (wp_lookup he path) fun r s₁ h₁ => ?_
    cases r with
    | none => exact wp_create h₁ path _
    | some i =>
      dsimp only
      split_ifs with hx
      · exact wp_inodePut_then h₁ fun s' h' => h'
      · exact h₁
  · rw [if_neg hc]
    exact wp_lookup he path

theorem wp_prepare (i flags : Nat) : wp (prepare F i flags) (fun _ s' => Exact F h s') s := by
  unfold prepare
  rw [wp_bind]
  refine wp_attrOf fun a => ?_
  by_cases hd : (has flags O_DIRECTORY && decide (ifmt a.mode ≠ S_IFDIR)) = true
  · rw [if_pos hd]
    exact he
  rw [if_neg hd]
  cases accessMask flags with
  | none => exact he
  | some mask =>
    dsimp only
    rw [wp_bind]
    refine wp_mayI fun b => ?_
    cases b
    · exact he
    simp only [if_not_true]
    split_ifs with ht hro
    · exact he
    · refine Act.wp_then (wp_truncate he i 0) fun r s' h' => ?_
      cases r <;> exact h'
    · exact he

theorem wp_openPath (path : Name) (flags : Nat) : wp (openPath F path flags) (fun _ s' => Exact F h s') s := by
  unfold openPath
  by_cases hdev : path.take 5 = devDir
  · rw [if_pos hdev]
    cases F.device (path.drop 5) with
    | none => exact he
    | some d =>
      dsimp only
      refine Act.wp_then (wp_call (.devOpen d flags) (fun _ => rfl) he) fun r s₁ ⟨h₁, _⟩ => ?_
      cases r with
      | false => exact h₁
      | true =>
        simp only [if_not_true]
        rw [wp_bind]
        refine wp_slabAlloc fun b f => ?_
        cases b
        · exact h₁.slab f
        · exact wp_install (h₁.slab f)
  · rw [if_neg hdev]
    refine Act.wp_then (wp_openInode he path flags) fun r s₁ h₁ => ?_
    cases r with
    | none => exact h₁
    | some i =>
      dsimp only
      refine Act.wp_then (wp_prepare h₁ i flags) fun r s₂ h₂ => ?_
      cases r with
      | false => exact wp_inodePut_then h₂ fun s' h' => h'
      | true =>
        simp only [if_not_true]
        rw [wp_bind]
        refine wp_slabAlloc fun b f => ?_
        cases b
        · exact wp_inodePut_then (h₂.slab f) fun s' h' => h'
        simp only [if_not_true]
        rw [wp_bind]
        refine wp_attrOf fun a => ?_
        exact wp_install (h₂.slab f)

/-! ## Working directories -/

theorem wp_setCwd (path : Name) : wp (setCwd F path) (fun _ s' => Exact F h s') s := by
  unfold setCwd
  rw [wp_bind]
  refine wp_slabAlloc fun b f => ?_
  cases b
  · exact he.slab f
  simp only [if_not_true]
  rw [wp_bind, wp_get]
  generalize buildUserPath path (s.setSlab f).task.cwd_path = normalized
  split_ifs with hn
  · exact he.slab f
  refine Act.wp_then (wp_lookup (he.slab f) normalized) fun r s₁ h₁ => ?_
  cases r with
  | none => exact h₁
  | some i =>
    dsimp only
    rw [wp_bind]
    refine wp_attrOf fun a => ?_
    split_ifs with hdir
    · exact wp_inodePut_then h₁ fun s' h' => h'
    rw [wp_bind, wp_get, wp_bind, wp_modify]
    have h₂ : Exact F (plus h s₁.task.cwd)
        (s₁.setTask s₁.current { s₁.task with cwd := some i, cwd_path := normalized }) :=
      h₁.setTask h₁.current fun j => by
        unfold plus St.task
        dsimp only
        omega
    revert h₂
    generalize s₁.setTask s₁.current { s₁.task with cwd := some i, cwd_path := normalized } = s₂
    cases s₁.task.cwd with
    | none =>
      intro h₂
      exact h₂
    | some old =>
      intro h₂
      exact wp_inodePut_then h₂ fun s' h' => h'

end Rules

/-! ## Runs -/

inductive RefCall where
  | lookup (path : Name)
  | openPath (path : Name) (flags : Nat)
  | create (path : Name) (mode : Nat)
  | mkdir (path : Name) (mode : Nat)
  | unlink (path : Name)
  | rmdir (path : Name)
  | truncate (i size : Nat)
  | close (fd : Nat)
  | dup (fd : Nat)
  | setCwd (path : Name)
  | put (i : Nat)

variable (F) in
def RefCall.run : RefCall → M σ (Option Nat)
  | .lookup path => Vfs.lookup F path
  | .openPath path flags => do
    let _ ← Vfs.openPath F path flags
    return none
  | .create path mode => Vfs.create F path mode
  | .mkdir path mode => do
    let _ ← Vfs.mkdir F path mode
    return none
  | .unlink path => do
    let _ ← Vfs.unlink F path
    return none
  | .rmdir path => do
    let _ ← Vfs.rmdir F path
    return none
  | .truncate i size => do
    let _ ← Vfs.truncate F i size
    return none
  | .close fd => do
    let _ ← fdClose F fd
    return none
  | .dup fd => do
    let _ ← Vfs.dup F fd
    return none
  | .setCwd path => do
    let _ ← Vfs.setCwd F path
    return none
  | .put i => do
    inodePut F i
    return none

/-- The reference that the caller gives up. -/
def RefCall.gives : RefCall → Option Nat
  | .put i => some i
  | _ => none

theorem RefCall.run_exact (c : RefCall) (he : Exact F (plus h c.gives) s) :
    Act.wp (c.run F) (fun r s' => Exact F (plus h r) s') s := by
  cases c with
  | lookup path => exact wp_lookup he path
  | openPath path flags => exact wp_openPath he path flags
  | create path mode => exact wp_create he path mode
  | mkdir path mode => exact wp_mkdir he path mode
  | unlink path => exact wp_unlink he path
  | rmdir path => exact wp_rmdir he path
  | truncate i size => exact wp_truncate he i size
  | close fd => exact wp_fdClose he fd
  | dup fd => exact wp_dup he fd
  | setCwd path => exact wp_setCwd he path
  | put i => exact (wp_inodePut he).1

structure Refd (σ : Type) where
  st : St σ
  held : Nat → Nat

variable (F) in
/-- Task `e.1` makes the call `e.2`. A caller only gives up what it holds. -/
def RefStep (x : Refd σ) (e : Nat × RefCall) (x' : Refd σ) : Prop :=
  ∃ h r, e.1 < NTASKS ∧ x.held = plus h e.2.gives ∧
    e.2.run F { x.st with current := e.1 } = (r, x'.st) ∧ x'.held = plus h r

theorem RefStep.exact {x x' : Refd σ} {e : Nat × RefCall} (hs : RefStep F x e x') (he : Exact F x.held x.st) :
    Exact F x'.held x'.st := by
  obtain ⟨h, r, ht, hh, hrun, hh'⟩ := hs
  have he' : Exact F x.held { x.st with current := e.1 } :=
    ⟨he.refs, he.fresh, he.files, ht⟩
  rw [hh] at he'
  rw [hh']
  exact Act.run_of_wp (Q := fun r s' => Exact F (plus h r) s') (e.2.run_exact he') hrun

/-- In every run, from a state in which the counts are exact, they stay exact: an
inode's count is the number of its holders, so an inode is freed exactly when the
last of them is gone. -/
theorem refs_run_exact {x x' : Refd σ} {es : List (Nat × RefCall)} (he : Exact F x.held x.st)
    (hrun : Run (RefStep F) x es x') :
    (∀ i, (x'.st.inodes i).refcount = holders x'.st i + x'.held i) ∧
      ∀ i, (x'.st.inodes i).refcount = 0 ↔ holders x'.st i = 0 ∧ x'.held i = 0 := by
  have h' : Exact F x'.held x'.st := by
    induction hrun with
    | nil => exact he
    | cons hs _ ih => exact ih (hs.exact he)
  refine ⟨h'.refs, fun i => ?_⟩
  rw [h'.refs i]
  exact Nat.add_eq_zero_iff

def directHolders (s : St σ) (i : Nat) : Nat :=
  s.cache.count i + Refs.count s.nfiles s.fileInode i + Refs.count NTASKS (fun t => (s.tasks t).cwd) i +
    s.mountRoots.count i

end

namespace Sample

/-- The sample volume mounted on `/`: the superblock and the cache hold its root. -/
def boot : St Ext2.St where
  fs := Ext2.Sample.st
  inodes i := if i = 1 then ⟨2, ⟨none, [47]⟩⟩ else ⟨0, ⟨none, []⟩⟩
  cache := [1]
  files _ := none
  nfiles := 0
  tasks _ := ⟨.initlized, 0, ⟨0, 0, []⟩, none, [47], fun _ => none⟩
  current := 0
  pid_counter := 1
  mount := some (.mk [47] 1 [])
  slab _ := true
  gets _ := 0
  closes _ := 0

theorem holders_boot (i : Nat) : holders boot i = if i = 1 then 2 else 0 := by
  have h1 : ∀ n, Refs.count n (fun _ => none) i = 0 := fun n => Finset.sum_eq_zero fun _ _ => rfl
  show [1].count i + [1].countP (fun c => (boot.key c).parent = some i) + Refs.count 0 (fun _ => none) i +
    Refs.count NTASKS (fun _ => none) i + [1].count i = _
  rw [h1, h1]
  by_cases hi : i = 1
  · subst hi
    decide
  · rw [if_neg hi]
    have hk : (boot.key 1).parent = none := rfl
    simp [hk, Ne.symm hi]

theorem exact_boot : Exact (ext2 Ext2.Sample.layout.fs) (fun _ => 0) boot where
  refs i := by
    rw [holders_boot]
    show (if i = 1 then (⟨2, ⟨none, [47]⟩⟩ : Inode) else ⟨0, ⟨none, []⟩⟩).refcount = _
    split_ifs <;> rfl
  fresh i hi := by
    have hi : 2 ≤ i := hi
    show (if i = 1 then (⟨2, ⟨none, [47]⟩⟩ : Inode) else ⟨0, ⟨none, []⟩⟩).refcount = _
    rw [if_neg (by omega)]
  files _ _ := rfl
  current := by decide

def found : St Ext2.St := (lookup (ext2 Ext2.Sample.layout.fs) [47, 102] boot).2

set_option maxRecDepth 100000

theorem lookup_boot : (lookup (ext2 Ext2.Sample.layout.fs) [47, 102] boot).1 = some 2 := by decide

theorem found_step : RefStep (ext2 Ext2.Sample.layout.fs) ⟨boot, fun _ => 0⟩ (0, .lookup [47, 102])
    ⟨found, plus (fun _ => 0) (some 2)⟩ :=
  ⟨fun _ => 0, some 2, by decide, rfl, Prod.ext lookup_boot rfl, rfl⟩

theorem lookup_refs_exact : (lookup (ext2 Ext2.Sample.layout.fs) [47, 102] boot).1 = some 2 ∧
    ∀ i, (found.inodes i).refcount = holders found i + plus (fun _ => 0) (some 2) i :=
  ⟨lookup_boot, (refs_run_exact exact_boot (.one found_step)).1⟩

/-- The root of the volume is held by the mount, by the cache, and by the key of
`/f` in the cache, which is not the reference of any of its direct holders. -/
theorem lookup_holds_parent : (∀ i, (boot.inodes i).refcount = directHolders boot i) ∧
    Run (RefStep (ext2 Ext2.Sample.layout.fs)) ⟨boot, fun _ => 0⟩ [(0, .lookup [47, 102])]
      ⟨found, plus (fun _ => 0) (some 2)⟩ ∧
    (found.inodes 1).refcount = 3 ∧ directHolders found 1 + plus (fun _ => 0) (some 2) 1 = 2 := by
  refine ⟨fun i => ?_, .one found_step, by decide, by decide⟩
  rw [exact_boot.refs i]
  have hk : (boot.key 1).parent = none := rfl
  show [1].count i + [1].countP (fun c => (boot.key c).parent = some i) + _ + _ + _ + 0 = [1].count i + _ + _ + _
  simp [hk]

end Sample

end Vfs
