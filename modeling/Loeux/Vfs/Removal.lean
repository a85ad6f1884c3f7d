import Loeux.Vfs.Access
import Loeux.Ext2.Remove
/-!
# Removing entries by path

`vfs_unlink` and `vfs_rmdir` walk to the parent directory and then take the
inode of the entry from the cache. They never ask the file system for it, so an
entry that was not looked up before cannot be removed.
-/
open Lib Act List

namespace Vfs

section

variable {fs : Ext2.Fs} {s s' s'' : St Ext2.St} {i p : Nat} {name : Name}

def St.cached {σ : Type} (s : St σ) (parent : Nat) (name : Name) : Option Nat :=
  s.cache.find? fun i => s.key i = ⟨some parent, name⟩

/-- The object reached from `i` with every component found in the cache. -/
def St.cachedWalk {σ : Type} (s : St σ) : List Name → Nat → Option Nat
  | [], i => some i
  | name :: rest, i => (s.cached i name).bind (s.cachedWalk rest)

/-! ## Steps that leave the tree alone -/

/-- Only reference counts and the allocator's answers may differ. -/
structure Calm (s s' : St Ext2.St) : Prop where
  fs : s'.fs = s.fs
  cache : s'.cache = s.cache
  key : ∀ i, s'.key i = s.key i
  mount : s'.mount = s.mount
  task : s'.task = s.task
  slab : (∀ k, s.slab k = true) → ∀ k, s'.slab k = true

theorem Calm.refl (s : St Ext2.St) : Calm s s := ⟨rfl, rfl, fun _ => rfl, rfl, rfl, id⟩

theorem Calm.trans (h : Calm s s') (h' : Calm s' s'') : Calm s s'' :=
  ⟨h'.fs.trans h.fs, h'.cache.trans h.cache, fun i => (h'.key i).trans (h.key i), h'.mount.trans h.mount,
    h'.task.trans h.task, fun hs => h'.slab (h.slab hs)⟩

theorem calm_setRef (s : St Ext2.St) (i n : Nat) : Calm s (s.setRef i n) :=
  ⟨rfl, rfl, fun c => key_setRef n c, rfl, rfl, id⟩

theorem calm_slab (s : St Ext2.St) : Calm s (s.setSlab fun n => s.slab (n + 1)) :=
  ⟨rfl, rfl, fun _ => rfl, rfl, rfl, fun h k => h (k + 1)⟩

theorem calm_inodePut (s : St Ext2.St) (i : Nat) : Calm s (inodePut (ext2 fs) i s).2 := by
  rw [inodePut_eq]
  dsimp only
  split_ifs
  · exact .refl s
  · exact calm_setRef s i _
  · exact calm_setRef s i _

theorem wp_put_calm {α : Type} {k : Unit → M Ext2.St α} {Q : α → St Ext2.St → Prop}
    (hQ : ∀ s', Calm s s' → wp (k ⟨⟩) Q s') : wp (inodePut (ext2 fs) i >>= k) Q s :=
  hQ _ (calm_inodePut s i)

theorem wp_slab_calm {α : Type} {k : Bool → M Ext2.St α} {Q : α → St Ext2.St → Prop} (hs : ∀ n, s.slab n = true)
    (hQ : ∀ s', Calm s s' → wp (k true) Q s') : wp (slabAlloc >>= k) Q s := by
  rw [wp_bind, wp_slabAlloc_iff, hs]
  exact hQ _ (calm_slab s)

theorem Calm.cached (h : Calm s s') (parent : Nat) (name : Name) : s'.cached parent name = s.cached parent name := by
  unfold St.cached
  simp only [h.cache, h.key]

theorem Calm.cachedWalk (h : Calm s s') (cs : List Name) (i : Nat) : s'.cachedWalk cs i = s.cachedWalk cs i := by
  induction cs generalizing i with
  | nil => rfl
  | cons c cs ih => rw [St.cachedWalk, St.cachedWalk, h.cached, funext ih]

/-- A name that the cache can have. -/
def Short (name : Name) : Prop := name ≠ [] ∧ name.length < VFS_MAX_PATH_LEN

variable {Q : Option Nat → St Ext2.St → Prop}

theorem wp_cacheFind_calm (hs : ∀ n, s.slab n = true) (hn : Short name)
    (hQ : ∀ s', Calm s s' → Q (s.cached p name) s') : wp (inodeCacheFind p name) Q s := by
  unfold inodeCacheFind
  rw [if_neg hn.1]
  refine wp_slab_calm hs fun s1 h1 => ?_
  simp only [if_not_true]
  rw [if_neg (Nat.not_le.2 hn.2), wp_bind, wp_get]
  have hc := h1.cached p name
  unfold St.cached at hc
  rw [hc]
  have := hQ s1 h1
  unfold St.cached at this
  cases hf : s.cache.find? fun i => decide (s.key i = ⟨some p, name⟩) with
  | none =>
    rw [hf] at this
    exact this
  | some i =>
    have := hQ _ (h1.trans (calm_setRef s1 i ((s1.inodes i).refcount + 1)))
    unfold St.cached at this
    rw [hf] at this
    exact this

/-! ## Walking -/

theorem wp_mayI_iff {mask : Nat} {Q : Bool → St Ext2.St → Prop} :
    wp (mayI (ext2 fs) i mask) Q s ↔ Q (permission ((ext2 fs).attr s.fs i) s.task.cred mask) s := Iff.rfl

theorem wp_attrOf_iff {Q : Attr → St Ext2.St → Prop} :
    wp (attrOf (ext2 fs) i) Q s ↔ Q ((ext2 fs).attr s.fs i) s := Iff.rfl

theorem wp_lookup_iff : wp (call (ext2 fs) (.lookup i name)) Q s ↔ Q ((ext2 fs).call (.lookup i name) s.fs).1
      (match ((ext2 fs).call (.lookup i name) s.fs).1 with
        | some next => (s.setFs ((ext2 fs).call (.lookup i name) s.fs).2).setRef next 1
        | none => s.setFs ((ext2 fs).call (.lookup i name) s.fs).2) := by
  unfold wp call
  generalize (ext2 fs).call (.lookup i name) s.fs = x
  obtain ⟨r, o⟩ := x
  cases r <;> exact Iff.rfl

/-- The running task may do `mask` with an object. -/
def St.may (s : St Ext2.St) (fs : Ext2.Fs) (i mask : Nat) : Prop :=
  permission ((ext2 fs).attr s.fs i) s.task.cred mask = true

theorem Calm.may (h : Calm s s') {mask : Nat} : s'.may fs i mask ↔ s.may fs i mask := by
  unfold St.may
  rw [h.fs, h.task]

/-- The task may search the directories on the way, as far as they are cached. -/
def St.Searches (s : St Ext2.St) (fs : Ext2.Fs) (cs : List Name) (i : Nat) : Prop :=
  ∀ c t, t ≠ [] → cs = c ++ t → ∀ d, s.cachedWalk c i = some d → s.may fs d MAY_EXEC

theorem Calm.searches (h : Calm s s') {cs : List Name} (hs : s.Searches fs cs i) : s'.Searches fs cs i := by
  intro c t ht he d hd
  rw [h.cachedWalk] at hd
  exact h.may.2 (hs c t ht he d hd)

theorem walk_cached (cs : List Name) (hs : ∀ n, s.slab n = true) (hshort : ∀ c ∈ cs, Short c)
    (hmay : s.Searches fs cs i) (hw : s.cachedWalk cs i = some p) :
    wp (walk (ext2 fs) cs i) (fun r s' => r = some p ∧ Calm s s') s := by
  induction cs generalizing s i with
  | nil => exact ⟨hw, .refl s⟩
  | cons c cs ih =>
    have hc := hshort c mem_cons_self
    rw [St.cachedWalk] at hw
    obtain ⟨next, hnext, hw⟩ := Option.bind_eq_some_iff.1 hw
    unfold walk
    rw [if_neg (Nat.not_le.2 hc.2), wp_bind]
    have hx : s.may fs i MAY_EXEC := hmay [] (c :: cs) (cons_ne_nil _ _) rfl i rfl
    rw [wp_mayI_iff, show permission ((ext2 fs).attr s.fs i) s.task.cred MAY_EXEC = true from hx]
    simp only [if_not_true]
    rw [wp_bind]
    refine wp_cacheFind_calm hs hc fun s1 h1 => ?_
    rw [hnext]
    refine wp_put_calm fun s2 h2 => ?_
    have h12 := h1.trans h2
    refine Act.wp_mono (ih (h12.slab hs) (fun x hx => hshort x (mem_cons_of_mem _ hx)) ?_ ?_)
      fun r s' h' => ⟨h'.1, h12.trans h'.2⟩
    · refine h12.searches fun c' t ht he d hd => hmay (c :: c') t ht (by rw [he]; rfl) d ?_
      rw [St.cachedWalk, hnext]
      exact hd
    · rw [h12.cachedWalk]
      exact hw

def St.Bounded (s : St Ext2.St) : Prop :=
  ∀ i ∈ s.cache, i < s.fs.next ∧ ∀ p, (s.key i).parent = some p → p < s.fs.next

theorem Calm.bounded (h : Calm s s') (hb : s.Bounded) : s'.Bounded := by
  intro i hi
  rw [h.cache] at hi
  rw [h.fs, h.key]
  exact hb i hi

theorem wp_insert_new {α : Type} {next : Nat} {ok : M Ext2.St α} {bad : α} {Q : α → St Ext2.St → Prop}
    (hs : ∀ n, s.slab n = true) (hn : name ≠ []) (hnot : next ∉ s.cache) (hc : s.cached i name = none)
    (hok : ∀ s', s'.fs = s.fs → s'.cache = next :: s.cache → s'.key next = ⟨some i, name⟩ →
      (∀ c, c ≠ next → s'.key c = s.key c) → (∀ n, s'.slab n = true) → wp ok Q s') :
    wp (do
      modify fun s => s.setKey next ⟨some i, name⟩
      inodeGet i
      if !(← inodeCacheInsert (ext2 fs) next) then
        inodePut (ext2 fs) i
        inodePut (ext2 fs) next
        inodePut (ext2 fs) i
        return bad
      ok) Q s := by
  rw [wp_bind, wp_modify, wp_bind, wp_inodeGet]
  set s1 := (s.setKey next ⟨some i, name⟩).setRef i (((s.setKey next ⟨some i, name⟩).inodes i).refcount + 1) with hs1
  have hk : ∀ c, s1.key c = if c = next then ⟨some i, name⟩ else s.key c := by
    intro c
    rw [hs1, key_setRef]
    by_cases e : c = next
    · rw [if_pos e, e, key_setKey]
    · rw [if_neg e]
      unfold St.key St.setKey
      simp [e]
  rw [wp_bind]
  unfold inodeCacheInsert
  rw [wp_bind, wp_get, hk, if_pos rfl, if_neg hn, wp_bind, wp_inodeGet, wp_bind, wp_get]
  set s2 := s1.setRef next ((s1.inodes next).refcount + 1) with hs2
  have hk2 : ∀ c, s2.key c = s1.key c := fun c => by rw [hs2, key_setRef]
  have hany : (s2.cache.any fun j => decide (s2.key j = s2.key next)) = false := by
    rw [any_eq_false]
    intro j hj
    have hj : j ∈ s.cache := hj
    have hjn : j ≠ next := fun e => hnot (e ▸ hj)
    rw [hk2, hk2, hk, hk, if_neg hjn, if_pos rfl]
    simpa using find?_eq_none.1 hc j hj
  rw [hany, if_neg (by decide), wp_bind, wp_slabAlloc_iff, show s2.slab 0 = true from hs 0]
  refine hok _ rfl rfl ?_ (fun c hcn => ?_) fun n => hs (n + 1)
  · show s2.key next = _
    rw [hk2, hk, if_pos rfl]
  · show s2.key c = _
    rw [hk2, hk, if_neg hcn]

theorem walk_uncached (cs : List Name) (hs : ∀ n, s.slab n = true) (hshort : ∀ c ∈ cs, Short c) (hb : s.Bounded)
    (hi : i < s.fs.next) :
    wp (walk (ext2 fs) cs i) (fun r s' => ∀ p, r = some p → (s.cachedWalk cs i = some p ∧ Calm s s') ∨
        ((∀ n, s'.slab n = true) ∧ ∀ j ∈ s'.cache, (s'.key j).parent ≠ some p)) s := by
  induction cs generalizing s i with
  | nil => exact fun p hp => .inl ⟨hp, .refl s⟩
  | cons c cs ih =>
    have hc := hshort c mem_cons_self
    have hshort' : ∀ x ∈ cs, Short x := fun x hx => hshort x (mem_cons_of_mem _ hx)
    have hfail : ∀ (s1 : St Ext2.St), wp (do inodePut (ext2 fs) i; return none : M Ext2.St (Option Nat))
        (fun r s' => ∀ p, r = some p → (s.cachedWalk (c :: cs) i = some p ∧ Calm s s') ∨
          ((∀ n, s'.slab n = true) ∧ ∀ j ∈ s'.cache, (s'.key j).parent ≠ some p)) s1 := by
      intro s1 p hp
      cases hp
    unfold walk
    rw [if_neg (Nat.not_le.2 hc.2), wp_bind]
    refine wp_mayI fun b => ?_
    cases b
    · exact hfail s
    simp only [if_not_true]
    rw [wp_bind]
    refine wp_cacheFind_calm hs hc fun s1 h1 => ?_
    cases hnext : s.cached i c with
    | some next =>
      refine wp_put_calm fun s2 h2 => ?_
      have h12 := h1.trans h2
      have hmem := mem_of_find?_eq_some hnext
      refine Act.wp_mono (ih (h12.slab hs) hshort' (h12.bounded hb) (by rw [h12.fs]; exact (hb next hmem).1))
        fun r s' h' p hp => (h' p hp).imp_left fun hw => ⟨?_, h12.trans hw.2⟩
      rw [St.cachedWalk, hnext]
      show s.cachedWalk cs next = some p
      rw [← h12.cachedWalk]
      exact hw.1
    | none =>
      dsimp only
      rw [wp_bind, wp_lookup_iff]
      have hfresh := (ext2 fs).fresh (.lookup i c) s1.fs
      have hgrow : s1.fs.next ≤ ((ext2 fs).call (.lookup i c) s1.fs).2.next := ext2Call_next fs (.lookup i c) s1.fs
      generalize (ext2 fs).call (.lookup i c) s1.fs = x at hfresh hgrow ⊢
      obtain ⟨r, o⟩ := x
      rw [h1.fs] at hfresh hgrow
      cases r with
      | none => exact hfail _
      | some next =>
        obtain ⟨hge, hlt⟩ := hfresh next rfl
        have hge : s.fs.next ≤ next := hge
        have hlt : next < o.next := hlt
        have hgrow : s.fs.next ≤ o.next := hgrow
        have hnot : next ∉ s.cache := fun hm => absurd (hb next hm).1 (by omega)
        dsimp only
        refine wp_insert_new (h1.slab hs) hc.1 (by show next ∉ s1.cache; rw [h1.cache]; exact hnot) ?_ ?_
        · rw [(calm_setRef _ next 1).cached]
          exact (h1.cached i c).trans hnext
        intro s3 hfs3 hcache3 hkey3 hold3 hslab3
        refine wp_put_calm fun s4 h4 => ?_
        have hnext3 : s3.fs.next = o.next := by
          rw [hfs3]
          rfl
        have hcache3 : s3.cache = next :: s.cache := by
          rw [hcache3]
          show next :: s1.cache = _
          rw [h1.cache]
        have hold3 : ∀ j ∈ s.cache, s3.key j = s.key j := by
          intro j hj
          rw [hold3 j fun e => hnot (e ▸ hj)]
          rw [key_setRef]
          exact h1.key j
        -- nothing has the new object as its parent
        have horphan : ∀ j ∈ s4.cache, (s4.key j).parent ≠ some next := by
          intro j hj hp
          rw [h4.cache, hcache3] at hj
          rw [h4.key] at hp
          rcases mem_cons.1 hj with rfl | hj
          · rw [hkey3] at hp
            cases hp
            omega
          · rw [hold3 j hj] at hp
            have := (hb j hj).2 next hp
            omega
        have hb4 : s4.Bounded := by
          refine h4.bounded fun j hj => ?_
          rw [hcache3] at hj
          rcases mem_cons.1 hj with rfl | hj
          · rw [hkey3]
            refine ⟨by rw [hnext3]; exact hlt, fun p hp => ?_⟩
            cases hp
            omega
          · rw [hold3 j hj]
            rw [hnext3]
            exact ⟨lt_of_lt_of_le (hb j hj).1 hgrow, fun p hp => lt_of_lt_of_le ((hb j hj).2 p hp) hgrow⟩
        refine Act.wp_mono (ih (h4.slab hslab3) hshort' hb4 (by rw [h4.fs, hnext3]; exact hlt))
          fun r s' h' p hp => .inr ?_
        rcases h' p hp with ⟨hw, hcalm⟩ | h'
        · cases cs with
          | nil =>
            obtain rfl := Option.some.inj hw
            refine ⟨hcalm.slab (h4.slab hslab3), fun j hj => ?_⟩
            rw [hcalm.cache] at hj
            rw [hcalm.key]
            exact horphan j hj
          | cons x cs =>
            rw [St.cachedWalk] at hw
            obtain ⟨j, hj, -⟩ := Option.bind_eq_some_iff.1 hw
            have hk : s4.key j = ⟨some next, x⟩ := by simpa using find?_some hj
            exact absurd (by rw [hk]) (horphan j (mem_of_find?_eq_some hj))
        · exact h'

/-! ## Whole paths -/

theorem wp_lookup_walk {path q : Name} {m : Mount} (hs : ∀ n, s.slab n = true)
    (hq : normalize path s.task.cwd_path = some q) (hq0 : q.head? = some slash) (hm : s.mount = some m)
    (hw : ∀ s₁, Calm s s₁ → wp (walk (ext2 fs) (components (q.drop (m.find q).1.length)) (m.find q).2) Q s₁) :
    wp (lookup (ext2 fs) path) Q s := by
  unfold lookup
  refine wp_slab_calm hs fun s₁ h1 => ?_
  simp only [if_not_true]
  rw [wp_bind, wp_get, h1.task, hq]
  dsimp only
  unfold lookupImpl
  rw [wp_bind, wp_get, if_pos hq0, h1.mount, hm]
  dsimp only [Option.map_some]
  rw [wp_bind, wp_inodeGet]
  set s2 := s₁.setRef (m.find q).2 ((s₁.inodes (m.find q).2).refcount + 1) with hs2
  have h2 : Calm s s2 := h1.trans (calm_setRef _ _ _)
  have hcomp : components (if (q.drop (m.find q).1.length).head? = some slash then (q.drop (m.find q).1.length).tail
      else q.drop (m.find q).1.length) = components (q.drop (m.find q).1.length) := by
    split_ifs with h
    · obtain ⟨t, ht⟩ := head?_eq_some_iff.1 h
      rw [ht, components_slash]
      rfl
    · rfl
  rw [← hcomp] at hw
  generalize (if (q.drop (m.find q).1.length).head? = some slash then (q.drop (m.find q).1.length).tail
    else q.drop (m.find q).1.length) = relative at hw ⊢
  by_cases h0 : relative = []
  · subst h0
    exact hw s2 h2
  · rw [if_neg h0]
    refine wp_slab_calm (h2.slab hs) fun s3 h3 => ?_
    exact hw s3 (h2.trans h3)

/-- An absolute path that leads from the mounted directory `root` through `cs` to
`name`, which is not a mount point. -/
structure St.At (s : St Ext2.St) (path : Name) (root : Nat) (cs : List Name) (name : Name) : Prop where
  abs : path.head? = some slash
  place : ∃ q pp m, normalize path s.task.cwd_path = some q ∧ splitParent q = some (pp, name) ∧
    s.mount = some m ∧ m.path = [slash] ∧ m.find pp = m.find q ∧ (m.find q).2 = root ∧
    components (pp.drop (m.find q).1.length) = cs

theorem normalize_split {path cwd_path q pp : Name} (habs : path.head? = some slash)
    (hq : normalize path cwd_path = some q) (hsp : splitParent q = some (pp, name)) :
    ∃ ds, (∀ c ∈ ds ++ [name], Clean c) ∧ q = join (ds ++ [name]) ∧ pp = join ds ∧ q.length < VFS_MAX_PATH_LEN := by
  obtain ⟨cs, hclean, rfl, hlen⟩ := normalize_join habs hq
  rcases eq_nil_or_concat cs with rfl | ⟨ds, c, rfl⟩
  · cases hsp
  rw [concat_eq_append] at hclean hlen hsp ⊢
  rw [splitParent_join hclean hlen] at hsp
  obtain ⟨rfl, rfl⟩ := Prod.mk.inj (Option.some.inj hsp)
  exact ⟨ds, hclean, rfl, rfl, hlen⟩

theorem length_join_le (ds : List Name) (c : Name) : (join ds).length ≤ (join (ds ++ [c])).length := by
  by_cases h : ds = []
  · subst h
    simp
  · rw [join_append h, length_append]
    omega

variable {path : Name} {root : Nat} {cs : List Name}

variable (h : s.At path root cs name)

include h

theorem St.At.short : ∀ c ∈ cs ++ [name], Short c := by
  obtain ⟨q, pp, m, hq, hsp, hm, hroot, hfind, rfl, rfl⟩ := h.place
  obtain ⟨ds, hclean, rfl, rfl, hlen⟩ := normalize_split h.abs hq hsp
  intro c hc
  rcases mem_append.1 hc with hc | hc
  · have := mem_components hc
    have hle := length_join_le ds name
    rw [length_drop] at this
    exact ⟨this.1, by omega⟩
  · rw [mem_singleton.1 hc]
    rw [join_concat, length_append, length_cons] at hlen
    exact ⟨(hclean name (by simp)).ne_nil, by omega⟩

theorem St.At.lookup (hs : ∀ n, s.slab n = true)
    (hw : ∀ s₁, Calm s s₁ → wp (walk (ext2 fs) (cs ++ [name]) root) Q s₁) : wp (lookup (ext2 fs) path) Q s := by
  obtain ⟨q, pp, m, hq, hsp, hm, hroot, hfind, rfl, rfl⟩ := h.place
  obtain ⟨ds, hclean, rfl, rfl, hlen⟩ := normalize_split h.abs hq hsp
  have hpre : (m.find (join (ds ++ [name]))).1 <+: join ds := by
    rw [← hfind]
    refine m.find_isPrefix _ ?_
    rw [hroot]
    obtain ⟨t, ht⟩ := head?_eq_some_iff.1 (head_join ds)
    exact ⟨t, ht.symm⟩
  refine wp_lookup_walk hs hq (head_join _) hm ?_
  rw [components_drop hclean hpre]
  exact hw

variable {Q : Option (Nat × Name) → St Ext2.St → Prop}

variable (hs : ∀ n, s.slab n = true)

include hs

theorem St.At.enterParent_iff (hw : ∀ s₁, Calm s s₁ → wp (walk (ext2 fs) cs root) (fun r s₂ =>
      (∀ p, r = some p → ifmt (s₂.fs.inodes p).mode = S_IFDIR → s₂.may fs p (MAY_WRITE ||| MAY_EXEC) →
        Q (some (p, name)) s₂) ∧
      (¬(∃ p, r = some p ∧ ifmt (s₂.fs.inodes p).mode = S_IFDIR ∧ s₂.may fs p (MAY_WRITE ||| MAY_EXEC)) →
        ∀ s', Q none s')) s₁) : wp (enterParent (ext2 fs) path) Q s := by
  obtain ⟨q, pp, m, hq, hsp, hm, hroot, hfind, rfl, rfl⟩ := h.place
  obtain ⟨ds, hclean, rfl, rfl, hlen⟩ := normalize_split h.abs hq hsp
  unfold Vfs.enterParent
  refine wp_slab_calm hs fun s₁ h1 => ?_
  simp only [if_not_true]
  rw [wp_bind]
  unfold lookupParent
  refine wp_slab_calm (h1.slab hs) fun s₂ h2 => ?_
  have h12 := h1.trans h2
  simp only [if_not_true]
  rw [wp_bind, wp_get, h12.task, hq]
  dsimp only
  rw [hsp]
  dsimp only
  refine wp_slab_calm (h12.slab hs) fun s3 h3 => ?_
  have h13 := h12.trans h3
  simp only [if_not_true]
  rw [wp_bind]
  have hpp : normalize (join ds) s3.task.cwd_path = some (join ds) :=
    normalize_clean (fun c hc => hclean c (mem_append_left _ hc)) (lt_of_le_of_lt (length_join_le ds name) hlen) _
  refine wp_lookup_walk (h13.slab hs) hpp (head_join ds) (h13.mount.trans hm) fun s4 h4 => ?_
  rw [hfind]
  refine Act.wp_mono (hw s4 (h13.trans h4)) fun r s5 ⟨h5, hnone⟩ => ?_
  cases r with
  | none => exact hnone (by rintro ⟨p, hp, -⟩; cases hp) _
  | some p =>
    dsimp only
    rw [wp_pure]
    dsimp only
    rw [wp_bind, wp_attrOf_iff, show ((ext2 fs).attr s5.fs p).mode = (s5.fs.inodes p).mode from rfl]
    by_cases hd : ifmt (s5.fs.inodes p).mode = S_IFDIR
    · rw [if_neg (not_not.2 hd), wp_bind, wp_mayI_iff]
      by_cases hmay : s5.may fs p (MAY_WRITE ||| MAY_EXEC)
      · have hmay' : permission ((ext2 fs).attr s5.fs p) s5.task.cred (MAY_WRITE ||| MAY_EXEC) = true := hmay
        rw [hmay']
        exact h5 p rfl hd hmay
      · have hmay' : permission ((ext2 fs).attr s5.fs p) s5.task.cred (MAY_WRITE ||| MAY_EXEC) = false :=
          eq_false_of_ne_true hmay
        rw [hmay']
        refine hnone ?_ _
        rintro ⟨x, hx, -, hm⟩
        cases hx
        exact hmay hm
    · rw [if_pos hd]
      refine hnone ?_ _
      rintro ⟨x, hx, hm, -⟩
      cases hx
      exact hd hm

theorem St.At.enterParent (hw : ∀ s₁, Calm s s₁ → wp (walk (ext2 fs) cs root) (fun r s₂ => ∀ p, r = some p →
      ifmt (s₂.fs.inodes p).mode = S_IFDIR → s₂.may fs p (MAY_WRITE ||| MAY_EXEC) → Q (some (p, name)) s₂) s₁)
    (hnone : ∀ s', Q none s') : wp (Vfs.enterParent (ext2 fs) path) Q s :=
  h.enterParent_iff hs fun s₁ h₁ => Act.wp_mono (hw s₁ h₁) fun _ _ h₂ => ⟨h₂, fun _ => hnone⟩

theorem St.At.enterParent_of (hw : ∀ s₁, Calm s s₁ → wp (walk (ext2 fs) cs root) (fun r s₂ => ∃ p, r = some p ∧
      ifmt (s₂.fs.inodes p).mode = S_IFDIR ∧ s₂.may fs p (MAY_WRITE ||| MAY_EXEC) ∧ Q (some (p, name)) s₂) s₁) :
    wp (Vfs.enterParent (ext2 fs) path) Q s := by
  refine h.enterParent_iff hs fun s₁ h1 => Act.wp_mono (hw s₁ h1) fun r s₂ h2 => ?_
  obtain ⟨p, rfl, hd, hmay, hQ⟩ := h2
  refine ⟨fun x hx _ _ => ?_, fun hno => absurd ⟨p, rfl, hd, hmay⟩ hno⟩
  obtain rfl := Option.some.inj hx
  exact hQ

end

end Vfs

namespace Ext2

/-- The entries of the directory with inode `d`, found through its record. -/
def Layout.names (L : Layout) (o : St) (d : Nat) : List Entry :=
  L.entries (L.vol o).blocks (L.vol o) d (L.dirBlocks (Di.i_size ((L.vol o).inode d)))

def Layout.resolve (L : Layout) (o : St) : List (List UInt8) → Nat → Option Nat
  | [], d => some d
  | name :: rest, d => ((L.names o d).find? (·.name = name)).bind fun e => L.resolve o rest e.ino

theorem Layout.listing_eq_names {L : Layout} {o : St} {r : Nat}
    (hk : ∀ k, k ≤ EXT2_DIND_BLOCK → (o.inodes r).priv.i_block k = (L.vol o).blocks (o.ino r) k)
    (hz : (o.inodes r).priv.i_size = Di.i_size ((L.vol o).inode (o.ino r))) : L.listing o r = L.names o (o.ino r) := by
  unfold Layout.listing Layout.names
  rw [hz]
  exact Layout.entries_congr fun l hl => Layout.blk_congr hk (lt_of_lt_of_le hl (Nat.min_le_right _ _))

theorem lookup_none {fs : Fs} {o : St} {dir : Nat} {name : List UInt8} (h : o.find fs dir name = none) :
    ((lookup fs dir name).run serve o).1 = none := by
  have hwp : Prog.wp (world False) (lookup fs dir name) (fun a _ => a = none) o := by
    unfold lookup
    rw [Prog.wp_bind, wp_inodeAt]
    split_ifs
    · trivial
    · trivial
    · trivial
    refine wp_then (dirFind_eq fs o dir name) ?_
    rintro _ _ ⟨rfl, rfl⟩
    rw [h]
    trivial
  exact (wp_world_false _ _ _).1 hwp

end Ext2

namespace Vfs

section

variable {L : Ext2.Layout} {s s' : St Ext2.St} {i p n : Nat} {name path : Name} {root : Nat} {cs : List Name}

/-- The directories in use: those in the cache and those that are mounted. -/
def St.dirs (s : St Ext2.St) : List Nat :=
  (s.cache ++ s.mountRoots).filter fun i => ifmt (s.fs.inodes i).mode = S_IFDIR

/-- The volume is consistent, its directories are in order, and the cache agrees
with them. -/
structure Coherent (L : Ext2.Layout) (s : St Ext2.St) : Prop where
  mounted : Ext2.Mounted L False s.dirs s.fs
  size : ∀ i ∈ s.dirs, (s.fs.inodes i).priv.i_size = Ext2.Di.i_size ((L.vol s.fs).inode (s.fs.ino i))
  wellFormed : ∀ i ∈ s.dirs, L.WellFormed (L.vol s.fs).blocks (L.vol s.fs) (s.fs.ino i)
    (L.dirBlocks (s.fs.inodes i).priv.i_size)
  names : ∀ i ∈ s.dirs, ((L.listing s.fs i).map Ext2.Entry.name).Nodup
  live : ∀ i ∈ s.dirs, ∀ e ∈ L.listing s.fs i, (L.vol s.fs).live e.ino
  type : ∀ i ∈ s.cache ++ s.mountRoots,
    ifmt (s.fs.inodes i).mode = ifmt (Ext2.Di.i_mode ((L.vol s.fs).inode (s.fs.ino i)))
  roots : ∀ r ∈ s.mountRoots, r ∈ s.dirs
  bounded : ∀ i ∈ s.cache, i < s.fs.next
  keys : s.cache.Pairwise fun i j => s.key i ≠ s.key j
  key : ∀ i ∈ s.cache, ∀ p name, s.key i = ⟨some p, name⟩ →
    p ∈ s.dirs ∧ s.fs.find L.fs p name = some (s.fs.ino i) ∧ name ≠ [46] ∧ name ≠ [46, 46]

theorem key_of_cached (h : s.cached p name = some i) : i ∈ s.cache ∧ s.key i = ⟨some p, name⟩ :=
  ⟨mem_of_find?_eq_some h, by simpa using find?_some h⟩

theorem Coherent.all_bounded (hc : Coherent L s) : s.Bounded := by
  refine fun i hi => ⟨hc.bounded i hi, fun p hp => ?_⟩
  have hk : s.key i = ⟨some p, (s.key i).name⟩ := by rw [← hp]
  exact hc.mounted.fresh p (hc.key i hi p _ hk).1

theorem Coherent.listing (hc : Coherent L s) (hp : p ∈ s.dirs) : L.listing s.fs p = L.names s.fs (s.fs.ino p) :=
  Ext2.Layout.listing_eq_names (hc.mounted.agree p hp) (hc.size p hp)

theorem Coherent.entry (hc : Coherent L s) (h : s.cached p name = some i) :
    p ∈ s.dirs ∧ ∃ e ∈ L.listing s.fs p, (L.listing s.fs p).find? (·.name = name) = some e ∧ e.name = name ∧
      e.ino = s.fs.ino i := by
  obtain ⟨hi, hk⟩ := key_of_cached h
  obtain ⟨hp, hfind, -⟩ := hc.key i hi p name hk
  rw [hc.mounted.find_eq hp] at hfind
  obtain ⟨e, he, hino⟩ := Option.map_eq_some_iff.1 hfind
  exact ⟨hp, e, mem_of_find?_eq_some he, he, by simpa using find?_some he, hino⟩

theorem Coherent.resolve (hc : Coherent L s) (rest : List Name) (h : s.cachedWalk cs root = some p) :
    L.resolve s.fs (cs ++ rest) (s.fs.ino root) = L.resolve s.fs rest (s.fs.ino p) := by
  induction cs generalizing root with
  | nil =>
    obtain rfl := Option.some.inj h
    rfl
  | cons c cs ih =>
    rw [St.cachedWalk] at h
    obtain ⟨next, hnext, h⟩ := Option.bind_eq_some_iff.1 h
    obtain ⟨hr, e, -, he, -, hino⟩ := hc.entry hnext
    rw [cons_append, Ext2.Layout.resolve, ← hc.listing hr, he]
    show L.resolve s.fs (cs ++ rest) e.ino = _
    rw [hino, ih h]

/-! ## After the entry is gone -/

theorem find?_eraseP_of_disjoint {α : Type} {f g : α → Bool} (h : ∀ x, g x = true → f x = false) (l : List α) :
    (l.eraseP g).find? f = l.find? f := by
  induction l with
  | nil => rfl
  | cons a l ih =>
    by_cases hg : g a = true
    · rw [eraseP_cons_of_pos hg, find?_cons_of_neg (by simp [h a hg])]
    · rw [eraseP_cons_of_neg hg, find?_cons, find?_cons, ih]

theorem find?_eraseP_self {k : Key} {l : List Nat} (hl : l.Pairwise fun i j => s.key i ≠ s.key j) :
    (l.eraseP fun j => s.key j = k).find? (fun j => s.key j = k) = none := by
  induction l with
  | nil => rfl
  | cons a l ih =>
    obtain ⟨ha, hl⟩ := pairwise_cons.1 hl
    by_cases hk : s.key a = k
    · rw [eraseP_cons_of_pos (by simpa using hk), find?_eq_none]
      intro x hx
      have := ha x hx
      rw [hk] at this
      simpa using Ne.symm this
    · rw [eraseP_cons_of_neg (by simpa using hk), find?_cons_of_neg (by simpa using hk)]
      exact ih hl

/-- The state after the entry `name` of `p` went, with the volume as it is then. -/
def St.without (s : St Ext2.St) (p : Nat) (name : Name) (o : Ext2.St) : St Ext2.St :=
  { s with fs := o, cache := s.cache.eraseP fun j => s.key j = ⟨some p, name⟩ }

theorem cachedWalk_without {o : Ext2.St} (hi : s.cached p name = some i) (hip : i ≠ p)
    (hleaf : ∀ j ∈ s.cache, (s.key j).parent ≠ some i) (h : s.cachedWalk cs root = some p) :
    (s.without p name o).cachedWalk cs root = some p := by
  induction cs generalizing root with
  | nil => exact h
  | cons c cs ih =>
    rw [St.cachedWalk] at h ⊢
    obtain ⟨next, hnext, h⟩ := Option.bind_eq_some_iff.1 h
    have hother : (⟨some root, c⟩ : Key) ≠ ⟨some p, name⟩ := by
      intro e
      obtain ⟨e1, rfl⟩ := Key.mk.inj e
      obtain rfl := Option.some.inj e1
      obtain rfl := Option.some.inj (hnext.symm.trans hi)
      cases cs with
      | nil => exact hip (Option.some.inj h)
      | cons x cs =>
        rw [St.cachedWalk] at h
        obtain ⟨j, hj, -⟩ := Option.bind_eq_some_iff.1 h
        obtain ⟨hmem, hk⟩ := key_of_cached hj
        exact hleaf j hmem (by rw [hk])
    have hsame : (s.without p name o).cached root c = s.cached root c := by
      refine find?_eraseP_of_disjoint (fun x hx => ?_) s.cache
      have hx : s.key x = ⟨some p, name⟩ := by simpa using hx
      rw [decide_eq_false_iff_not]
      exact fun e => hother (Eq.symm (a := s.key x) e |>.trans hx)
    rw [hsame, hnext]
    exact ih h

theorem walk_misses {fs : Ext2.Fs} (cs : List Name) (hs : ∀ n, s.slab n = true)
    (hshort : ∀ c ∈ cs ++ [name], Short c) (hw : s.cachedWalk cs i = some p) (hno : s.cached p name = none)
    (hlook : s.fs.find fs p name = none) :
    wp (walk (ext2 fs) (cs ++ [name]) i) (fun r _ => r = none) s := by
  induction cs generalizing s i with
  | nil =>
    obtain rfl := Option.some.inj hw
    have hc := hshort name (by simp)
    rw [nil_append]
    unfold walk
    rw [if_neg (Nat.not_le.2 hc.2), wp_bind]
    refine wp_mayI fun b => ?_
    cases b
    · exact rfl
    simp only [if_not_true]
    rw [wp_bind]
    refine wp_cacheFind_calm hs hc fun s1 h1 => ?_
    rw [hno]
    dsimp only
    have hl : ((ext2 fs).call (.lookup i name) s1.fs).1 = none := by
      rw [h1.fs]
      exact Ext2.lookup_none hlook
    rw [wp_bind, wp_lookup_iff, hl]
    exact rfl
  | cons c cs ih =>
    have hc := hshort c (by simp)
    rw [St.cachedWalk] at hw
    obtain ⟨next, hnext, hw⟩ := Option.bind_eq_some_iff.1 hw
    rw [cons_append]
    unfold walk
    rw [if_neg (Nat.not_le.2 hc.2), wp_bind]
    refine wp_mayI fun b => ?_
    cases b
    · exact rfl
    simp only [if_not_true]
    rw [wp_bind]
    refine wp_cacheFind_calm hs hc fun s1 h1 => ?_
    rw [hnext]
    refine wp_put_calm fun s2 h2 => ?_
    have h12 := h1.trans h2
    exact ih (h12.slab hs) (fun x hx => hshort x (by simp at hx ⊢; tauto)) (by rw [h12.cachedWalk]; exact hw)
      (by rw [h12.cached]; exact hno) (by rw [h12.fs]; exact hlook)

/-! ## Removing -/

/-- Every directory on the way and the entry itself are in the cache. -/
def St.Reached (s : St Ext2.St) (root : Nat) (cs : List Name) (name : Name) : Prop :=
  ∃ p, s.cachedWalk cs root = some p ∧ (s.cached p name).isSome

/-- `vfs_unlink` or `vfs_rmdir` succeeds, and afterwards the path is not found. -/
def Gone (F : FileSystem Ext2.St) (op : M Ext2.St Bool) (path : Name) (s : St Ext2.St) : Prop :=
  (op s).1 = true ∧ (lookup F path (op s).2).1 = none

theorem reached_of_remove {ok : Nat → Bool} {op : Nat → Name → M Ext2.St Bool} (hc : Coherent L s)
    (hat : s.At path root cs name) (hs : ∀ n, s.slab n = true)
    (h : (remove (ext2 L.fs) path ok op s).1 = true) : s.Reached root cs name := by
  have hroot : root < s.fs.next := by
    obtain ⟨q, pp, m, -, -, hm, -, -, rfl, -⟩ := hat.place
    refine hc.mounted.fresh _ (hc.roots _ ?_)
    unfold St.mountRoots
    rw [hm]
    exact m.find_mem q
  have hname := hat.short name (by simp)
  have key : wp (remove (ext2 L.fs) path ok op) (fun r _ => r = true → s.Reached root cs name) s := by
    unfold remove
    rw [wp_bind]
    refine hat.enterParent hs (fun s1 h1 => ?_) fun s' hF => by cases hF
    refine Act.wp_mono (walk_uncached cs (h1.slab hs) (fun c hc => hat.short c (mem_append_left _ hc))
      (h1.bounded hc.all_bounded) (by rw [h1.fs]; exact hroot)) fun r s2 h2 p hp _ _ => ?_
    dsimp only
    rw [wp_bind]
    have hslab2 : ∀ n, s2.slab n = true := (h2 p hp).elim (fun h => h.2.slab (h1.slab hs)) fun h => h.1
    refine wp_cacheFind_calm hslab2 hname fun s3 h3 => ?_
    cases hcached : s2.cached p name with
    | none =>
      intro hF
      cases hF
    | some i =>
      refine Act.wp_mono (Q := fun _ _ => True) trivial fun _ _ _ _ => ?_
      rcases h2 p hp with ⟨hw, hcalm⟩ | ⟨-, hno⟩
      · refine ⟨p, by rw [← h1.cachedWalk]; exact hw, ?_⟩
        rw [← h1.cached, ← hcalm.cached, hcached]
        rfl
      · obtain ⟨hmem, hk⟩ := key_of_cached hcached
        exact absurd (by rw [hk]) (hno i hmem)
  exact key h

theorem wp_cacheRemove_calm {fs : Ext2.Fs} {α : Type} {k : Unit → M Ext2.St α} {Q : α → St Ext2.St → Prop}
    (hi : i ∈ s.cache) (hk : s.key i = ⟨some p, name⟩) (hQ : ∀ s', Calm (s.without p name s.fs) s' → wp (k ⟨⟩) Q s') :
    wp (inodeCacheRemove (ext2 fs) i >>= k) Q s := by
  have hany : (s.cache.any fun j => decide (s.key j = s.key i)) = true := any_eq_true.2 ⟨i, hi, by simp⟩
  rw [wp_bind]
  unfold inodeCacheRemove
  rw [wp_bind, wp_get, if_pos hany, wp_bind, wp_modify]
  refine wp_put_calm fun s1 h1 => ?_
  rw [hk] at h1 ⊢
  refine Act.wp_mono (show wp (inodePut (ext2 fs) p) (fun _ s' => Calm s1 s') s1 from calm_inodePut s1 p)
    fun _ s2 h2 => hQ s2 ?_
  have h0 : Calm (s.without p name s.fs) { s with cache := s.cache.eraseP fun j => s.key j = ⟨some p, name⟩ } :=
    .refl _
  exact (h0.trans h1).trans h2

theorem St.At.congr (h : s.At path root cs name) (ht : s'.task = s.task) (hm : s'.mount = s.mount) :
    s'.At path root cs name :=
  ⟨h.abs, by rw [ht, hm]; exact h.place⟩

theorem gone_of_reached {ok : Nat → Bool} {op : Nat → Name → M Ext2.St Bool} {o : Ext2.St} (hc : Coherent L s)
    (hat : s.At path root cs name) (hs : ∀ n, s.slab n = true) (hsearch : s.Searches L.fs cs root)
    (hw : s.cachedWalk cs root = some p) (hi : s.cached p name = some i)
    (hmay : s.may L.fs p (MAY_WRITE ||| MAY_EXEC)) (hok : ok (ifmt (s.fs.inodes i).mode) = true) (hip : i ≠ p)
    (hleaf : ∀ j ∈ s.cache, (s.key j).parent ≠ some i)
    (hop : ∀ s₁, Calm s s₁ → op p name s₁ = (true, s₁.setFs o)) (hnone : o.find L.fs p name = none) :
    Gone (ext2 L.fs) (remove (ext2 L.fs) path ok op) path s := by
  obtain ⟨hmem, hk⟩ := key_of_cached hi
  have hname := hat.short name (by simp)
  have hdir : ifmt (s.fs.inodes p).mode = S_IFDIR := by simpa using (mem_filter.1 (hc.key i hmem p name hk).1).2
  have key : wp (remove (ext2 L.fs) path ok op) (fun r s' => r = true ∧ Calm (s.without p name o) s') s := by
    unfold remove
    rw [wp_bind]
    refine hat.enterParent_of hs fun s₁ h1 => ?_
    refine Act.wp_mono (walk_cached cs (h1.slab hs) (fun c hc => hat.short c (mem_append_left _ hc))
      (h1.searches hsearch) (by rw [h1.cachedWalk]; exact hw)) fun r s2 h2 => ?_
    obtain ⟨rfl, h2⟩ := h2
    have h2 := h1.trans h2
    refine ⟨p, rfl, by rw [h2.fs]; exact hdir, h2.may.2 hmay, ?_⟩
    dsimp only
    rw [wp_bind]
    refine wp_cacheFind_calm (h2.slab hs) hname fun s3 h3 => ?_
    have h3 := h2.trans h3
    rw [h2.cached, hi]
    dsimp only
    rw [wp_bind, wp_attrOf_iff, show ((ext2 L.fs).attr s3.fs i).mode = (s.fs.inodes i).mode by rw [h3.fs]; rfl, hok]
    simp only [if_not_true]
    rw [wp_bind]
    refine Act.wp_of_eq (hop s3 h3) ?_
    simp only [if_not_true]
    refine wp_cacheRemove_calm (by show i ∈ s3.cache; rw [h3.cache]; exact hmem)
      (by show s3.key i = _; rw [h3.key]; exact hk) fun s4 h4 => ?_
    refine wp_put_calm fun s5 h5 => wp_put_calm fun s6 h6 => ⟨rfl, ?_⟩
    have h0 : Calm (s.without p name o) ((s3.setFs o).without p name o) := by
      refine ⟨rfl, ?_, h3.key, h3.mount, h3.task, h3.slab⟩
      show s3.cache.eraseP _ = s.cache.eraseP _
      rw [h3.cache]
      congr 1
      funext j
      show decide (s3.key j = _) = _
      rw [h3.key]
    exact ((h0.trans h4).trans h5).trans h6
  obtain ⟨hr, h'⟩ := key
  refine ⟨hr, ?_⟩
  have hs' := h'.slab hs
  show wp (lookup (ext2 L.fs) path) (fun r _ => r = none) _
  refine (hat.congr h'.task h'.mount).lookup hs' fun s₁ h1 => ?_
  have h1' := h'.trans h1
  refine @walk_misses _ _ p _ _ cs (h1.slab hs') hat.short ?_ ?_ ?_
  · rw [h1'.cachedWalk]
    exact cachedWalk_without hi hip hleaf hw
  · rw [h1'.cached]
    exact find?_eraseP_self hc.keys
  · rw [h1'.fs]
    exact hnone

theorem Coherent.target (hc : Coherent L s) (hn : L.resolve s.fs (cs ++ [name]) (s.fs.ino root) = some n)
    (hw : s.cachedWalk cs root = some p) (hi : s.cached p name = some i) :
    s.fs.ino i = n ∧ (L.vol s.fs).live n ∧ s.fs.find L.fs p name = some n := by
  obtain ⟨hp, e, hmem, he, -, hino⟩ := hc.entry hi
  rw [hc.resolve [name] hw, Ext2.Layout.resolve, ← hc.listing hp, he] at hn
  obtain rfl : e.ino = n := Option.some.inj hn
  obtain ⟨hic, hk⟩ := key_of_cached hi
  exact ⟨hino.symm, hc.live p hp e hmem, by rw [(hc.key i hic p name hk).2.1, hino]⟩

theorem Coherent.mode_of_dir (hc : Coherent L s) (hp : p ∈ s.dirs) :
    ifmt (Ext2.Di.i_mode ((L.vol s.fs).inode (s.fs.ino p))) = S_IFDIR := by
  obtain ⟨hmem, hd⟩ := mem_filter.1 hp
  rw [← hc.type p hmem]
  simpa using hd

theorem Coherent.dot_of_empty (hc : Coherent L s) (hempty : L.IsEmpty (L.vol s.fs) (s.fs.ino p))
    (hi : s.cached p name = some i) : False := by
  obtain ⟨hp, e, hmem, -, hname, -⟩ := hc.entry hi
  obtain ⟨hic, hk⟩ := key_of_cached hi
  obtain ⟨-, -, h1, h2⟩ := hc.key i hic p name hk
  rw [hc.listing hp] at hmem
  rcases hempty.2 e hmem with h | h
  · exact h1 (hname ▸ h)
  · exact h2 (hname ▸ h)

/-- A regular file or an empty directory can be removed by its path exactly if it
and the directories on the way are in the inode cache. -/
theorem removal_iff (hc : Coherent L s) (hat : s.At path root cs name)
    (hn : L.resolve s.fs (cs ++ [name]) (s.fs.ino root) = some n) (hsearch : s.Searches L.fs cs root)
    (hmay : ∀ p, s.cachedWalk cs root = some p → s.may L.fs p (MAY_WRITE ||| MAY_EXEC))
    (hs : ∀ k, s.slab k = true) :
    (ifmt (Ext2.Di.i_mode ((L.vol s.fs).inode n)) = S_IFREG →
      (Gone (ext2 L.fs) (unlink (ext2 L.fs) path) path s ↔ s.Reached root cs name)) ∧
    (ifmt (Ext2.Di.i_mode ((L.vol s.fs).inode n)) = S_IFDIR →
      Ext2.Di.i_links_count ((L.vol s.fs).inode n) = 2 → L.IsEmpty (L.vol s.fs) n →
      (Gone (ext2 L.fs) (rmdir (ext2 L.fs) path) path s ↔ s.Reached root cs name)) := by
  have hname := hat.short name (by simp)
  have hlen : name.length ≠ 0 ∧ name.length ≤ Ext2.VFS_NAME_MAX :=
    ⟨fun h => hname.1 (length_eq_zero_iff.1 h), le_trans hname.2.le (by decide)⟩
  refine ⟨fun hreg => ⟨fun h => reached_of_remove hc hat hs h.1, ?_⟩,
    fun hdir hlinks hempty => ⟨fun h => reached_of_remove hc hat hs h.1, ?_⟩⟩
  · rintro ⟨p, hw, hi⟩
    obtain ⟨i, hi⟩ := Option.isSome_iff_exists.1 hi
    obtain ⟨rfl, hlive, hfind⟩ := hc.target hn hw hi
    obtain ⟨hic, hk⟩ := key_of_cached hi
    have hp := (hc.key i hic p name hk).1
    have hmode : ifmt (s.fs.inodes i).mode = S_IFREG := by rw [hc.type i (mem_append_left _ hic), hreg]
    have hnd : i ∉ s.dirs := fun hd => by
      rw [hc.mode_of_dir hd] at hreg
      cases hreg
    have hne : s.fs.ino p ≠ s.fs.ino i := fun e => by
      rw [← e, hc.mode_of_dir hp] at hreg
      cases hreg
    have hx := (Ext2.wp_world_false _ _ _).1 (Ext2.unlink_exact hc.mounted hp (hc.wellFormed p hp) hfind hlive hne)
    have htrue := hx.1.2 ⟨hlen, fun e => by rw [show Ext2.ifmt _ = _ from hreg] at e; cases e⟩
    refine gone_of_reached hc hat hs hsearch hw hi (hmay p hw) ?_ (fun e => hnd (e ▸ hp)) (fun j hj hpar => ?_)
      (fun s1 h1 => ?_) ((hx.2 htrue).find_none (fun _ => ⟨rfl, rfl, rfl⟩) (hc.names p hp))
    · rw [hmode]
      decide
    · exact hnd (hc.key j hj i _ (by rw [← hpar])).1
    · show ((_ : Bool), s1.setFs _) = _
      rw [h1.fs]
      exact Prod.ext htrue rfl
  · rintro ⟨p, hw, hi⟩
    obtain ⟨i, hi⟩ := Option.isSome_iff_exists.1 hi
    obtain ⟨rfl, hlive, hfind⟩ := hc.target hn hw hi
    obtain ⟨hic, hk⟩ := key_of_cached hi
    have hp := (hc.key i hic p name hk).1
    have hmode : ifmt (s.fs.inodes i).mode = S_IFDIR := by rw [hc.type i (mem_append_left _ hic), hdir]
    have hne : s.fs.ino p ≠ s.fs.ino i := fun e => hc.dot_of_empty (e ▸ hempty) hi
    have hx := (Ext2.wp_world_false _ _ _).1 (Ext2.rmdir_exact hc.mounted hp (hc.wellFormed p hp) hfind hlive hne)
    have htrue := hx.1.2 ⟨hlen, hdir, hlinks.le, hempty⟩
    refine gone_of_reached hc hat hs hsearch hw hi (hmay p hw) ?_ (fun e => hne (by rw [e])) (fun j hj hpar => ?_)
      (fun s1 h1 => ?_) ((hx.2 htrue).find_none (fun _ => ⟨rfl, rfl, rfl⟩) (hc.names p hp))
    · rw [hmode]
      decide
    · have hsome : (s.cached i (s.key j).name).isSome := by
        rw [St.cached, find?_isSome]
        exact ⟨j, hj, by simp [← hpar]⟩
      obtain ⟨x, hx⟩ := Option.isSome_iff_exists.1 hsome
      exact hc.dot_of_empty hempty hx
    · show ((_ : Bool), s1.setFs _) = _
      rw [h1.fs]
      exact Prod.ext htrue rfl

end

namespace Sample

set_option maxRecDepth 100000

structure Rooted (s : St Ext2.St) : Prop where
  disk : s.fs.disk = Ext2.Sample.st.disk
  vol : Ext2.Sample.layout.vol s.fs = Ext2.Sample.layout.vol Ext2.Sample.st
  root : s.fs.inodes 1 = Ext2.Sample.st.inodes 1
  next : 1 < s.fs.next
  dirs : ∀ i ∈ s.dirs, i = 1

theorem Rooted.ino {s : St Ext2.St} (h : Rooted s) {r : Nat} (hr : r ∈ s.dirs) : s.fs.ino r = 2 := by
  obtain rfl := h.dirs r hr
  show (s.fs.inodes 1).priv.ino = 2
  rw [h.root]
  decide

theorem Rooted.mounted {s : St Ext2.St} (h : Rooted s) : Ext2.Mounted Ext2.Sample.layout False s.dirs s.fs where
  valid := Ext2.Sample.mounted.valid.congr h.disk
  owns := by
    rw [h.vol]
    exact Ext2.Sample.mounted.owns
  counted hf := hf.elim
  fresh r hr := h.dirs r hr ▸ h.next
  live r hr := by
    rw [h.vol, h.ino hr]
    exact Ext2.Sample.mounted.live 1 (by decide)
  agree r hr := by
    rw [h.vol, h.ino hr, h.dirs r hr, h.root]
    exact Ext2.Sample.mounted.agree 1 (by decide)
  distinct r hr r' hr' _ := (h.dirs r hr).trans (h.dirs r' hr').symm

theorem Rooted.wellFormed {s : St Ext2.St} (h : Rooted s) {i : Nat} (hi : i ∈ s.dirs) :
    Ext2.Sample.layout.WellFormed (Ext2.Sample.layout.vol s.fs).blocks (Ext2.Sample.layout.vol s.fs) (s.fs.ino i)
      (Ext2.Sample.layout.dirBlocks (s.fs.inodes i).priv.i_size) := by
  rw [h.vol, h.ino hi, h.dirs i hi, h.root]
  intro l hl _
  have hl : l < 1 := lt_of_lt_of_le hl (by decide)
  obtain rfl : l = 0 := Nat.lt_one_iff.1 hl
  exact ⟨Ext2.recs 1024 Ext2.Sample.rootBlock 1024 0, by decide⟩

theorem rooted_boot : Rooted boot := ⟨rfl, rfl, rfl, by decide, by decide⟩

theorem rooted_found : Rooted found := ⟨rfl, rfl, rfl, by decide, by decide⟩

theorem coherent_boot : Coherent Ext2.Sample.layout boot where
  mounted := rooted_boot.mounted
  size := by decide
  wellFormed _ := rooted_boot.wellFormed
  names := by decide
  live := by simp only [Ext2.Vol.live]; decide
  type := by decide
  roots := by decide
  bounded := by decide
  keys := by decide
  key i hi p name h := by
    obtain rfl := mem_singleton.1 hi
    cases h

theorem coherent_found : Coherent Ext2.Sample.layout found where
  mounted := rooted_found.mounted
  size := by decide
  wellFormed _ := rooted_found.wellFormed
  names := by decide
  live := by simp only [Ext2.Vol.live]; decide
  type := by decide
  roots := by decide
  bounded := by decide
  keys := by decide
  key i hi p name h := by
    have hk : ∀ i ∈ found.cache, found.key i = ⟨none, [47]⟩ ∨ (i = 2 ∧ found.key i = ⟨some 1, [102]⟩) := by
      decide
    rcases hk i hi with h' | ⟨rfl, h'⟩
    · rw [h'] at h
      cases h
    · rw [h'] at h
      cases h
      exact ⟨by decide, by decide, by decide, by decide⟩

theorem found_at : found.At [47, 102] 1 [] [102] :=
  ⟨rfl, [47, 102], [47], .mk [47] 1 [], by decide, by decide, rfl, rfl, by decide, by decide, by decide⟩

/-- `/f` can be removed after it was looked up. -/
theorem unlink_found :
    Gone (ext2 Ext2.Sample.layout.fs) (unlink (ext2 Ext2.Sample.layout.fs) [47, 102]) [47, 102] found := by
  refine ((removal_iff coherent_found found_at (n := 11) (by decide) ?_ ?_ fun _ => ?_).1
    (by decide)).2 ⟨1, by decide, by decide⟩
  · intro c t ht he
    obtain ⟨-, rfl⟩ := append_eq_nil_iff.1 he.symm
    exact absurd rfl ht
  · intro p hp
    obtain rfl : 1 = p := Option.some.inj hp
    show permission _ _ _ = true
    decide
  · rfl

/-- Right after the mount `/f` is there and cannot be removed. -/
theorem unlink_boot_fails : Coherent Ext2.Sample.layout boot ∧
    Ext2.Sample.layout.resolve boot.fs [[102]] 2 = some 11 ∧
    ifmt (Ext2.Di.i_mode ((Ext2.Sample.layout.vol boot.fs).inode 11)) = S_IFREG ∧
    (lookup (ext2 Ext2.Sample.layout.fs) [47, 102] boot).1 = some 2 ∧
    (unlink (ext2 Ext2.Sample.layout.fs) [47, 102] boot).1 = false :=
  ⟨coherent_boot, by decide, by decide, by decide, by decide⟩

end Sample

end Vfs
