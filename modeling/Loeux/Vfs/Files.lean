import Loeux.Vfs.Refs
/-!
# Shared file objects

`dup` and `fork` make several descriptors share one file object. Its reference
count is the number of descriptors that name it, plus the references that calls
in progress hold, and its close action runs when that number becomes zero.
-/
open Lib Function List Nat

namespace Vfs

section

variable {σ α β : Type} {F : FileSystem σ}

/-! ## Calls that do not touch the file layer -/

/-- Files and descriptors are as they were. -/
structure SameFiles (s s' : St σ) : Prop where
  files : s'.files = s.files
  nfiles : s'.nfiles = s.nfiles
  tasks : s'.tasks = s.tasks
  current : s'.current = s.current
  gets : s'.gets = s.gets
  closes : s'.closes = s.closes

theorem SameFiles.refl (s : St σ) : SameFiles s s := ⟨rfl, rfl, rfl, rfl, rfl, rfl⟩

theorem SameFiles.trans {s s' s'' : St σ} (h : SameFiles s s') (h' : SameFiles s' s'') : SameFiles s s'' :=
  ⟨h'.files.trans h.files, h'.nfiles.trans h.nfiles, h'.tasks.trans h.tasks, h'.current.trans h.current,
    h'.gets.trans h.gets, h'.closes.trans h.closes⟩

def Quiet (p : M σ α) : Prop := ∀ s, SameFiles s (p s).2

theorem Quiet.pure (a : α) : Quiet (pure a : M σ α) := fun s => .refl s

theorem Quiet.get : Quiet (get : M σ (St σ)) := fun s => .refl s

theorem Quiet.bind {p : M σ α} {f : α → M σ β} (hp : Quiet p) (hf : ∀ a, Quiet (f a)) : Quiet (p >>= f) :=
  fun s => (hp s).trans (hf _ _)

theorem Quiet.ite {c : Prop} [Decidable c] {p q : M σ α} (hp : Quiet p) (hq : Quiet q) :
    Quiet (if c then p else q) := by
  split
  · exact hp
  · exact hq

theorem Quiet.modify {f : St σ → St σ} (hf : ∀ s, SameFiles s (f s)) : Quiet (modify f : M σ Unit) := hf

theorem quiet_slabAlloc : Quiet (slabAlloc : M σ Bool) := fun _ => ⟨rfl, rfl, rfl, rfl, rfl, rfl⟩

theorem quiet_call (c : Call) : Quiet (call F c) := by
  intro s
  unfold call
  dsimp only
  split <;> exact ⟨rfl, rfl, rfl, rfl, rfl, rfl⟩

theorem quiet_attrOf (i : Nat) : Quiet (attrOf F i) := fun s => .refl s

theorem quiet_mayI (i mask : Nat) : Quiet (mayI F i mask) := fun s => .refl s

theorem quiet_inodeGet (i : Nat) : Quiet (inodeGet i : M σ Unit) := fun _ => ⟨rfl, rfl, rfl, rfl, rfl, rfl⟩

theorem quiet_inodePut (i : Nat) : Quiet (inodePut F i) := by
  intro s
  rw [inodePut_eq]
  dsimp only
  split
  · exact .refl s
  · split <;> exact ⟨rfl, rfl, rfl, rfl, rfl, rfl⟩

theorem quiet_inodeCacheFind (parent : Nat) (name : Name) : Quiet (inodeCacheFind parent name : M σ (Option Nat)) := by
  unfold inodeCacheFind
  refine .ite (.pure _) <| .bind quiet_slabAlloc fun _ => .ite (.pure _) <| .ite (.pure _) <| .bind .get fun s => ?_
  split
  · exact .bind (quiet_inodeGet _) fun _ => .pure _
  · exact .pure _

theorem quiet_inodeCacheInsert (i : Nat) : Quiet (inodeCacheInsert F i) := by
  unfold inodeCacheInsert
  refine .bind .get fun _ => .ite (.pure _) <| .bind (quiet_inodeGet _) fun _ => .bind .get fun _ => ?_
  refine .ite (.bind (quiet_inodePut _) fun _ => .pure _) <| .bind quiet_slabAlloc fun _ => ?_
  refine .ite (.bind (quiet_inodePut _) fun _ => .pure _) <| .bind (.modify fun s => ?_) fun _ => .pure _
  exact ⟨rfl, rfl, rfl, rfl, rfl, rfl⟩

theorem quiet_walk (names : List Name) (current : Nat) : Quiet (walk F names current) := by
  induction names generalizing current with
  | nil => exact .pure _
  | cons name rest ih =>
    have hput : ∀ i, Quiet (do inodePut F i; return (none : Option Nat)) := fun i =>
      .bind (quiet_inodePut i) fun _ => .pure _
    unfold walk
    refine .ite (hput _) <| .bind (quiet_mayI _ _) fun _ => .ite (hput _) <|
      .bind (quiet_inodeCacheFind _ _) fun r => ?_
    cases r with
    | some next => exact .bind (quiet_inodePut _) fun _ => ih _
    | none =>
      refine .bind (quiet_call _) fun r => ?_
      cases r with
      | none => exact hput _
      | some next =>
        refine .bind (.modify fun s => ⟨rfl, rfl, rfl, rfl, rfl, rfl⟩) fun _ => .bind (quiet_inodeGet _) fun _ =>
          .bind (quiet_inodeCacheInsert _) fun _ => .ite ?_ <| .bind (quiet_inodePut _) fun _ => ih _
        exact .bind (quiet_inodePut _) fun _ => .bind (quiet_inodePut _) fun _ => hput _

theorem quiet_lookup (path : Name) : Quiet (lookup F path) := by
  unfold lookup
  refine .bind quiet_slabAlloc fun _ => .ite (.pure _) <| .bind .get fun s => ?_
  cases normalize path s.task.cwd_path with
  | none => exact .pure _
  | some path =>
    show Quiet (lookupImpl F path)
    unfold lookupImpl
    refine .bind .get fun s => ?_
    dsimp only
    split
    · refine .bind (quiet_inodeGet _) fun _ => .ite (.pure _) <| .bind quiet_slabAlloc fun _ => .ite ?_ (quiet_walk _ _)
      exact .bind (quiet_inodePut _) fun _ => .pure _
    · exact .pure _

theorem quiet_enterParent (path : Name) : Quiet (enterParent F path) := by
  have hparent : Quiet (lookupParent F path) := by
    unfold lookupParent
    refine .bind quiet_slabAlloc fun _ => .ite (.pure _) <| .bind .get fun s => ?_
    cases normalize path s.task.cwd_path with
    | none => exact .pure _
    | some path =>
      dsimp only
      cases splitParent path with
      | none => exact .pure _
      | some r =>
        refine .bind quiet_slabAlloc fun _ => .ite (.pure _) <| .bind (quiet_lookup _) fun r => ?_
        cases r <;> exact .pure _
  unfold enterParent
  refine .bind quiet_slabAlloc fun _ => .ite (.pure _) <| .bind hparent fun r => ?_
  cases r with
  | none => exact .pure _
  | some r =>
    have hput : ∀ i, Quiet (do inodePut F i; return (none : Option (Nat × Name))) := fun i =>
      .bind (quiet_inodePut i) fun _ => .pure _
    exact .bind (quiet_attrOf _) fun _ => .ite (hput _) <| .bind (quiet_mayI _ _) fun _ => .ite (hput _) (.pure _)

theorem quiet_create (path : Name) (mode : Nat) : Quiet (create F path mode) := by
  have hput : ∀ i, Quiet (do inodePut F i; return (none : Option Nat)) := fun i =>
    .bind (quiet_inodePut i) fun _ => .pure _
  unfold create
  refine .bind (quiet_enterParent _) fun r => ?_
  cases r with
  | none => exact .pure _
  | some r =>
    refine .bind (quiet_inodeCacheFind _ _) fun r => ?_
    cases r with
    | some exist => exact .bind (quiet_inodePut _) fun _ => hput _
    | none =>
      refine .bind (quiet_call _) fun r => ?_
      cases r with
      | none => exact hput _
      | some new_inode =>
        refine .bind ?_ fun _ => .ite (.pure _) <| .bind (quiet_inodeGet _) fun _ =>
          .bind (quiet_inodePut _) fun _ => .bind (quiet_inodePut _) fun _ => .pure _
        unfold adopt
        refine .bind (quiet_attrOf _) fun _ => .bind .get fun _ => .bind (quiet_call _) fun _ =>
          .bind (.modify fun s => ⟨rfl, rfl, rfl, rfl, rfl, rfl⟩) fun _ => .bind (quiet_inodeGet _) fun _ =>
          .bind (quiet_inodeCacheInsert _) fun _ => .ite ?_ (.pure _)
        exact .bind (quiet_inodePut _) fun _ => .bind (quiet_inodePut _) fun _ =>
          .bind (quiet_inodePut _) fun _ => .pure _

theorem quiet_openInode (path : Name) (flags : Nat) : Quiet (openInode F path flags) := by
  unfold openInode
  refine .ite (.bind (quiet_lookup _) fun r => ?_) (quiet_lookup _)
  cases r with
  | none => exact quiet_create _ _
  | some i => exact .ite (.bind (quiet_inodePut _) fun _ => .pure _) (.pure _)

theorem quiet_prepare (i flags : Nat) : Quiet (prepare F i flags) := by
  have htrunc : Quiet (truncate F i 0) := .bind (quiet_mayI _ _) fun _ => .ite (.pure _) (quiet_call _)
  unfold prepare
  refine .bind (quiet_attrOf _) fun _ => .ite (.pure _) ?_
  cases accessMask flags with
  | none => exact .pure _
  | some mask =>
    refine .bind (quiet_mayI _ _) fun _ => .ite (.pure _) <| .ite ?_ (.pure _)
    exact .ite (.pure _) <| .bind htrunc fun _ => .ite (.pure _) (.pure _)

/-! ## Descriptors that name a file -/

def slots (s : St σ) (f : Nat) : Nat := ∑ t ∈ Finset.range NTASKS, Refs.count NOFILE (s.tasks t).ofile f

/-- A file object with `n` references counts them and its close action has not run; if it is freed there are none, and
the action has run once if there ever were. -/
def FileOk (n : Nat) (file : Option File) (gets closes : Nat) : Prop :=
  match file with
  | some file => file.refcount = n ∧ closes = 0 ∧ (n = 0 ↔ gets = 0)
  | none => n = 0 ∧ closes = if 0 < gets then 1 else 0

/-- The reference counts of files count the descriptors and `h`, the references of
calls in progress. -/
structure Shared (h : Nat → Nat) (s : St σ) : Prop where
  each : ∀ f, FileOk (slots s f + h f) (s.files f) (s.gets f) (s.closes f)
  fresh : ∀ f, s.nfiles ≤ f → s.files f = none ∧ s.gets f = 0
  idle : ∀ t, (s.tasks t).state ≠ .running → ∀ fd, fd < NOFILE → (s.tasks t).ofile fd = none

variable {h : Nat → Nat} {s s' : St σ} {f t fd : Nat}

section

variable (hs : Shared h s)

include hs

theorem Shared.same (e : SameFiles s s') : Shared h s' := by
  obtain ⟨h1, h2, h3, -, h5, h6⟩ := e
  have hslots : ∀ f, slots s' f = slots s f := fun f => by rw [slots, h3]; rfl
  refine ⟨?_, ?_, ?_⟩
  · intro f
    rw [hslots, h1, h5, h6]
    exact hs.each f
  · intro f hf
    rw [h1, h5]
    exact hs.fresh f (h2 ▸ hf)
  · intro t
    rw [h3]
    exact hs.idle t

theorem Shared.quiet {p : M σ α} (hp : Quiet p) : Act.wp p (fun _ s' => Shared h s' ∧ SameFiles s s') s :=
  ⟨hs.same (hp s), hp s⟩

theorem Shared.exists_file (hf : slots s f + h f ≠ 0) : ∃ file, s.files f = some file := by
  cases hfile : s.files f with
  | some file => exact ⟨file, rfl⟩
  | none =>
    have := hs.each f
    rw [hfile] at this
    exact absurd this.1 hf

theorem Shared.lt_nfiles {file : File} (hf : s.files f = some file) : f < s.nfiles := by
  by_contra hlt
  rw [(hs.fresh f (Nat.not_lt.1 hlt)).1] at hf
  cases hf

omit hs in
theorem slots_pos (ht : t < NTASKS) (hfd : fd < NOFILE) (hf : (s.tasks t).ofile fd = some f) : slots s f ≠ 0 := by
  have h1 := Refs.count_pos hfd hf
  have h2 : Refs.count NOFILE (s.tasks t).ofile f ≤ slots s f :=
    Finset.single_le_sum (f := fun t => Refs.count NOFILE (s.tasks t).ofile f) (fun _ _ => Nat.zero_le _)
      (Finset.mem_range.2 ht)
  omega

variable {task : Task}

omit hs in
theorem slots_setTask {x : Option Nat} (ht : t < NTASKS) (hfd : fd < NOFILE)
    (htask : task.ofile = update (s.tasks t).ofile fd x) (f : Nat) :
    slots (s.setTask t task) f + Refs.one ((s.tasks t).ofile fd) f = slots s f + Refs.one x f := by
  have h1 : Refs.count NOFILE task.ofile f + Refs.one ((s.tasks t).ofile fd) f =
      Refs.count NOFILE (s.tasks t).ofile f + Refs.one x f :=
    Refs.count_update hfd x fun j _ => by rw [htask]
  have h2 := Tally.sum_update (fun t => Refs.count NOFILE (s.tasks t).ofile f) ht (Refs.count NOFILE task.ofile f)
  have h3 : slots (s.setTask t task) f =
      ∑ u ∈ Finset.range NTASKS, update (fun t => Refs.count NOFILE (s.tasks t).ofile f) t
        (Refs.count NOFILE task.ofile f) u := by
    refine Finset.sum_congr rfl fun u _ => ?_
    unfold St.setTask
    by_cases hu : u = t
    · subst hu
      simp
    · simp [hu]
  have h4 : slots s f = ∑ u ∈ Finset.range NTASKS, Refs.count NOFILE (s.tasks u).ofile f := rfl
  omega

theorem Shared.setTask {h' : Nat → Nat} (hh : ∀ f, slots (s.setTask t task) f + h' f = slots s f + h f)
    (hidle : task.state ≠ .running → ∀ fd, fd < NOFILE → task.ofile fd = none) : Shared h' (s.setTask t task) where
  each f := by
    rw [hh]
    exact hs.each f
  fresh := hs.fresh
  idle u hu := by
    unfold St.setTask at hu ⊢
    by_cases e : u = t
    · subst e
      simp only [update_self] at hu ⊢
      exact hidle hu
    · simp only [update_of_ne e] at hu ⊢
      exact hs.idle u hu

theorem Shared.setTask_same (ht : task.ofile = (s.tasks t).ofile)
    (hst : task.state = .running ∨ task.state = (s.tasks t).state) : Shared h (s.setTask t task) := by
  refine hs.setTask (fun f => ?_) fun hr => ?_
  · have : slots (s.setTask t task) f = slots s f := by
      refine Finset.sum_congr rfl fun u _ => ?_
      unfold St.setTask
      by_cases hu : u = t
      · subst hu
        simp [ht]
      · simp [hu]
    rw [this]
  · rw [ht]
    rcases hst with hst | hst
    · exact absurd hst hr
    · exact hs.idle t (hst ▸ hr)

theorem Shared.setSlot {h' : Nat → Nat} {x : Option Nat} (ht : t < NTASKS)
    (hfd : fd < NOFILE) (htask : task.ofile = update (s.tasks t).ofile fd x)
    (hst : task.state = (s.tasks t).state) (hx : x = none ∨ (s.tasks t).state = .running)
    (hh : ∀ f, h' f + Refs.one x f = h f + Refs.one ((s.tasks t).ofile fd) f) : Shared h' (s.setTask t task) := by
  refine hs.setTask (fun f => ?_) fun hr g hg => ?_
  · have h1 := slots_setTask (s := s) ht hfd htask f
    have h2 := hh f
    omega
  · rw [htask]
    by_cases hg' : g = fd
    · subst hg'
      rw [update_self]
      rcases hx with hx | hx
      · exact hx
      · exact absurd (hst.trans hx) hr
    · rw [update_of_ne hg']
      exact hs.idle t (hst ▸ hr) g hg

end

/-! ## Taking and giving back references -/

section Rules

open Act

theorem Shared.setFile {h' : Nat → Nat} {x : Option File} (hs : Shared h s) (hfiles : s'.files = update s.files f x)
    (htasks : s'.tasks = s.tasks) (hn : s.nfiles ≤ s'.nfiles) (hf : f < s'.nfiles)
    (hh : ∀ g, g ≠ f → h' g = h g ∧ s'.gets g = s.gets g ∧ s'.closes g = s.closes g)
    (hx : FileOk (slots s f + h' f) x (s'.gets f) (s'.closes f)) : Shared h' s' := by
  have hslots : ∀ g, slots s' g = slots s g := fun g => by rw [slots, htasks]; rfl
  refine ⟨?_, ?_, ?_⟩
  · intro g
    rw [hslots, hfiles]
    by_cases e : g = f
    · subst e
      rw [update_self]
      exact hx
    · obtain ⟨h1, h2, h3⟩ := hh g e
      rw [update_of_ne e, h1, h2, h3]
      exact hs.each g
  · intro g hg
    have e : g ≠ f := by omega
    rw [hfiles, update_of_ne e, (hh g e).2.1]
    exact hs.fresh g (hn.trans hg)
  · rw [htasks]
    exact hs.idle

variable {file : File}

theorem Shared.get (hs : Shared h s) (hf : s.files f = some file) : Shared (plus h (some f))
      ((s.setFile f ((s.files f).map fun file => { file with refcount := file.refcount + 1 })).countGet f) := by
  refine hs.setFile rfl rfl le_rfl (hs.lt_nfiles hf) (fun g hg => ?_) ?_
  · exact ⟨plus_of_ne hg, update_of_ne hg .., rfl⟩
  · have h1 := hs.each f
    rw [hf] at h1
    obtain ⟨h1, h2, -⟩ := h1
    have hgets : update s.gets f (s.gets f + 1) f = s.gets f + 1 := update_self ..
    rw [hf, plus_self]
    refine ⟨?_, h2, ?_⟩
    · show file.refcount + 1 = _
      omega
    · show _ ↔ update s.gets f (s.gets f + 1) f = 0
      rw [hgets]
      omega

theorem Shared.drop (hs : Shared (plus h (some f)) s) (hf : s.files f = some file)
    (h0 : file.refcount - 1 ≠ 0) : Shared h (s.setFile f (some { file with refcount := file.refcount - 1 })) := by
  refine hs.setFile rfl rfl le_rfl (hs.lt_nfiles hf) (fun g hg => ⟨(plus_of_ne hg).symm, rfl, rfl⟩) ?_
  have h1 := hs.each f
  rw [hf, plus_self] at h1
  obtain ⟨h1, h2, h3⟩ := h1
  refine ⟨?_, h2, ?_⟩
  · show file.refcount - 1 = _
    omega
  · show _ ↔ s.gets f = 0
    rw [← h3]
    omega

theorem Shared.last (hs : Shared (plus h (some f)) s) (hf : s.files f = some file)
    (h0 : file.refcount - 1 = 0) (hfiles : s'.files = update s.files f none)
    (htasks : s'.tasks = s.tasks) (hn : s'.nfiles = s.nfiles) (hgets : s'.gets = s.gets)
    (hcloses : s'.closes = update s.closes f (s.closes f + 1)) : Shared h s' := by
  refine hs.setFile hfiles htasks hn.ge (hn ▸ hs.lt_nfiles hf) (fun g hg => ⟨(plus_of_ne hg).symm, ?_, ?_⟩) ?_
  · rw [hgets]
  · rw [hcloses, update_of_ne hg]
  · have h1 := hs.each f
    rw [hf, plus_self] at h1
    obtain ⟨h1, h2, h3⟩ := h1
    refine ⟨by omega, ?_⟩
    rw [hcloses, hgets, update_self, h2, if_pos (by omega)]

theorem wp_fileGet_shared (hs : Shared h s) (hf : s.files f = some file) :
    wp (fileGet f) (fun _ s' => Shared (plus h (some f)) s' ∧ s'.tasks = s.tasks ∧ s'.current = s.current) s :=
  ⟨hs.get hf, rfl, rfl⟩

theorem wp_filePut_shared (hs : Shared (plus h (some f)) s) :
    wp (filePut F f) (fun _ s' => Shared h s' ∧ s'.tasks = s.tasks ∧ s'.current = s.current) s := by
  obtain ⟨file, hf⟩ := hs.exists_file (f := f) (by rw [plus_self]; omega)
  unfold filePut
  rw [wp_bind, wp_get, hf]
  dsimp only
  rw [wp_bind, wp_modify]
  by_cases h0 : file.refcount - 1 = 0
  · rw [if_pos h0, wp_bind]
    -- the calls between the two stores into the file table are quiet
    refine Act.wp_mono (Q := fun _ s1 => SameFiles _ s1) (quiet_call _ _) fun _ s1 h1 => ?_
    rw [wp_bind, wp_modify]
    have key : ∀ s2, SameFiles (s1.countClose f) s2 → Shared h (s2.setFile f none) ∧
        (s2.setFile f none).tasks = s.tasks ∧ (s2.setFile f none).current = s.current := by
      intro s2 h2
      have ht := h2.tasks.trans h1.tasks
      refine ⟨hs.last hf h0 ?_ ht (h2.nfiles.trans h1.nfiles) (h2.gets.trans h1.gets) ?_, ht,
        h2.current.trans h1.current⟩
      · show update s2.files f none = _
        rw [h2.files.trans h1.files]
        exact update_idem ..
      · show s2.closes = _
        rw [h2.closes]
        show update s1.closes f (s1.closes f + 1) = _
        rw [h1.closes]
        rfl
    cases file.target.inode? with
    | none => exact key _ (.refl _)
    | some i => exact key _ (quiet_inodePut i _)
  · rw [if_neg h0]
    exact ⟨hs.drop hf h0, rfl, rfl⟩

/-! ## Descriptors -/

/-- The running task is a task, and running. -/
def St.Running (s : St σ) : Prop := s.current < NTASKS ∧ s.task.state = .running

theorem St.Running.congr (hr : s.Running) (ht : s'.tasks = s.tasks) (hc : s'.current = s.current) : s'.Running := by
  unfold St.Running St.task at hr ⊢
  rw [ht, hc]
  exact hr

theorem St.Running.same (hr : s.Running) (he : SameFiles s s') : s'.Running := hr.congr he.tasks he.current

variable (hs : Shared h s)

include hs

section

variable (hr : s.Running)

include hr

theorem Shared.setFd {h' : Nat → Nat} {x : Option Nat} (hfd : fd < NOFILE)
    (hh : ∀ f, h' f + Refs.one x f = h f + Refs.one (s.task.ofile fd) f) :
    Shared h' (s.setTask s.current { s.task with ofile := update s.task.ofile fd x }) :=
  hs.setSlot hr.1 hfd rfl rfl (.inr hr.2) hh

omit hs in
theorem St.Running.setFd (x : Option Nat) :
    (s.setTask s.current { s.task with ofile := update s.task.ofile fd x }).Running := by
  refine ⟨hr.1, ?_⟩
  show (update s.tasks s.current { s.task with ofile := update s.task.ofile fd x } s.current).state = _
  rw [update_self]
  exact hr.2

theorem wp_fdAlloc_shared (hf : s.files f = some file) :
    wp (fdAlloc f) (fun r s' => Shared h s' ∧ s'.Running ∧ (r = none → s' = s)) s := by
  unfold fdAlloc
  rw [wp_bind, wp_get]
  dsimp only
  cases hfind : (List.range NOFILE).find? fun fd => decide (s.task.ofile fd = none) with
  | none => exact ⟨hs, hr, fun _ => rfl⟩
  | some fd =>
    have hnone : s.task.ofile fd = none := by simpa using find?_some hfind
    have hfd : fd < NOFILE := mem_range.1 (mem_of_find?_eq_some hfind)
    -- the reference is taken after the store; for the counts it is the other way round
    have hh : ∀ g, h g + Refs.one (some f) g = plus h (some f) g + Refs.one (s.task.ofile fd) g := fun g => by
      rw [hnone]
      rfl
    exact ⟨(hs.get hf).setFd hr hfd hh, hr.setFd _, fun e => by cases e⟩

theorem wp_fdGet_shared (fd : Nat) : wp (fdGet fd) (fun r s' => Shared (plus h r) s' ∧ s'.Running) s := by
  unfold fdGet
  split_ifs with hfd
  · exact ⟨hs, hr⟩
  rw [wp_bind, wp_get]
  cases hslot : s.task.ofile fd with
  | none => exact ⟨hs, hr⟩
  | some f =>
    have hpos : slots s f ≠ 0 := slots_pos hr.1 (Nat.lt_of_not_le hfd) hslot
    obtain ⟨file, hf⟩ := hs.exists_file (f := f) (by omega)
    exact ⟨hs.get hf, hr.congr rfl rfl⟩

theorem wp_dup_shared (oldfd : Nat) : wp (dup F oldfd) (fun _ s' => Shared h s' ∧ s'.Running) s := by
  unfold dup
  refine Act.wp_then (wp_fdGet_shared hs hr oldfd) fun r s1 ⟨h1, r1⟩ => ?_
  cases r with
  | none => exact ⟨h1, r1⟩
  | some f =>
    obtain ⟨file, hf⟩ := h1.exists_file (f := f) (by rw [plus_self]; omega)
    dsimp only
    refine Act.wp_then (wp_fdAlloc_shared h1 r1 hf) fun newfd s2 ⟨h2, r2, _⟩ => ?_
    rw [wp_bind]
    exact Act.wp_mono (wp_filePut_shared h2) fun _ s3 ⟨h3, ht, hc⟩ => ⟨h3, r2.congr ht hc⟩

theorem wp_fdClose_shared (fd : Nat) : wp (fdClose F fd) (fun _ s' => Shared h s' ∧ s'.Running) s := by
  unfold fdClose
  split_ifs with hfd
  · exact ⟨hs, hr⟩
  rw [wp_bind, wp_get]
  cases hslot : s.task.ofile fd with
  | none => exact ⟨hs, hr⟩
  | some f =>
    dsimp only
    rw [wp_bind, wp_setFd, wp_bind]
    have hh : ∀ g, plus h (some f) g + Refs.one none g = h g + Refs.one (s.task.ofile fd) g := fun g => by
      rw [hslot]
      rfl
    exact Act.wp_mono (wp_filePut_shared (hs.setFd hr (Nat.lt_of_not_le hfd) hh)) fun _ s2 ⟨h2, ht, hc⟩ => ⟨h2, (hr.setFd _).congr ht hc⟩

theorem wp_install_shared (h0 : file.refcount = 0) : wp (install F file) (fun _ s' => Shared h s' ∧ s'.Running) s := by
  unfold install
  rw [wp_bind, wp_newFile, wp_bind]
  have hfresh := hs.fresh s.nfiles le_rfl
  have heach := hs.each s.nfiles
  rw [hfresh.1, hfresh.2] at heach
  have h1 : Shared h { s.setFile s.nfiles (some file) with nfiles := s.nfiles + 1 } := by
    refine hs.setFile rfl rfl (le_succ _) (lt_succ_self _) (fun g hg => ⟨rfl, rfl, rfl⟩) ?_
    exact ⟨by rw [h0, heach.1], heach.2, iff_of_true heach.1 hfresh.2⟩
  refine Act.wp_mono (wp_fdAlloc_shared h1 (hr.congr rfl rfl) (update_self ..)) fun r s' ⟨h', r', hnone⟩ => ?_
  cases r with
  | some fd => exact ⟨h', r'⟩
  | none =>
    have e := hnone rfl
    subst e
    -- no descriptor: the file is freed without having been used
    have key : ∀ s2, SameFiles { s.setFile s.nfiles (some file) with nfiles := s.nfiles + 1 } s2 →
        Shared h (s2.setFile s.nfiles none) ∧ (s2.setFile s.nfiles none).Running := by
      intro s2 h2
      refine ⟨?_, (r'.same h2).congr rfl rfl⟩
      refine (h'.same h2).setFile rfl rfl le_rfl ?_ (fun g hg => ⟨rfl, rfl, rfl⟩) ?_
      · show s.nfiles < s2.nfiles
        rw [h2.nfiles]
        exact lt_succ_self _
      · have hslots : slots s2 s.nfiles = slots s s.nfiles := by rw [slots, h2.tasks]; rfl
        show FileOk _ none (s2.gets s.nfiles) (s2.closes s.nfiles)
        rw [hslots, h2.gets, h2.closes]
        show FileOk _ none (s.gets s.nfiles) (s.closes s.nfiles)
        rw [hfresh.2]
        exact heach
    cases file.target.inode? with
    | none => exact key _ (.refl _)
    | some i => exact key _ (quiet_inodePut i _)

theorem wp_openPath_shared (path : Name) (flags : Nat) :
    wp (openPath F path flags) (fun _ s' => Shared h s' ∧ s'.Running) s := by
  unfold openPath
  by_cases hdev : path.take 5 = devDir
  · rw [if_pos hdev]
    cases F.device (path.drop 5) with
    | none => exact ⟨hs, hr⟩
    | some d =>
      dsimp only
      refine Act.wp_then (hs.quiet (quiet_call (.devOpen d flags))) fun r s1 ⟨h1, e1⟩ => ?_
      cases r with
      | false => exact ⟨h1, hr.same e1⟩
      | true =>
        simp only [if_not_true]
        refine Act.wp_then (h1.quiet quiet_slabAlloc) fun b s2 ⟨h2, e2⟩ => ?_
        cases b
        · exact ⟨h2, hr.same (e1.trans e2)⟩
        · exact wp_install_shared (F := F) h2 (hr.same (e1.trans e2)) rfl
  · rw [if_neg hdev]
    refine Act.wp_then (hs.quiet (quiet_openInode path flags)) fun r s1 ⟨h1, e1⟩ => ?_
    cases r with
    | none => exact ⟨h1, hr.same e1⟩
    | some i =>
      dsimp only
      refine Act.wp_then (h1.quiet (quiet_prepare i flags)) fun r s2 ⟨h2, e2⟩ => ?_
      have r2 := hr.same (e1.trans e2)
      have hput : ∀ {s' : St σ}, Shared h s' → s'.Running →
          wp (do inodePut F i; return (none : Option Nat)) (fun _ s'' => Shared h s'' ∧ s''.Running) s' :=
        fun h' r' => Act.wp_mono (h'.quiet (.bind (quiet_inodePut i) fun _ => .pure _)) fun _ _ h'' =>
          ⟨h''.1, r'.same h''.2⟩
      cases r with
      | false => exact hput h2 r2
      | true =>
        simp only [if_not_true]
        refine Act.wp_then (h2.quiet quiet_slabAlloc) fun b s3 ⟨h3, e3⟩ => ?_
        cases b
        · exact hput h3 (r2.same e3)
        simp only [if_not_true]
        rw [wp_bind]
        exact wp_attrOf fun a => wp_install_shared h3 (r2.same e3) rfl

/-! ## Tasks -/

omit hr in
theorem wp_setPos_shared (hf : s.files f = some file) (pos : Nat) :
    wp (setPos f pos) (fun _ s' => Shared h s' ∧ s'.tasks = s.tasks ∧ s'.current = s.current) s := by
  refine ⟨?_, rfl, rfl⟩
  refine hs.setFile rfl rfl le_rfl (hs.lt_nfiles hf) (fun g _ => ⟨rfl, rfl, rfl⟩) ?_
  have h1 := hs.each f
  rw [hf] at h1 ⊢
  exact h1

theorem wp_call_shared {c : Call} {k : Ans c → M σ α} {Q : α → St σ → Prop}
    (hk : ∀ r s', Shared h s' → s'.Running → s'.files = s.files → wp (k r) Q s') : wp (call F c >>= k) Q s := by
  rw [wp_bind]
  exact Act.wp_mono (hs.quiet (quiet_call c)) fun r s' ⟨h', e'⟩ => hk r s' h' (hr.same e') e'.files

theorem wp_read_shared (count : Nat) : wp (read F f count) (fun _ s' => Shared h s' ∧ s'.Running) s := by
  unfold read
  rw [wp_bind, wp_get]
  cases hf : s.files f with
  | none => exact ⟨hs, hr⟩
  | some file =>
    refine wp_call_shared hs hr fun r s1 h1 r1 e1 => ?_
    cases r with
    | none => exact ⟨h1, r1⟩
    | some data =>
      dsimp only
      rw [wp_bind]
      exact Act.wp_mono (wp_setPos_shared h1 (e1 ▸ hf) _) fun _ _ ⟨h2, ht, hc⟩ => ⟨h2, r1.congr ht hc⟩

theorem wp_seek_shared (offset : Int) (whence : Nat) :
    wp (seek F f offset whence) (fun _ s' => Shared h s' ∧ s'.Running) s := by
  unfold seek
  rw [wp_bind, wp_get]
  cases hf : s.files f with
  | none => exact ⟨hs, hr⟩
  | some file =>
    refine wp_call_shared hs hr fun r s1 h1 r1 e1 => ?_
    cases r with
    | none => exact ⟨h1, r1⟩
    | some pos =>
      dsimp only
      rw [wp_bind]
      exact Act.wp_mono (wp_setPos_shared h1 (e1 ▸ hf) _) fun _ _ ⟨h2, ht, hc⟩ => ⟨h2, r1.congr ht hc⟩

theorem wp_load_shared (steps : List LoadStep) : wp (load F f steps) (fun _ s' => Shared h s' ∧ s'.Running) s := by
  induction steps generalizing s with
  | nil => exact ⟨hs, hr⟩
  | cons step rest ih =>
    cases step with
    | read count =>
      unfold load
      rw [wp_bind]
      exact Act.wp_mono (wp_read_shared hs hr count) fun _ s' ⟨h', r'⟩ => ih h' r'
    | seek offset whence =>
      unfold load
      rw [wp_bind]
      exact Act.wp_mono (wp_seek_shared hs hr offset whence) fun _ s' ⟨h', r'⟩ => ih h' r'

theorem wp_kexec_shared (path : Name) (steps : List LoadStep) :
    wp (kexec F path steps) (fun _ s' => Shared h s' ∧ s'.Running) s := by
  unfold kexec
  refine Act.wp_then (wp_openPath_shared hs hr path O_RDONLY) fun r s1 ⟨h1, r1⟩ => ?_
  cases r with
  | none => exact ⟨h1, r1⟩
  | some fd =>
    dsimp only
    refine Act.wp_then (wp_fdGet_shared h1 r1 fd) fun r s2 ⟨h2, r2⟩ => ?_
    cases r with
    | none =>
      dsimp only
      rw [wp_bind]
      exact Act.wp_mono (wp_fdClose_shared h2 r2 fd) fun _ _ h' => h'
    | some ef =>
      dsimp only
      refine Act.wp_then (wp_load_shared h2 r2 steps) fun _ s3 ⟨h3, r3⟩ => ?_
      refine Act.wp_then (wp_filePut_shared h3) fun _ s4 ⟨h4, ht, hc⟩ => ?_
      rw [wp_bind]
      exact Act.wp_mono (wp_fdClose_shared h4 (r3.congr ht hc) fd) fun _ _ h' => h'

end

omit hs in
structure OnlyTask (t : Nat) (s s' : St σ) : Prop where
  current : s'.current = s.current
  state : (s'.tasks t).state = (s.tasks t).state
  others : ∀ u, u ≠ t → s'.tasks u = s.tasks u

omit hs in
theorem OnlyTask.refl (t : Nat) (s : St σ) : OnlyTask t s s := ⟨rfl, rfl, fun _ _ => rfl⟩

omit hs in
theorem OnlyTask.trans {s s' s'' : St σ} (h : OnlyTask t s s') (h' : OnlyTask t s' s'') : OnlyTask t s s'' :=
  ⟨h'.current.trans h.current, h'.state.trans h.state, fun u hu => (h'.others u hu).trans (h.others u hu)⟩

omit hs in
theorem OnlyTask.of_tasks (ht : s'.tasks = s.tasks) (hc : s'.current = s.current) : OnlyTask t s s' :=
  ⟨hc, by rw [ht], fun u _ => by rw [ht]⟩

omit hs in
theorem OnlyTask.setTask {task : Task} (hst : task.state = (s.tasks t).state) : OnlyTask t s (s.setTask t task) := by
  refine ⟨rfl, ?_, fun u hu => update_of_ne hu ..⟩
  show (update s.tasks t task t).state = _
  rw [update_self, hst]

omit hs in
theorem St.setTask_self (s : St σ) (t : Nat) (task : Task) : (s.setTask t task).tasks t = task :=
  update_self ..

theorem wp_closeFrom_shared (ht : t < NTASKS) (n fd : Nat) (hn : fd + n = NOFILE)
    (hdone : ∀ g, g < fd → (s.tasks t).ofile g = none) :
    wp (closeFrom F t n fd)
      (fun _ s' => Shared h s' ∧ OnlyTask t s s' ∧ ∀ g, g < NOFILE → (s'.tasks t).ofile g = none) s := by
  induction n generalizing s fd with
  | zero => exact ⟨hs, .refl t s, fun g hg => hdone g (by omega)⟩
  | succ n ih =>
    have hclear : (s.setTask t { s.tasks t with ofile := update (s.tasks t).ofile fd none }).tasks t = _ :=
      s.setTask_self t _
    -- the rest of the loop, from a state with the descriptor cleared
    have key : ∀ s1, s1.tasks = (s.setTask t { s.tasks t with ofile := update (s.tasks t).ofile fd none }).tasks →
        s1.current = s.current → Shared h s1 → wp (closeFrom F t n (fd + 1))
          (fun _ s' => Shared h s' ∧ OnlyTask t s s' ∧ ∀ g, g < NOFILE → (s'.tasks t).ofile g = none) s1 := by
      intro s1 ht1 hc1 h₁
      have hdone1 : ∀ g, g < fd + 1 → (s1.tasks t).ofile g = none := by
        intro g hg
        rw [ht1, hclear]
        show update (s.tasks t).ofile fd none g = none
        by_cases e : g = fd
        · rw [e, update_self]
        · rw [update_of_ne e]
          exact hdone g (by omega)
      have hset : OnlyTask t s (s.setTask t { s.tasks t with ofile := update (s.tasks t).ofile fd none }) :=
        .setTask rfl
      have honly : OnlyTask t s s1 := hset.trans (.of_tasks ht1 hc1)
      exact Act.wp_mono (ih h₁ (fd + 1) (by omega) hdone1) fun _ s' ⟨h', o', d'⟩ => ⟨h', honly.trans o', d'⟩
    unfold closeFrom
    rw [wp_bind, wp_get]
    dsimp only
    rw [wp_bind, wp_modify]
    cases hslot : (s.tasks t).ofile fd with
    | none =>
      refine key _ rfl rfl (hs.setSlot ht (by omega) rfl rfl (.inl rfl) fun g => ?_)
      rw [hslot]
    | some f =>
      dsimp only
      rw [wp_bind]
      have h1 : Shared (plus h (some f)) (s.setTask t { s.tasks t with ofile := update (s.tasks t).ofile fd none }) :=
        hs.setSlot ht (by omega) rfl rfl (.inl rfl) fun g => by
          rw [hslot]
          rfl
      exact Act.wp_mono (wp_filePut_shared h1) fun _ s2 ⟨h2, ht2, hc2⟩ => key s2 ht2 hc2 h2

theorem wp_exitFs_shared (ht : t < NTASKS) : wp (exitFs F t)
      (fun _ s' => Shared h s' ∧ OnlyTask t s s' ∧ ∀ g, g < NOFILE → (s'.tasks t).ofile g = none) s := by
  unfold exitFs
  refine Act.wp_then (wp_closeFrom_shared hs ht NOFILE 0 (Nat.zero_add _) fun g hg => absurd hg (Nat.not_lt_zero _))
    fun _ s1 ⟨h1, o1, d1⟩ => ?_
  rw [wp_bind, wp_get]
  have hstore : ∀ {s2 : St σ} {task : Task}, Shared h s2 → OnlyTask t s s2 →
      (∀ g, g < NOFILE → (s2.tasks t).ofile g = none) → task.ofile = (s2.tasks t).ofile →
      task.state = (s2.tasks t).state → Shared h (s2.setTask t task) ∧ OnlyTask t s (s2.setTask t task) ∧
        ∀ g, g < NOFILE → ((s2.setTask t task).tasks t).ofile g = none := by
    intro s2 task h2 o2 d2 ho hst
    refine ⟨h2.setTask_same ho (.inr hst), o2.trans (.setTask hst), ?_⟩
    rw [St.setTask_self, ho]
    exact d2
  cases (s1.tasks t).cwd with
  | none => exact hstore h1 o1 d1 rfl rfl
  | some cwd =>
    dsimp only
    refine Act.wp_then (h1.quiet (quiet_inodePut cwd)) fun _ s2 ⟨h2, e2⟩ => ?_
    rw [wp_bind, wp_modify]
    have d2 : ∀ g, g < NOFILE → (s2.tasks t).ofile g = none := by
      rw [e2.tasks]
      exact d1
    have o2 : OnlyTask t s s2 := o1.trans (.of_tasks e2.tasks e2.current)
    obtain ⟨h3, o3, d3⟩ := @hstore s2 { s2.tasks t with cwd := none } h2 o2 d2 rfl rfl
    exact hstore h3 o3 d3 rfl rfl

theorem Shared.setTask_closed {task : Task} (ht : task.ofile = (s.tasks t).ofile)
    (hclosed : ∀ g, g < NOFILE → (s.tasks t).ofile g = none) : Shared h (s.setTask t task) := by
  refine hs.setTask (fun f => ?_) fun _ fd hfd => ?_
  · have : slots (s.setTask t task) f = slots s f := by
      refine Finset.sum_congr rfl fun u _ => ?_
      unfold St.setTask
      by_cases hu : u = t
      · subst hu
        simp [ht]
      · simp [hu]
    rw [this]
  · rw [ht]
    exact hclosed fd hfd

theorem wp_freeTask_shared (ht : t < NTASKS) :
    wp (freeTask F t) (fun _ s' => Shared h s' ∧ s'.current = s.current ∧ ∀ u, u ≠ t → s'.tasks u = s.tasks u) s := by
  unfold freeTask
  refine Act.wp_then (wp_exitFs_shared hs ht) fun _ s1 ⟨h1, o1, d1⟩ => ?_
  refine ⟨h1.setTask_closed rfl d1, o1.current, fun u hu => ?_⟩
  show update s1.tasks t _ u = _
  rw [update_of_ne hu, o1.others u hu]

theorem wp_kexit_shared (hr : s.Running) : wp (kexit F) (fun _ s' => Shared h s') s := by
  unfold kexit
  rw [wp_bind, wp_get]
  split_ifs with hpid
  · exact hs
  refine Act.wp_then (wp_exitFs_shared hs hr.1) fun _ s1 ⟨h1, o1, d1⟩ => ?_
  refine h1.setTask_closed rfl ?_
  rw [o1.current]
  exact d1

theorem wp_allocTask_shared (hr : s.Running) :
    wp (allocTask F) (fun r s' => Shared h s' ∧ s'.current = s.current ∧ s'.task = s.task ∧
      ∀ t, r = some t → t < NTASKS ∧ t ≠ s.current ∧ (s'.tasks t).state = .running ∧
        ∀ g, g < NOFILE → (s'.tasks t).ofile g = none) s := by
  unfold allocTask
  rw [wp_bind, wp_get]
  dsimp only
  cases hfind : (List.range NTASKS).find? fun t => decide ((s.tasks t).state = .initlized) with
  | none => exact ⟨hs, rfl, rfl, fun t e => by cases e⟩
  | some t =>
    have hst : (s.tasks t).state = .initlized := by simpa using find?_some hfind
    have ht : t < NTASKS := mem_range.1 (mem_of_find?_eq_some hfind)
    have hne : t ≠ s.current := by
      intro e
      have := hr.2
      rw [St.task, ← e, hst] at this
      cases this
    have hidle := hs.idle t (by rw [hst]; decide)
    dsimp only
    rw [wp_bind, wp_modify, wp_bind]
    have h1 : Shared h (s.setTask t { s.tasks t with state := .running, pid := s.pid_counter }) :=
      hs.setTask_same rfl (.inl rfl)
    have h1' : Shared h { s.setTask t { s.tasks t with state := .running, pid := s.pid_counter } with
        pid_counter := s.pid_counter + 1 } := h1.same ⟨rfl, rfl, rfl, rfl, rfl, rfl⟩
    refine Act.wp_mono (h1'.quiet quiet_slabAlloc) fun b s2 ⟨h2, e2⟩ => ?_
    have htask : ∀ u, u ≠ t → s2.tasks u = s.tasks u := fun u hu => by
      rw [e2.tasks]
      exact update_of_ne hu ..
    have hcur : s2.current = s.current := e2.current
    cases b
    · simp only [Bool.not_false, if_true]
      refine Act.wp_then (wp_freeTask_shared h2 ht) fun _ s3 ⟨h3, c3, t3⟩ => ?_
      refine ⟨h3, c3.trans hcur, ?_, fun u e => by cases e⟩
      show s3.tasks s3.current = s.tasks s.current
      rw [c3.trans hcur, t3 _ hne.symm, htask _ hne.symm]
    · simp only [if_not_true]
      have hself : s2.tasks t = { s.tasks t with state := .running, pid := s.pid_counter } := by
        rw [e2.tasks]
        exact update_self ..
      refine ⟨h2, hcur, ?_, ?_⟩
      · show s2.tasks s2.current = s.tasks s.current
        rw [hcur, htask _ hne.symm]
      · rintro u ⟨⟩
        show _ ∧ _ ∧ (s2.tasks t).state = _ ∧ ∀ g, g < NOFILE → (s2.tasks t).ofile g = none
        rw [hself]
        exact ⟨ht, hne, rfl, hidle⟩

theorem wp_shareFrom_shared {father new : Nat} (hfather : father < NTASKS) (hnew : new < NTASKS)
    (hne : new ≠ father) (hst : (s.tasks new).state = .running) (n fd : Nat) (hn : fd + n = NOFILE)
    (hempty : ∀ g, fd ≤ g → g < NOFILE → (s.tasks new).ofile g = none) :
    wp (shareFrom father new n fd)
      (fun _ s' => Shared h s' ∧ s'.current = s.current ∧ s'.tasks father = s.tasks father) s := by
  induction n generalizing s fd with
  | zero => exact ⟨hs, rfl, rfl⟩
  | succ n ih =>
    have hfd : fd < NOFILE := by omega
    have hnone := hempty fd le_rfl hfd
    -- the store and the rest of the loop, once the reference is taken
    have key : ∀ s1 : St σ, s1.tasks = s.tasks → s1.current = s.current → Shared (plus h ((s.tasks father).ofile fd)) s1 →
        wp (shareFrom father new n (fd + 1))
          (fun _ s' => Shared h s' ∧ s'.current = s.current ∧ s'.tasks father = s.tasks father)
          (s1.setTask new { s1.tasks new with
            ofile := update (s1.tasks new).ofile fd ((s.tasks father).ofile fd) }) := by
      intro s1 ht1 hc1 h1
      have h2 : Shared h (s1.setTask new { s1.tasks new with
          ofile := update (s1.tasks new).ofile fd ((s.tasks father).ofile fd) }) := by
        refine h1.setSlot hnew hfd rfl rfl (.inr (by rw [ht1]; exact hst)) fun g => ?_
        rw [ht1, hnone]
        rfl
      have hself : (s1.setTask new { s1.tasks new with
          ofile := update (s1.tasks new).ofile fd ((s.tasks father).ofile fd) }).tasks new = _ :=
        s1.setTask_self new _
      have hfather' : (s1.setTask new { s1.tasks new with
          ofile := update (s1.tasks new).ofile fd ((s.tasks father).ofile fd) }).tasks father =
          s.tasks father := by
        rw [← ht1]
        exact update_of_ne hne.symm ..
      refine Act.wp_mono (ih h2 ?_ (fd + 1) (by omega) ?_) fun _ s' ⟨h', c', t'⟩ =>
        ⟨h', c'.trans hc1, t'.trans hfather'⟩
      · rw [hself, ht1]
        exact hst
      · intro g hg hg'
        rw [hself, ht1]
        show update (s.tasks new).ofile fd _ g = none
        rw [update_of_ne (by omega)]
        exact hempty g (by omega) hg'
    unfold shareFrom
    rw [wp_bind, wp_get]
    dsimp only
    cases hslot : (s.tasks father).ofile fd with
    | none =>
      rw [hslot] at key
      exact key s rfl rfl hs
    | some f =>
      rw [hslot] at key
      obtain ⟨file, hf⟩ := hs.exists_file (f := f) (by have := slots_pos hfather hfd hslot; omega)
      dsimp only
      refine Act.wp_then (wp_fileGet_shared hs hf) fun _ s1 ⟨h1, t1, c1⟩ => ?_
      rw [wp_bind, wp_modify]
      exact key s1 t1 c1 h1

theorem wp_kfork_shared (hr : s.Running) : wp (kfork F) (fun _ s' => Shared h s') s := by
  unfold kfork
  rw [wp_bind, wp_get]
  dsimp only
  refine Act.wp_then (wp_allocTask_shared hs hr) fun r s1 ⟨h1, c1, t1, n1⟩ => ?_
  cases r with
  | none => exact h1
  | some new =>
    obtain ⟨hnew, hne, hst, hempty⟩ := n1 new rfl
    dsimp only
    refine Act.wp_then (h1.quiet quiet_slabAlloc) fun b s2 ⟨h2, e2⟩ => ?_
    cases b
    · simp only [Bool.not_false, if_true]
      rw [wp_bind]
      exact Act.wp_mono (wp_freeTask_shared h2 hnew) fun _ _ h' => h'.1
    simp only [if_not_true]
    rw [wp_bind, wp_get, wp_bind, wp_modify]
    generalize s2.task.cwd = dir
    have h3 : Shared h (s2.setTask new { s2.tasks new with cwd_path := s2.task.cwd_path, cwd := dir }) :=
      h2.setTask_same rfl (.inr rfl)
    -- a working directory to share changes nothing here
    have key : ∀ s3, SameFiles (s2.setTask new { s2.tasks new with cwd_path := s2.task.cwd_path, cwd := dir }) s3 →
        wp (do shareFrom s.current new NOFILE 0; return some new) (fun _ s' => Shared h s') s3 := by
      intro s3 e3
      have hself : s3.tasks new = { s2.tasks new with cwd_path := s2.task.cwd_path, cwd := dir } := by
        rw [e3.tasks]
        exact s2.setTask_self new _
      refine Act.wp_then (wp_shareFrom_shared (h3.same e3) hr.1 hnew hne ?_ NOFILE 0 (Nat.zero_add _) ?_)
        fun _ _ h' => h'.1
      · rw [hself]
        show (s2.tasks new).state = _
        rw [e2.tasks]
        exact hst
      · intro g _ hg
        rw [hself]
        show (s2.tasks new).ofile g = _
        rw [e2.tasks]
        exact hempty g hg
    cases dir with
    | none => exact key _ (.refl _)
    | some cwd => exact key _ (quiet_inodeGet cwd _)

theorem wp_reap_shared (t : Nat) : wp (reap t) (fun _ s' => Shared h s') s := by
  unfold reap
  rw [wp_modify]
  split_ifs with hz
  · exact hs.setTask_closed rfl (hs.idle t (by rw [hz]; decide))
  · exact hs

end Rules

/-! ## Runs -/

inductive FileCall where
  | openPath (path : Name) (flags : Nat)
  | dup (fd : Nat)
  | get (fd : Nat)
  | put (f : Nat)
  | close (fd : Nat)
  | fork
  | exec (path : Name) (steps : List LoadStep)
  | exit
  | reap (t : Nat)

variable (F) in
/-- The call; its answer is the temporary reference that the caller gets. -/
def FileCall.run : FileCall → M σ (Option Nat)
  | .openPath path flags => do
    let _ ← Vfs.openPath F path flags
    return none
  | .dup fd => do
    let _ ← Vfs.dup F fd
    return none
  | .get fd => fdGet fd
  | .put f => do
    filePut F f
    return none
  | .close fd => do
    let _ ← fdClose F fd
    return none
  | .fork => do
    let _ ← kfork F
    return none
  | .exec path steps => do
    let _ ← kexec F path steps
    return none
  | .exit => do
    kexit F
    return none
  | .reap t => do
    Vfs.reap t
    return none

def FileCall.gives : FileCall → Option Nat
  | .put f => some f
  | _ => none

theorem FileCall.run_shared (c : FileCall) (hs : Shared (plus h c.gives) s) (hr : s.Running) :
    Act.wp (c.run F) (fun r s' => Shared (plus h r) s') s := by
  cases c with
  | openPath path flags => exact (wp_openPath_shared hs hr path flags).1
  | dup fd => exact (wp_dup_shared hs hr fd).1
  | get fd => exact (wp_fdGet_shared hs hr fd).1
  | put f => exact (wp_filePut_shared hs).1
  | close fd => exact (wp_fdClose_shared hs hr fd).1
  | fork => exact wp_kfork_shared hs hr
  | exec path steps => exact (wp_kexec_shared hs hr path steps).1
  | exit => exact wp_kexit_shared hs hr
  | reap t => exact wp_reap_shared hs t

variable (F) in
/-- The task `e.1` runs and makes the call `e.2`. It only gives up a reference it
has. -/
def FileStep (x : Refd σ) (e : Nat × FileCall) (x' : Refd σ) : Prop :=
  ∃ h r, St.Running { x.st with current := e.1 } ∧ x.held = plus h e.2.gives ∧
    e.2.run F { x.st with current := e.1 } = (r, x'.st) ∧ x'.held = plus h r

theorem FileStep.shared {x x' : Refd σ} {e : Nat × FileCall} (hs : FileStep F x e x') (hx : Shared x.held x.st) :
    Shared x'.held x'.st := by
  obtain ⟨h, r, ht, hh, hrun, hh'⟩ := hs
  have hx' : Shared x.held { x.st with current := e.1 } := ⟨hx.each, hx.fresh, hx.idle⟩
  rw [hh] at hx'
  rw [hh']
  exact Act.run_of_wp (Q := fun r s' => Shared (plus h r) s') (e.2.run_shared hx' ht) hrun

theorem Shared.start (hfiles : ∀ f, s.files f = none ∧ s.gets f = 0 ∧ s.closes f = 0)
    (htasks : ∀ t fd, (s.tasks t).ofile fd = none) : Shared (fun _ => 0) s where
  each f := by
    have hslots : slots s f = 0 :=
      Finset.sum_eq_zero fun t _ => Finset.sum_eq_zero fun fd _ => by rw [htasks]; rfl
    rw [hslots, (hfiles f).1, (hfiles f).2.1, (hfiles f).2.2]
    exact ⟨rfl, rfl⟩
  fresh f _ := ⟨(hfiles f).1, (hfiles f).2.1⟩
  idle t _ fd _ := htasks t fd

theorem FileOk.counts {n gets closes : Nat} {file : File} (hf : FileOk n (some file) gets closes) :
    file.refcount = n := hf.1

theorem FileOk.closes_eq {n gets closes : Nat} {file : Option File} (hf : FileOk n file gets closes) :
    closes = if 0 < gets ∧ n = 0 then 1 else 0 := by
  cases file with
  | some file =>
    obtain ⟨-, h2, h3⟩ := hf
    rw [h2, if_neg (by omega)]
  | none =>
    obtain ⟨h1, h2⟩ := hf
    rw [h2]
    simp only [h1, and_true]

/-- In every run of calls of any number of tasks: a file's count is the number of its references, its close action has
run once exactly if there were some and are none any more, and a descriptor belongs to a live task and names a file
that is not freed. -/
theorem files_run_shared {x x' : Refd σ} {es : List (Nat × FileCall)} (hx : Shared x.held x.st)
    (hrun : Run (FileStep F) x es x') :
    (∀ f file, x'.st.files f = some file → file.refcount = slots x'.st f + x'.held f) ∧
      (∀ f, x'.st.closes f = if 0 < x'.st.gets f ∧ slots x'.st f + x'.held f = 0 then 1 else 0) ∧
      ∀ t fd f, t < NTASKS → fd < NOFILE → (x'.st.tasks t).ofile fd = some f →
        (x'.st.tasks t).state = .running ∧ ∃ file, x'.st.files f = some file := by
  have h' : Shared x'.held x'.st := by
    induction hrun with
    | nil => exact hx
    | cons hs _ ih => exact ih (hs.shared hx)
  refine ⟨fun f file hf => ?_, fun f => (h'.each f).closes_eq, fun t fd f ht hfd hf => ?_⟩
  · have := h'.each f
    rw [hf] at this
    exact this.counts
  · refine ⟨?_, h'.exists_file (f := f) ?_⟩
    · by_contra hst
      rw [h'.idle t hst fd hfd] at hf
      cases hf
    · have := slots_pos ht hfd hf
      omega

end

namespace Sample

def start : St Ext2.St :=
  { boot.setTask 0 ⟨.running, 1, ⟨0, 0, []⟩, none, [47], fun _ => none⟩ with pid_counter := 2 }

theorem shared_start : Shared (fun _ => 0) start := by
  refine .start (fun f => ⟨rfl, rfl, rfl⟩) fun t fd => ?_
  show (update boot.tasks 0 _ t).ofile fd = none
  by_cases ht : t = 0
  · rw [ht, update_self]
  · rw [update_of_ne ht]
    rfl

def after (t : Nat) (s : St Ext2.St) (c : FileCall) : St Ext2.St :=
  (c.run (ext2 Ext2.Sample.layout.fs) { s with current := t }).2

theorem after_step {t : Nat} {s : St Ext2.St} {c : FileCall} (hg : c.gives = none) (hr : St.Running { s with current := t })
    (hn : (c.run (ext2 Ext2.Sample.layout.fs) { s with current := t }).1 = none) :
    FileStep (ext2 Ext2.Sample.layout.fs) ⟨s, fun _ => 0⟩ (t, c) ⟨after t s c, fun _ => 0⟩ := by
  refine ⟨fun _ => 0, none, hr, ?_, Prod.ext hn rfl, rfl⟩
  rw [hg]
  rfl

set_option maxRecDepth 100000

def opened : St Ext2.St := after 0 start (.openPath [47, 102] O_RDONLY)

def forked : St Ext2.St := after 0 opened .fork

def duplicated : St Ext2.St := after 1 forked (.dup 0)

def halfClosed : St Ext2.St := after 0 duplicated (.close 0)

def closed : St Ext2.St := after 1 halfClosed .exit

/-- The parent opens a file and forks. The child duplicates the descriptor, the parent
closes its own, and the child exits. -/
def acrossFork : List (Nat × FileCall) :=
  [(0, .openPath [47, 102] O_RDONLY), (0, .fork), (1, .dup 0), (0, .close 0), (1, .exit)]

theorem across_fork_run : Run (FileStep (ext2 Ext2.Sample.layout.fs)) ⟨start, fun _ => 0⟩ acrossFork
    ⟨closed, fun _ => 0⟩ := by
  have hstart : St.Running { start with current := 0 } := ⟨by decide, by decide⟩
  have h1 : St.Running { opened with current := 0 } := ⟨by decide +kernel, by decide +kernel⟩
  have h2 : St.Running { forked with current := 1 } := ⟨by decide +kernel, by decide +kernel⟩
  have h3 : St.Running { duplicated with current := 0 } := ⟨by decide +kernel, by decide +kernel⟩
  have h4 : St.Running { halfClosed with current := 1 } := ⟨by decide +kernel, by decide +kernel⟩
  exact .cons (after_step rfl hstart (by decide +kernel)) <| .cons (after_step rfl h1 (by decide +kernel)) <|
    .cons (after_step rfl h2 (by decide +kernel)) <| .cons (after_step rfl h3 (by decide +kernel)) <|
    .one (after_step rfl h4 (by decide +kernel))

theorem across_fork_ends : ∃ x, Run (FileStep (ext2 Ext2.Sample.layout.fs)) ⟨start, fun _ => 0⟩ acrossFork x ∧
    x.st.gets 0 = 4 ∧ x.st.closes 0 = 1 :=
  ⟨_, across_fork_run, by decide +kernel, by decide +kernel⟩

/-- The file is closed once, after the last of its four references. -/
theorem across_fork_shared : ∃ x, Run (FileStep (ext2 Ext2.Sample.layout.fs)) ⟨start, fun _ => 0⟩ acrossFork x ∧
    x.st.gets 0 = 4 ∧ x.st.closes 0 = 1 ∧
      (∀ f file, x.st.files f = some file → file.refcount = slots x.st f + x.held f) ∧
      (∀ f, x.st.closes f = if 0 < x.st.gets f ∧ slots x.st f + x.held f = 0 then 1 else 0) ∧
      ∀ t fd f, t < NTASKS → fd < NOFILE → (x.st.tasks t).ofile fd = some f →
        (x.st.tasks t).state = .running ∧ ∃ file, x.st.files f = some file := by
  obtain ⟨x, hr, hgets, hcloses⟩ := across_fork_ends
  exact ⟨x, hr, hgets, hcloses, files_run_shared shared_start hr⟩

end Sample

end Vfs
