import Loeux.Lib.Runs
import Loeux.Vfs.Path
/-!
# The mount that covers a path

`vfs_mount` links a mount below the one that `vfs_find_mount` finds for its target.
The inode cache takes the key of its root, the name `/` under the root above, only
once. So the mounts are a chain, and the search ends at the deepest one that covers
the path if the targets are normal. `vfs_mount` does not make them so.
-/
open Lib List

namespace Vfs

namespace Mount

mutual

/-- The new mount becomes the first child of the one that `find` finds for its path. -/
def add (new : Mount) : Mount → Mount
  | mk path root child => mk path root ((addIn new child).getD (new :: child))

def addIn (new : Mount) : List Mount → Option (List Mount)
  | [] => none
  | m :: ms => if pathMatch m.path new.path then some (add new m :: ms) else (addIn new ms).map (m :: ·)

end

/-- A chain of mounts, each the only child of the one before. -/
def spine (x : Name × Nat) : List (Name × Nat) → Mount
  | [] => mk x.1 x.2 []
  | y :: l => mk x.1 x.2 [spine y l]

end Mount

/-- `mount_table`, and of the inode cache the parents in the keys of the roots, whose
name is `/`; the parent of the first root is `VFS_ROOT_PARENT_SPECIAL`. -/
structure MountTable where
  root : Option Mount
  parents : List (Option Nat)

/-- `vfs_mount` of a volume whose root is object `obj`; `none` for -1. -/
def MountTable.mount (t : MountTable) (target : Name) (obj : Nat) : Option MountTable :=
  if target = [slash] then
    if none ∈ t.parents ∨ t.root.isSome then none else some ⟨some (.mk target obj []), none :: t.parents⟩
  else t.root.bind fun m =>
    if target.head? ≠ some slash ∨ some (m.find target).2 ∈ t.parents then none
    else some ⟨some (.add (.mk target obj []) m), some (m.find target).2 :: t.parents⟩

def MountStep (t : MountTable) (e : Name × Nat) (t' : MountTable) : Prop := t.mount e.1 e.2 = some t'

/-- Of the mounts `es`, `r` is the deepest on the way `ps`, and what the path has
after its target are the components that are left. -/
structure Covers (es : List (Name × Nat)) (ps : List Name) (r : Name × Nat) : Prop where
  mounted : r ∈ es
  rest : components r.1 ++ components ((join ps).drop r.1.length) = ps
  longest : ∀ e ∈ es, components e.1 <+: ps → (components e.1).length ≤ (components r.1).length

def Normal (target : Name) : Prop := ∃ cs, (∀ c ∈ cs, Clean c) ∧ target = join cs

section

variable {x : Name × Nat} {l es : List (Name × Nat)} {cs ps : List Name} {t t' : MountTable} {p target : Name} {obj : Nat}

theorem Mount.path_spine : (spine x l).path = x.1 := by cases l <;> rfl

theorem Mount.find_spine_cons (y : Name × Nat) :
    (spine x (y :: l)).find p = if pathMatch y.1 p then (spine y l).find p else x := by
  rw [spine, find, findIn, path_spine]
  split_ifs <;> rfl

theorem components_of_match (h : Mount.pathMatch target p = true) :
    components target ++ components (p.drop target.length) = components p := by
  rw [Mount.pathMatch, Bool.and_eq_true, isPrefixOf_iff_prefix] at h
  obtain ⟨⟨b, rfl⟩, hb⟩ := h
  rw [drop_left] at hb ⊢
  cases b with
  | nil => simp [components]
  | cons c b =>
    obtain rfl : c = slash := by simpa using hb
    rw [components_append, components_slash]

theorem match_join (hne : cs ≠ []) (h : cs <+: ps) : Mount.pathMatch (join cs) (join ps) = true := by
  obtain ⟨ds, rfl⟩ := h
  have hj : join (cs ++ ds) = join cs ++ ds.flatMap (slash :: ·) := by
    rw [join_of_ne hne, join_of_ne (by simp [hne]), flatMap_append]
  rw [Mount.pathMatch, hj, drop_left, Bool.and_eq_true, isPrefixOf_iff_prefix]
  exact ⟨prefix_append _ _, by cases ds <;> simp⟩

theorem find_spine_covers (hps : ∀ c ∈ ps, Clean c) (hl : ∀ y ∈ l, Normal y.1 ∧ y.1 ≠ [slash])
    (hw : (x :: l).Pairwise fun a b => components a.1 <+: components b.1)
    (hx : components x.1 ++ components ((join ps).drop x.1.length) = ps) :
    Covers (x :: l) ps ((Mount.spine x l).find (join ps)) := by
  induction l generalizing x with
  | nil =>
    refine ⟨mem_singleton_self x, hx, fun e he _ => ?_⟩
    rw [mem_singleton.1 he]
    exact le_rfl
  | cons y l ih =>
    rw [Mount.find_spine_cons]
    split_ifs with hm
    · have hy := (components_of_match hm).trans (components_join hps)
      have h := ih (fun z hz => hl z (mem_cons_of_mem _ hz)) hw.of_cons hy
      refine ⟨mem_cons_of_mem _ h.mounted, h.rest, fun e he hp => ?_⟩
      rcases mem_cons.1 he with rfl | he
      · have hxy := (rel_of_pairwise_cons hw mem_cons_self).length_le
        exact hxy.trans (h.longest y mem_cons_self ⟨_, hy⟩)
      · exact h.longest e he hp
    · refine ⟨mem_cons_self, hx, fun e he hp => ?_⟩
      rcases mem_cons.1 he with rfl | he
      · exact le_rfl
      -- the first target below covers what any further one covers
      obtain ⟨⟨cs, hcs, e1⟩, hroot⟩ := hl y mem_cons_self
      have hye : components y.1 <+: components e.1 := by
        rcases mem_cons.1 he with rfl | he
        · exact prefix_rfl
        · exact rel_of_pairwise_cons hw.of_cons he
      have hyp := hye.trans hp
      rw [e1, components_join hcs] at hyp
      refine absurd (e1 ▸ match_join (fun h0 => hroot ?_) hyp) hm
      rw [e1, h0, join_nil]

theorem spine_add (hP : ∀ y ∈ (x :: l).dropLast, some y.2 ∈ t.parents)
    (hfree : some ((Mount.spine x l).find target).2 ∉ t.parents) :
    (∀ y ∈ l, Mount.pathMatch y.1 target = true) ∧ (Mount.spine x l).find target = (x :: l).getLast (cons_ne_nil x l) ∧
      Mount.add (.mk target obj []) (Mount.spine x l) = Mount.spine x (l ++ [(target, obj)]) := by
  induction l generalizing x with
  | nil => exact ⟨by simp, rfl, rfl⟩
  | cons y l ih =>
    rw [Mount.find_spine_cons] at hfree ⊢
    by_cases hm : Mount.pathMatch y.1 target = true
    · rw [if_pos hm] at hfree ⊢
      obtain ⟨h1, h2, h3⟩ := ih (fun z hz => hP z (mem_cons_of_mem _ hz)) hfree
      refine ⟨forall_mem_cons.2 ⟨hm, h1⟩, h2.trans (getLast_cons _).symm, ?_⟩
      rw [Mount.spine, Mount.add, Mount.addIn, Mount.path_spine, Mount.path, if_pos hm, h3]
      rfl
    · rw [if_neg hm] at hfree
      exact absurd (hP x (by simp)) hfree

/-- The mounts `es` are a chain with normal targets, and only the last can get a child. -/
def Chained (es : List (Name × Nat)) (t : MountTable) : Prop :=
  es = [] ∧ t = ⟨none, []⟩ ∨ ∃ x l, x.1 = [slash] ∧ es = x :: l ∧ t.root = some (Mount.spine x l) ∧
    (∀ y ∈ es.dropLast, some y.2 ∈ t.parents) ∧ (∀ y ∈ l, Normal y.1 ∧ y.1 ≠ [slash]) ∧
    es.Pairwise fun a b => components a.1 <+: components b.1

theorem MountStep.chained {e : Name × Nat} (h : Chained es t) (hs : MountStep t e t') (hn : Normal e.1) :
    Chained (es ++ [e]) t' := by
  obtain ⟨target, obj⟩ := e
  rw [MountStep, MountTable.mount] at hs
  obtain ⟨rfl, rfl⟩ | ⟨x, l, hx, rfl, hroot, hP, hl, hw⟩ := h
  · split_ifs at hs with h0
    · cases hs
      exact .inr ⟨(target, obj), [], h0, rfl, rfl, by simp, by simp, pairwise_singleton ..⟩
    · cases hs
  · rw [hroot] at hs
    split_ifs at hs with h0 h1
    · exact absurd (.inr rfl) h1
    rw [Option.bind_some] at hs
    split_ifs at hs with hbad
    rw [not_or] at hbad
    obtain ⟨hmatch, hlast, hadd⟩ := @spine_add x l t target obj hP hbad.2
    cases hs
    refine .inr ⟨x, l ++ [(target, obj)], hx, rfl, congrArg some hadd, ?_, ?_, ?_⟩
    · intro y hy
      rw [dropLast_concat, ← dropLast_concat_getLast (cons_ne_nil x l)] at hy
      rcases mem_append.1 hy with hy | hy
      · exact mem_cons_of_mem _ (hP y hy)
      · rw [mem_singleton.1 hy, ← hlast]
        exact mem_cons_self
    · intro y hy
      rcases mem_append.1 hy with hy | hy
      · exact hl y hy
      · rw [mem_singleton.1 hy]
        exact ⟨hn, h0⟩
    · refine pairwise_append.2 ⟨hw, pairwise_singleton .., fun a ha b hb => ?_⟩
      rw [mem_singleton.1 hb]
      rcases mem_cons.1 ha with rfl | ha
      · rw [hx]
        exact nil_prefix
      · exact ⟨_, components_of_match (hmatch a ha)⟩

/-- After any successful mounts at normal targets, `vfs_find_mount` gives for every
normal path the mount that covers it. -/
theorem find_mount_covers {m : Mount} (hrun : Run MountStep ⟨none, []⟩ es t) (hn : ∀ e ∈ es, Normal e.1)
    (hm : t.root = some m) (hps : ∀ c ∈ ps, Clean c) : Covers es ps (m.find (join ps)) := by
  have key : ∀ {t0 pre}, Chained pre t0 → Run MountStep t0 es t → Chained (pre ++ es) t := by
    intro t0 pre h hr
    clear hrun
    induction hr generalizing pre with
    | nil => rwa [append_nil]
    | cons hs _ ih =>
      have := ih (fun e he => hn e (mem_cons_of_mem _ he)) hm (hs.chained h (hn _ mem_cons_self))
      rwa [append_assoc] at this
  obtain ⟨-, rfl⟩ | ⟨x, l, hx, rfl, hroot, -, hl, hw⟩ := @key _ [] (.inl ⟨rfl, rfl⟩) hrun
  · cases hm
  · obtain rfl := Option.some.inj (hroot.symm.trans hm)
    refine find_spine_covers hps hl hw ?_
    have hj : slash :: (join ps).drop 1 = join ps := by
      rw [drop_one]
      exact (eq_cons_of_mem_head? (head_join ps)).symm
    rw [hx]
    show components ((join ps).drop 1) = ps
    rw [← components_slash, hj, components_join hps]

end

namespace Sample

def twoMounts (target : Name) : List (Name × Nat) := [([slash], 0), (target, 1)]

theorem clean_a : ∀ c ∈ [[97]], Clean c := by
  intro c hc
  rw [mem_singleton.1 hc]
  exact ⟨by decide, by decide, by decide, by decide⟩

/-- The volume at `/a` is found for `/a`. -/
theorem a_covers : ∃ t m, Run MountStep ⟨none, []⟩ (twoMounts [47, 97]) t ∧ t.root = some m ∧
    Covers (twoMounts [47, 97]) [[97]] (m.find (join [[97]])) := by
  have hrun : Run MountStep ⟨none, []⟩ (twoMounts [47, 97]) _ := .cons rfl (.cons rfl (.nil _))
  refine ⟨_, _, hrun, rfl, find_mount_covers hrun (fun e he => ?_) rfl clean_a⟩
  rcases mem_pair.1 he with rfl | rfl
  · exact ⟨[], by simp, rfl⟩
  · exact ⟨[[97]], clean_a, rfl⟩

/-- The volume at `/a/` is not. -/
theorem slash_not_covers : ∃ t m, Run MountStep ⟨none, []⟩ (twoMounts [47, 97, 47]) t ∧ t.root = some m ∧
    m.find (join [[97]]) = ([47], 0) ∧ ¬Covers (twoMounts [47, 97, 47]) [[97]] (m.find (join [[97]])) := by
  refine ⟨_, _, .cons rfl (.cons rfl (.nil _)), rfl, rfl, fun h => ?_⟩
  exact absurd (h.longest ([47, 97, 47], 1) (by simp [twoMounts]) (by decide)) (by decide)

end Sample

end Vfs
