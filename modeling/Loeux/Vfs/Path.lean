import Mathlib.Data.List.DropRight
import Mathlib.Data.List.Induction
import Mathlib.Tactic.SplitIfs
/-!
# Paths

Paths are the bytes of C strings without their terminator. Before a path is
walked, the kernel resolves `.`, `..` and repeated slashes in the text alone.
-/

open List

namespace Vfs

/-- A path or one of its components. -/
abbrev Name := List UInt8

def BUFSZ : Nat := 4096
def VFS_MAX_PATH_LEN : Nat := 128

/-- `'/'`. -/
def slash : UInt8 := 47

def components (path : Name) : List Name := (path.splitOn slash).filter (· ≠ [])

/-- Take bytes off the end while `p` holds, but never the first one. -/
def trimEnd (p : UInt8 → Bool) : Name → Name
  | [] => []
  | c :: path => c :: path.rdropWhile p

/-- One component up. -/
def parentOf (des : Name) : Name :=
  if 1 < des.length then
    let des := trimEnd (· ≠ slash) des
    if 1 < des.length ∧ des.getLast? = some slash then des.dropLast else des
  else des

/-- The loop of `do_build_user_path`; a path that gets too long is empty. -/
def buildFrom : List Name → (des : Name) → Name
  | [], des => des
  | seg :: segs, des =>
    if seg = [46] then buildFrom segs des
    else if seg = [46, 46] then buildFrom segs (parentOf des)
    else if 1 < des.length ∧ BUFSZ ≤ des.length + 1 then []
    else
      let des := if 1 < des.length then des ++ [slash] else des
      if BUFSZ ≤ des.length + seg.length then [] else buildFrom segs (des ++ seg)

def buildUserPath (u_path cwd : Name) : Name :=
  if u_path = [] then
    if BUFSZ ≤ cwd.length then [] else cwd
  else if u_path.head? = some slash then buildFrom (components u_path) [slash]
  else if cwd.head? ≠ some slash ∨ BUFSZ ≤ cwd.length then []
  else buildFrom (components u_path) (trimEnd (· = slash) cwd)

/-- `vfs_normalize` for a task with this `cwd_path`. -/
def normalize (path cwd_path : Name) : Option Name :=
  let out := buildUserPath path (if cwd_path = [] then [slash] else cwd_path)
  if out = [] ∨ VFS_MAX_PATH_LEN ≤ out.length then none else some out

/-- The path of the parent directory and the last component, as
`vfs_lookup_parent_impl` finds them. -/
def splitParent (path : Name) : Option (Name × Name) :=
  if path.head? ≠ some slash ∨ path.length ≤ 1 then none
  else
    let path := trimEnd (· = slash) path
    let name := path.rtakeWhile (· ≠ slash)
    let parent := (path.rdropWhile (· ≠ slash)).dropLast
    if name = [] ∨ VFS_MAX_PATH_LEN ≤ name.length then none
    else if parent = [] then some ([slash], name)
    else if VFS_MAX_PATH_LEN ≤ parent.length then none
    else some (parent, name)

/-! ## Normal paths -/

section Normal

theorem components_slash (t : Name) : components (slash :: t) = components t := by
  unfold components
  rw [show slash :: t = [] ++ slash :: t from rfl, splitOn_append_cons_self]
  simp

theorem components_append (a b : Name) : components (a ++ slash :: b) = components a ++ components b := by
  unfold components
  rw [splitOn_append_cons_self, filter_append]

theorem components_name {c : Name} (h0 : c ≠ []) (hs : slash ∉ c) : components c = [c] := by
  unfold components
  rw [splitOn_eq_singleton hs]
  simp [h0]

theorem mem_splitOn (p : Name) : ∀ c ∈ p.splitOn slash, slash ∉ c ∧ c.length ≤ p.length := by
  induction hn : p.length using Nat.strong_induction_on generalizing p with
  | _ n ih =>
    intro c hc
    by_cases hs : slash ∈ p
    · obtain ⟨a, b, rfl⟩ := append_of_mem hs
      rw [splitOn_append_cons_self, mem_append] at hc
      simp only [length_append, length_cons] at hn
      rcases hc with hc | hc
      · have := ih a.length (by omega) a rfl c hc
        exact ⟨this.1, by omega⟩
      · have := ih b.length (by omega) b rfl c hc
        exact ⟨this.1, by omega⟩
    · rw [splitOn_eq_singleton hs, mem_singleton] at hc
      rw [hc]
      exact ⟨hs, hn.le⟩

/-- A component that can stand in a normal path. -/
structure Clean (c : Name) : Prop where
  ne_nil : c ≠ []
  no_slash : slash ∉ c
  not_dot : c ≠ [46]
  not_dots : c ≠ [46, 46]

theorem mem_components {p c : Name} (h : c ∈ components p) : c ≠ [] ∧ slash ∉ c ∧ c.length ≤ p.length := by
  unfold components at h
  rw [mem_filter] at h
  exact ⟨by simpa using h.2, mem_splitOn p c h.1⟩

/-- The text of a normal path. -/
def join : List Name → Name
  | [] => [slash]
  | cs => cs.flatMap (slash :: ·)

@[simp] theorem join_nil : join [] = [slash] := rfl

variable {cs : List Name}

theorem join_of_ne (h : cs ≠ []) : join cs = cs.flatMap (slash :: ·) := by
  cases cs with
  | nil => exact absurd rfl h
  | cons c cs => rfl

theorem join_concat (cs : List Name) (c : Name) : join (cs ++ [c]) = cs.flatMap (slash :: ·) ++ slash :: c := by
  rw [join_of_ne (by simp)]
  simp

@[simp] theorem join_singleton (c : Name) : join [c] = slash :: c := join_concat [] c

theorem join_append (h : cs ≠ []) (c : Name) : join (cs ++ [c]) = join cs ++ slash :: c := by
  rw [join_concat, join_of_ne h]

theorem one_lt_join (h : cs ≠ []) (hc : ∀ c ∈ cs, Clean c) : 1 < (join cs).length := by
  obtain ⟨c, t, rfl⟩ := exists_cons_of_ne_nil h
  have := length_pos_iff.2 (hc c mem_cons_self).ne_nil
  rw [join_of_ne h, flatMap_cons, length_append, length_cons]
  omega

theorem components_join (hc : ∀ c ∈ cs, Clean c) : components (join cs) = cs := by
  induction cs using List.reverseRecOn with
  | nil => rfl
  | append_singleton cs c ih =>
    have hcc := hc c (by simp)
    have hcs : ∀ x ∈ cs, Clean x := fun x hx => hc x (by simp [hx])
    rw [join_concat, components_append, components_name hcc.ne_nil hcc.no_slash]
    congr 1
    by_cases h : cs = []
    · subst h
      rfl
    · rw [← join_of_ne h, ih hcs]

theorem rdropWhile_name {a c : Name} (hs : slash ∉ c) : (a ++ slash :: c).rdropWhile (· ≠ slash) = a ++ [slash] := by
  induction c using List.reverseRecOn with
  | nil => exact rdropWhile_concat_neg _ _ _ (by simp)
  | append_singleton c x ih =>
    have hx : x ≠ slash := fun e => hs (by simp [e])
    rw [← cons_append, ← append_assoc, rdropWhile_concat_pos _ _ _ (by simpa using hx)]
    exact ih fun h => hs (by simp [h])

theorem rtakeWhile_name {a c : Name} (hs : slash ∉ c) : (a ++ slash :: c).rtakeWhile (· ≠ slash) = c := by
  have h : (a ++ slash :: c).rdropWhile (· ≠ slash) ++ (a ++ slash :: c).rtakeWhile (· ≠ slash) = a ++ slash :: c :=
    rdropWhile_append_rtakeWhile
  rw [rdropWhile_name hs, append_assoc, append_cancel_left_eq] at h
  exact tail_eq_of_cons_eq h

theorem head_join (cs : List Name) : (join cs).head? = some slash := by
  cases cs <;> rfl

theorem parentOf_join (cs : List Name) (hc : ∀ c ∈ cs, Clean c) : parentOf (join cs) = join cs.dropLast := by
  induction cs using List.reverseRecOn with
  | nil => rfl
  | append_singleton cs c =>
    have hcc := hc c (by simp)
    have hlen := one_lt_join (by simp) hc
    rw [dropLast_concat, parentOf, if_pos hlen]
    by_cases h : cs = []
    · subst h
      have h1 : trimEnd (· ≠ slash) (join ([] ++ [c])) = [slash] := by
        rw [nil_append, join_singleton, trimEnd,
          rdropWhile_eq_nil_iff.2 fun x hx => by simpa using fun e : x = slash => hcc.no_slash (e ▸ hx)]
      rw [h1]
      rfl
    · have h1 : trimEnd (· ≠ slash) (join (cs ++ [c])) = join cs ++ [slash] := by
        rw [join_append h]
        cases hj : join cs with
        | nil =>
          have := head_join cs
          rw [hj] at this
          cases this
        | cons x a =>
          show x :: (a ++ slash :: c).rdropWhile _ = _
          rw [rdropWhile_name hcc.no_slash]
          rfl
      have h2 := one_lt_join h fun x hx => hc x (by simp [hx])
      rw [h1]
      dsimp only
      rw [if_pos ⟨by simp; omega, by simp⟩, dropLast_concat]

theorem join_extend (hc : ∀ c ∈ cs, Clean c) (c : Name) :
    (if 1 < (join cs).length then join cs ++ [slash] else join cs) ++ c = join (cs ++ [c]) := by
  by_cases h : cs = []
  · subst h
    exact (join_singleton c).symm
  · rw [if_pos (one_lt_join h hc), join_append h, append_assoc]
    rfl

theorem buildFrom_join (segs : List Name) (hs : ∀ c ∈ segs, c ≠ [] ∧ slash ∉ c) (hc : ∀ c ∈ cs, Clean c) :
    buildFrom segs (join cs) = [] ∨ ∃ cs', (∀ c ∈ cs', Clean c) ∧ buildFrom segs (join cs) = join cs' := by
  induction segs generalizing cs with
  | nil => exact .inr ⟨cs, hc, rfl⟩
  | cons seg segs ih =>
    have hseg := hs seg mem_cons_self
    have hs' : ∀ c ∈ segs, c ≠ [] ∧ slash ∉ c := fun c h => hs c (mem_cons_of_mem _ h)
    rw [buildFrom]
    by_cases h1 : seg = [46]
    · rw [if_pos h1]
      exact ih hs' hc
    rw [if_neg h1]
    by_cases h2 : seg = [46, 46]
    · rw [if_pos h2, parentOf_join cs hc]
      exact ih hs' fun c h => hc c (dropLast_subset _ h)
    rw [if_neg h2]
    by_cases h3 : 1 < (join cs).length ∧ BUFSZ ≤ (join cs).length + 1
    · rw [if_pos h3]
      exact .inl rfl
    rw [if_neg h3]
    dsimp only
    by_cases h4 : BUFSZ ≤ (if 1 < (join cs).length then join cs ++ [slash] else join cs).length + seg.length
    · rw [if_pos h4]
      exact .inl rfl
    rw [if_neg h4, join_extend hc]
    refine ih hs' fun c h => ?_
    rcases mem_append.1 h with h | h
    · exact hc c h
    · rw [mem_singleton.1 h]
      exact ⟨hseg.1, hseg.2, h1, h2⟩

theorem buildFrom_clean (cs : List Name) {pre : List Name} (hc : ∀ c ∈ pre ++ cs, Clean c)
    (hlen : (join (pre ++ cs)).length < BUFSZ) : buildFrom cs (join pre) = join (pre ++ cs) := by
  induction cs generalizing pre with
  | nil => rw [append_nil, buildFrom]
  | cons c cs ih =>
    have hcc := hc c (by simp)
    have hpre : ∀ x ∈ pre, Clean x := fun x hx => hc x (by simp [hx])
    have hle : (join (pre ++ [c])).length ≤ (join (pre ++ c :: cs)).length := by
      rw [join_of_ne (by simp), join_of_ne (by simp)]
      simp
    have hdes := join_extend hpre c
    have hlen' := congrArg List.length hdes
    rw [length_append] at hlen'
    have hpos := length_pos_iff.2 hcc.ne_nil
    rw [buildFrom, if_neg hcc.not_dot, if_neg hcc.not_dots]
    rw [if_neg ?_]
    · dsimp only
      rw [if_neg (by omega), hdes, ih (by simpa using hc) (by simpa using hlen)]
      simp
    · rintro ⟨h1, h2⟩
      rw [if_pos h1, length_append, length_singleton] at hlen'
      omega

theorem normalize_join {path cwd_path q : Name} (habs : path.head? = some slash)
    (h : normalize path cwd_path = some q) :
    ∃ cs, (∀ c ∈ cs, Clean c) ∧ q = join cs ∧ q.length < VFS_MAX_PATH_LEN := by
  have hne : path ≠ [] := fun e => by simp [e] at habs
  unfold normalize buildUserPath at h
  rw [if_neg hne, if_pos habs] at h
  dsimp only at h
  split_ifs at h with h0
  obtain rfl := Option.some.inj h
  rw [not_or, Nat.not_le] at h0
  rcases @buildFrom_join [] (components path) (fun c hc => ⟨(mem_components hc).1, (mem_components hc).2.1⟩) (by simp) with
    he | ⟨cs, hcs, he⟩
  · exact absurd he h0.1
  · exact ⟨cs, hcs, he, h0.2⟩

theorem normalize_clean (hc : ∀ c ∈ cs, Clean c) (hlen : (join cs).length < VFS_MAX_PATH_LEN)
    (cwd_path : Name) : normalize (join cs) cwd_path = some (join cs) := by
  have hne : join cs ≠ [] := fun e => by have := head_join cs; simp [e] at this
  unfold normalize buildUserPath
  rw [if_neg hne, if_pos (head_join cs), components_join hc]
  have hb := @buildFrom_clean cs [] (by simpa using hc) (lt_of_lt_of_le hlen (by decide))
  rw [nil_append, join_nil] at hb
  rw [hb]
  dsimp only
  rw [if_neg (by simp [hne]; omega)]

theorem trimEnd_join (hc : ∀ x ∈ cs, Clean x) : trimEnd (· = slash) (join cs) = join cs := by
  induction cs using List.reverseRecOn with
  | nil => rfl
  | append_singleton cs c =>
    have hcc := hc c (by simp)
    obtain ⟨a, ha⟩ : ∃ a, join (cs ++ [c]) = slash :: (a ++ c) := by
      rw [join_concat]
      cases cs with
      | nil => exact ⟨[], rfl⟩
      | cons y cs => exact ⟨y ++ cs.flatMap (slash :: ·) ++ [slash], by simp⟩
    rw [ha, trimEnd, rdropWhile_eq_self_iff.2 fun hl => ?_]
    rw [getLast_append_of_ne_nil _ hcc.ne_nil]
    simpa using fun e : c.getLast hcc.ne_nil = slash => hcc.no_slash (e ▸ getLast_mem hcc.ne_nil)

theorem splitParent_join {c : Name} (hc : ∀ x ∈ cs ++ [c], Clean x)
    (hlen : (join (cs ++ [c])).length < VFS_MAX_PATH_LEN) : splitParent (join (cs ++ [c])) = some (join cs, c) := by
  have hcc := hc c (by simp)
  have h1 := one_lt_join (by simp) hc
  have hc_lt : c.length < VFS_MAX_PATH_LEN := by
    rw [join_concat, length_append, length_cons] at hlen
    omega
  have hname : (join (cs ++ [c])).rtakeWhile (· ≠ slash) = c := by rw [join_concat, rtakeWhile_name hcc.no_slash]
  have hparent : ((join (cs ++ [c])).rdropWhile (· ≠ slash)).dropLast = cs.flatMap (slash :: ·) := by
    rw [join_concat, rdropWhile_name hcc.no_slash, dropLast_concat]
  unfold splitParent
  rw [if_neg (by rw [head_join]; simp; omega), trimEnd_join hc]
  dsimp only
  rw [hname, hparent, if_neg (by simp [hcc.ne_nil]; omega)]
  by_cases h : cs = []
  · subst h
    rfl
  · rw [← join_of_ne h, if_neg (fun e => by have := head_join cs; simp [e] at this), if_neg ?_]
    rw [join_append h, length_append] at hlen
    omega

theorem components_drop {c mnt : Name} (hc : ∀ x ∈ cs ++ [c], Clean x) (hm : mnt <+: join cs) :
    components ((join (cs ++ [c])).drop mnt.length) = components ((join cs).drop mnt.length) ++ [c] := by
  have hcc := hc c (by simp)
  by_cases h : cs = []
  · subst h
    have hl : mnt.length ≤ 1 := hm.length_le
    have hj : join ([] ++ [c]) = slash :: c := join_singleton c
    rw [hj, join_nil]
    rcases Nat.le_one_iff_eq_zero_or_eq_one.1 hl with e | e <;> rw [e]
    · rw [drop_zero, drop_zero, components_slash, components_name hcc.ne_nil hcc.no_slash]
      rfl
    · show components c = components [] ++ [c]
      rw [components_name hcc.ne_nil hcc.no_slash]
      rfl
  · rw [join_append h, drop_append_of_le_length hm.length_le, components_append,
      components_name hcc.ne_nil hcc.no_slash]

end Normal

/-! ## Mounts -/

/-- `struct mount`: where a volume is mounted and the object of its root
directory, with the mounts below it. -/
inductive Mount where
  | mk (path : Name) (root : Nat) (child : List Mount)

namespace Mount

def path : Mount → Name
  | mk path _ _ => path

def root : Mount → Nat
  | mk _ root _ => root

def pathMatch (mnt_path path : Name) : Bool :=
  mnt_path.isPrefixOf path && (path.drop mnt_path.length).head?.all (· = slash)

mutual

/-- `vfs_find_mount`: the mount point and the root object of the deepest mount on
the way to `p`. -/
def find (p : Name) : Mount → Name × Nat
  | mk path root child => (findIn p child).getD (path, root)

def findIn (p : Name) : List Mount → Option (Name × Nat)
  | [] => none
  | m :: ms => if pathMatch m.path p then some (find p m) else findIn p ms

end

mutual

def roots : Mount → List Nat
  | mk _ root child => root :: rootsIn child

def rootsIn : List Mount → List Nat
  | [] => []
  | m :: ms => m.roots ++ rootsIn ms

end

mutual

theorem find_mem (p : Name) : ∀ m : Mount, (m.find p).2 ∈ m.roots
  | mk path root child => by
    rw [find, roots]
    cases h : findIn p child with
    | none => exact mem_cons_self
    | some r => exact mem_cons_of_mem _ (findIn_mem p child r h)

theorem findIn_mem (p : Name) : ∀ (ms : List Mount) (r : Name × Nat), findIn p ms = some r → r.2 ∈ rootsIn ms
  | [], r => by
    intro h
    cases h
  | m :: ms, r => by
    intro h
    rw [findIn] at h
    rw [rootsIn, mem_append]
    split_ifs at h
    · cases h
      exact .inl (find_mem p m)
    · exact .inr (findIn_mem p ms r h)

end

mutual

theorem find_isPrefix (p : Name) : ∀ m : Mount, m.path <+: p → (m.find p).1 <+: p
  | mk path root child => by
    intro h
    rw [find]
    cases hf : findIn p child with
    | none => exact h
    | some r => exact findIn_isPrefix p child r hf

theorem findIn_isPrefix (p : Name) : ∀ (ms : List Mount) (r : Name × Nat), findIn p ms = some r → r.1 <+: p
  | [], r => by
    intro h
    cases h
  | m :: ms, r => by
    intro h
    rw [findIn] at h
    split_ifs at h with hm
    · cases h
      rw [pathMatch, Bool.and_eq_true, isPrefixOf_iff_prefix] at hm
      exact find_isPrefix p m hm.1
    · exact findIn_isPrefix p ms r h

end

end Mount

example : normalize [47, 97, 47, 47, 46, 46, 47, 98, 47] [47] = some [47, 98] := by decide

example : splitParent [47, 97, 47, 98] = some ([47, 97], [98]) := by decide

end Vfs
