import Loeux.Lib.Bytes
import Loeux.Vfs.Path
/-!
# Building a path in the output buffer

`do_build_user_path` edits its result in place: segments are appended behind the bytes
in use, and `..` moves the end of the text back to the last slash. The loop does to the
buffer what `buildFrom` does to a list, and that resolves the components one by one.
-/

namespace Vfs

open Lib Function List

structure Des where
  buf : Bytes
  wr : Nat

/-- `while (wr > 1 && p(des_path[wr - 1])) wr--`. -/
def backWhile (p : UInt8 → Bool) (buf : Bytes) : Nat → Nat
  | 0 => 0
  | 1 => 1
  | n + 2 => if p (buf (n + 1)) then backWhile p buf (n + 1) else n + 2

namespace Des

/-- `des_path[wr] = '\0'`. -/
def close (d : Des) : Des := { d with buf := Function.update d.buf d.wr 0 }

/-- `des_path[wr++] = '/'`. -/
def putSlash (d : Des) : Des := ⟨Function.update d.buf d.wr slash, d.wr + 1⟩

/-- `memcpy` behind the bytes in use. -/
def putBytes (d : Des) (s : Name) : Des := ⟨Bytes.copy s.length d.wr d.buf fun i => s.getD i 0, d.wr + s.length⟩

/-- The segment is `..`. -/
def dropSegment (d : Des) : Des :=
  if 1 < d.wr then
    let wr := backWhile (· ≠ slash) d.buf d.wr
    close { d with wr := if 1 < wr ∧ d.buf (wr - 1) = slash then wr - 1 else wr }
  else d

def addSegment (d : Des) (seg : Name) : Bool × Des :=
  if 1 < d.wr ∧ BUFSZ ≤ d.wr + 1 then (false, d)
  else
    let d := if 1 < d.wr then d.putSlash else d
    if BUFSZ ≤ d.wr + seg.length then (false, d) else (true, (d.putBytes seg).close)

end Des

/-- Skip slashes and read up to the next one: the segment and what is left of the path. -/
def nextSegment (path : Name) : Option (Name × Name) :=
  match path.dropWhile (· = slash) with
  | [] => none
  | c :: rest => some ((c :: rest).takeWhile (· ≠ slash), (c :: rest).dropWhile (· ≠ slash))

theorem nextSegment_eq {path seg rest : Name} (h : nextSegment path = some (seg, rest)) :
    seg ≠ [] ∧ slash ∉ seg ∧ (rest = [] ∨ rest.head? = some slash) ∧
      ∃ pre, path = pre ++ (seg ++ rest) ∧ ∀ c ∈ pre, c = slash := by
  unfold nextSegment at h
  have happ := takeWhile_append_dropWhile (p := fun c => decide (c = slash)) (l := path)
  split at h
  · cases h
  · next c r hc =>
    obtain ⟨rfl, rfl⟩ := Prod.mk.inj (Option.some.inj h)
    have hne : c ≠ slash := by
      have := head_dropWhile_not (fun c => decide (c = slash)) (l := path) (by simp [hc])
      simpa [hc] using this
    refine ⟨by simp [hne], fun hm => by simpa using mem_takeWhile_imp hm, ?_, path.takeWhile (· = slash), ?_,
      fun c hm => by simpa using mem_takeWhile_imp hm⟩
    · cases hd : (c :: r).dropWhile (· ≠ slash) with
      | nil => exact .inl rfl
      | cons x t =>
        have := head_dropWhile_not (fun c => decide (c ≠ slash)) (l := c :: r) (by rw [hd]; simp)
        simp only [hd, head_cons] at this
        exact .inr (by simpa using this)
    · rw [takeWhile_append_dropWhile, ← hc]
      exact happ.symm

theorem nextSegment_lt {path seg rest : Name} (h : nextSegment path = some (seg, rest)) :
    rest.length < path.length := by
  obtain ⟨h0, -, -, pre, rfl, -⟩ := nextSegment_eq h
  have := length_pos_iff.2 h0
  simp only [length_append]
  omega

def resolveLoop (path : Name) (d : Des) : Bytes :=
  match h : nextSegment path with
  | none => d.close.buf
  | some (seg, rest) =>
    have := nextSegment_lt h
    if seg = [46] then resolveLoop rest d
    else if seg = [46, 46] then resolveLoop rest d.dropSegment
    else
      match d.addSegment seg with
      | (false, d) => Function.update d.buf 0 0
      | (true, d) => resolveLoop rest d
termination_by path.length

theorem resolveLoop_eq (path : Name) (d : Des) : resolveLoop path d = match nextSegment path with
    | none => d.close.buf
    | some (seg, rest) =>
      if seg = [46] then resolveLoop rest d
      else if seg = [46, 46] then resolveLoop rest d.dropSegment
      else if (d.addSegment seg).1 then resolveLoop rest (d.addSegment seg).2
      else update (d.addSegment seg).2.buf 0 0 := by
  rw [resolveLoop]
  split
  · next h => simp only [h]
  · next seg rest h =>
    simp only [h]
    obtain ⟨ok, e⟩ := d.addSegment seg
    cases ok <;> rfl

/-- `do_build_user_path`; the strings may be null pointers. -/
def doBuildUserPath (des_path : Bytes) (u_path cwd : Option Name) : Bytes :=
  let des : Des := Des.close ⟨des_path, 0⟩
  match cwd with
  | none => des.buf
  | some cwd =>
    match u_path with
    | none | some [] => if BUFSZ ≤ cwd.length then des.buf else (des.putBytes cwd).close.buf
    | some (c :: path) =>
      if c = slash then resolveLoop ((c :: path).dropWhile (· = slash)) des.putSlash
      else if cwd.head? ≠ some slash ∨ BUFSZ ≤ cwd.length then des.buf
      else
        let des := des.putBytes cwd
        resolveLoop (c :: path) (Des.close { des with wr := backWhile (· = slash) des.buf des.wr })

/-! ## The text in the buffer -/

theorem trimEnd_concat (p : UInt8 → Bool) {l : Name} (h : l ≠ []) (a : UInt8) :
    trimEnd p (l ++ [a]) = if p a then trimEnd p l else l ++ [a] := by
  cases l with
  | nil => exact absurd rfl h
  | cons x l =>
    rw [cons_append, trimEnd, rdropWhile_concat]
    split_ifs <;> rfl

namespace Des

/-- The bytes in use. -/
def text (d : Des) : Name := (List.range d.wr).map d.buf

@[simp] theorem length_text (d : Des) : d.text.length = d.wr := by simp [text]

theorem text_congr {d d' : Des} (hw : d'.wr = d.wr) (h : ∀ i, i < d.wr → d'.buf i = d.buf i) : d'.text = d.text := by
  unfold text
  rw [hw]
  exact map_congr_left fun i hi => h i (mem_range.1 hi)

@[simp] theorem text_close (d : Des) : d.close.text = d.text :=
  text_congr rfl fun _ hi => update_of_ne (Nat.ne_of_lt hi) _ _

theorem text_append (d : Des) (n : Nat) : (⟨d.buf, d.wr + n⟩ : Des).text = d.text ++ (List.range n).map fun i => d.buf (d.wr + i) := by
  unfold text
  rw [range_add, map_append, map_map]
  rfl

@[simp] theorem text_putSlash (d : Des) : d.putSlash.text = d.text ++ [slash] := by
  have h := text_append ⟨d.putSlash.buf, d.wr⟩ 1
  have hpre : (⟨d.putSlash.buf, d.wr⟩ : Des).text = d.text :=
    text_congr rfl fun i hi => update_of_ne (Nat.ne_of_lt hi) _ _
  rw [hpre] at h
  refine h.trans ?_
  simp [putSlash, range_succ]

@[simp] theorem text_putBytes (d : Des) (s : Name) : (d.putBytes s).text = d.text ++ s := by
  have h := text_append ⟨(d.putBytes s).buf, d.wr⟩ s.length
  have hpre : (⟨(d.putBytes s).buf, d.wr⟩ : Des).text = d.text :=
    text_congr rfl fun i hi => Bytes.copy_of_ne (fun i => s.getD i 0) d.buf (.inl hi)
  rw [hpre] at h
  refine h.trans (congrArg (d.text ++ ·) ?_)
  refine ext_getElem (by simp) fun i h1 h2 => ?_
  simp [putBytes, Bytes.copy, h2]

theorem text_succ (buf : Bytes) (n : Nat) : (⟨buf, n + 1⟩ : Des).text = (⟨buf, n⟩ : Des).text ++ [buf n] := by
  simp [text, range_succ]

theorem text_backWhile (p : UInt8 → Bool) (buf : Bytes) (n : Nat) :
    (⟨buf, backWhile p buf n⟩ : Des).text = trimEnd p (⟨buf, n⟩ : Des).text := by
  fun_induction backWhile p buf n with
  | case1 => rfl
  | case2 => rfl
  | case3 n hp ih => rw [ih, text_succ buf (n + 1), trimEnd_concat p (by simp [text]), if_pos hp]
  | case4 n hp => rw [text_succ buf (n + 1), trimEnd_concat p (by simp [text]), if_neg hp]

theorem text_dropSegment (d : Des) : d.dropSegment.text = parentOf d.text := by
  unfold dropSegment parentOf
  rw [length_text]
  by_cases h : 1 < d.wr
  · rw [if_pos h, if_pos h, text_close]
    have hb := text_backWhile (· ≠ slash) d.buf d.wr
    generalize backWhile (· ≠ slash) d.buf d.wr = n at hb ⊢
    show _ = if 1 < (trimEnd _ d.text).length ∧ (trimEnd _ d.text).getLast? = some slash then _ else _
    rw [← hb, length_text]
    cases n with
    | zero => rfl
    | succ n =>
      have hlast : (⟨d.buf, n + 1⟩ : Des).text.getLast? = some (d.buf n) := by simp [text_succ]
      rw [Nat.add_sub_cancel]
      simp only [hlast, Option.some.injEq]
      split_ifs with h1
      · simp [text_succ]
      · rfl
  · rw [if_neg h, if_neg h]

theorem text_addSegment (d : Des) (seg : Name) :
    if 1 < d.text.length ∧ BUFSZ ≤ d.text.length + 1 then (d.addSegment seg).1 = false
    else
      let des := if 1 < d.text.length then d.text ++ [slash] else d.text
      if BUFSZ ≤ des.length + seg.length then (d.addSegment seg).1 = false
      else (d.addSegment seg).1 = true ∧ (d.addSegment seg).2.text = des ++ seg := by
  unfold addSegment
  rw [length_text]
  by_cases h1 : 1 < d.wr ∧ BUFSZ ≤ d.wr + 1
  · rw [if_pos h1, if_pos h1]
  · rw [if_neg h1, if_neg h1]
    have ht : (if 1 < d.wr then d.putSlash else d).text = if 1 < d.wr then d.text ++ [slash] else d.text := by
      split_ifs
      · exact text_putSlash d
      · rfl
    dsimp only
    rw [← ht, length_text]
    generalize (if 1 < d.wr then d.putSlash else d) = e
    split_ifs
    · rfl
    · simp

end Des

/-- The buffer holds the C string `s`. -/
structure Spells (b : Bytes) (s : Name) : Prop where
  bytes : (List.range s.length).map b = s
  ends : b s.length = 0
  no_nul : 0 ∉ s

theorem Des.spells (d : Des) (h : 0 ∉ d.text) : Spells d.close.buf d.text := by
  refine ⟨?_, ?_, h⟩
  · rw [length_text]
    exact text_close d
  · rw [length_text]
    exact update_self ..

theorem spells_nil (b : Bytes) : Spells (update b 0 0) [] := ⟨rfl, update_self .., not_mem_nil⟩

/-! ## The loop and the list function -/

theorem components_next (path : Name) : components path = match nextSegment path with
      | none => []
      | some (seg, rest) => seg :: components rest := by
  have hskip : ∀ pre rest : Name, (∀ c ∈ pre, c = slash) → components (pre ++ rest) = components rest := by
    intro pre rest h
    induction pre with
    | nil => rfl
    | cons c pre ih =>
      rw [h c mem_cons_self, cons_append, components_slash]
      exact ih fun x hx => h x (mem_cons_of_mem _ hx)
  cases h : nextSegment path with
  | none =>
    have hall : ∀ c ∈ path, c = slash := by
      unfold nextSegment at h
      split at h
      · next hd => simpa using dropWhile_eq_nil_iff.1 hd
      · cases h
    have := hskip path [] hall
    rwa [append_nil] at this
  | some x =>
    obtain ⟨seg, rest⟩ := x
    obtain ⟨h0, hs, hr, pre, rfl, hpre⟩ := nextSegment_eq h
    rw [hskip _ _ hpre]
    rcases hr with rfl | hr
    · rw [append_nil, components_name h0 hs]
      rfl
    · obtain ⟨t, rfl⟩ : ∃ t, rest = slash :: t := by
        cases rest with
        | nil => cases hr
        | cons c t => exact ⟨t, by rw [Option.some.inj hr]⟩
      rw [components_append, components_name h0 hs]
      exact congrArg (seg :: ·) (components_slash t).symm

theorem not_mem_trimEnd {p : UInt8 → Bool} {s : Name} {c : UInt8} (h : c ∉ s) : c ∉ trimEnd p s := by
  cases s with
  | nil => exact h
  | cons x s =>
    intro hm
    rcases mem_cons.1 hm with rfl | hm
    · exact h mem_cons_self
    · exact h (mem_cons_of_mem _ (( rdropWhile_prefix p s).subset hm))

theorem not_mem_parentOf {s : Name} {c : UInt8} (h : c ∉ s) : c ∉ parentOf s := by
  unfold parentOf
  dsimp only
  split_ifs
  · exact fun hm => not_mem_trimEnd h (dropLast_subset _ hm)
  · exact not_mem_trimEnd h
  · exact h

theorem resolveLoop_spells (path : Name) (d : Des) (hp : 0 ∉ path) (hd : 0 ∉ d.text) :
    Spells (resolveLoop path d) (buildFrom (components path) d.text) := by
  induction hn : path.length using Nat.strong_induction_on generalizing path d with
  | _ n ih =>
    rw [resolveLoop_eq, components_next]
    cases h : nextSegment path with
    | none => exact d.spells hd
    | some x =>
      obtain ⟨seg, rest⟩ := x
      have hlt := nextSegment_lt h
      obtain ⟨-, -, -, pre, rfl, -⟩ := nextSegment_eq h
      have hseg : 0 ∉ seg := fun hm => hp (by simp [hm])
      have hrest : 0 ∉ rest := fun hm => hp (by simp [hm])
      have hnext := fun d hd => ih _ (hn ▸ hlt) rest d hrest hd rfl
      dsimp only
      rw [buildFrom]
      by_cases h1 : seg = [46]
      · rw [if_pos h1, if_pos h1]
        exact hnext d hd
      rw [if_neg h1, if_neg h1]
      by_cases h2 : seg = [46, 46]
      · rw [if_pos h2, if_pos h2, ← d.text_dropSegment]
        exact hnext _ (by rw [d.text_dropSegment]; exact not_mem_parentOf hd)
      rw [if_neg h2, if_neg h2]
      have hadd := d.text_addSegment seg
      dsimp only at hadd ⊢
      by_cases h3 : 1 < d.text.length ∧ BUFSZ ≤ d.text.length + 1
      · rw [if_pos h3] at hadd ⊢
        rw [hadd]
        exact spells_nil _
      rw [if_neg h3] at hadd ⊢
      have hz : 0 ∉ (if 1 < d.text.length then d.text ++ [slash] else d.text) := by
        split_ifs
        · simpa [hd] using by decide
        · exact hd
      generalize (if 1 < d.text.length then d.text ++ [slash] else d.text) = des at hadd hz ⊢
      by_cases h4 : BUFSZ ≤ des.length + seg.length
      · rw [if_pos h4] at hadd ⊢
        rw [hadd]
        exact spells_nil _
      rw [if_neg h4] at hadd ⊢
      rw [hadd.1, if_pos rfl, ← hadd.2]
      exact hnext _ (by simp [hadd.2, hz, hseg])

theorem components_dropWhile (path : Name) : components (path.dropWhile (· = slash)) = components path := by
  induction path with
  | nil => rfl
  | cons c path ih =>
    by_cases h : c = slash
    · rw [dropWhile_cons_of_pos (by simpa using h), ih, h, components_slash]
    · rw [dropWhile_cons_of_neg (by simpa using h)]

theorem doBuildUserPath_spells (des_path : Bytes) {u_path cwd : Name} (hu : 0 ∉ u_path) (hc : 0 ∉ cwd) :
    Spells (doBuildUserPath des_path (some u_path) (some cwd)) (buildUserPath u_path cwd) := by
  have hempty : Spells (Des.close ⟨des_path, 0⟩).buf [] := spells_nil des_path
  have hcwd : ((Des.close ⟨des_path, 0⟩).putBytes cwd).text = cwd := by rw [Des.text_putBytes]; rfl
  unfold buildUserPath
  cases u_path with
  | nil =>
    rw [if_pos rfl]
    show Spells (if BUFSZ ≤ cwd.length then _ else _) _
    split_ifs
    · exact hempty
    · have := Des.spells ((Des.close ⟨des_path, 0⟩).putBytes cwd) (by rwa [hcwd])
      rwa [hcwd] at this
  | cons c path =>
    rw [if_neg (cons_ne_nil _ _)]
    show Spells (if c = slash then _ else _) _
    by_cases h : c = slash
    · rw [if_pos h, if_pos (by simp [h])]
      have := resolveLoop_spells ((c :: path).dropWhile (· = slash)) (Des.close ⟨des_path, 0⟩).putSlash
        (fun hm => hu ((dropWhile_sublist _).subset hm)) (by rw [Des.text_putSlash]; exact (by decide : (0 : UInt8) ∉ [slash]))
      rw [components_dropWhile, Des.text_putSlash] at this
      exact this
    · have hhead : (c :: path).head? ≠ some slash := by simpa using h
      rw [if_neg h, if_neg hhead]
      by_cases h2 : cwd.head? ≠ some slash ∨ BUFSZ ≤ cwd.length
      · rw [if_pos h2, if_pos h2]
        exact hempty
      · rw [if_neg h2, if_neg h2]
        have ht := Des.text_backWhile (· = slash) ((Des.close ⟨des_path, 0⟩).putBytes cwd).buf
          ((Des.close ⟨des_path, 0⟩).putBytes cwd).wr
        rw [hcwd] at ht
        have := resolveLoop_spells (c :: path) (Des.close ⟨_, backWhile (· = slash)
          ((Des.close ⟨des_path, 0⟩).putBytes cwd).buf ((Des.close ⟨des_path, 0⟩).putBytes cwd).wr⟩) hu
          (by rw [Des.text_close, ht]; exact not_mem_trimEnd hc)
        rw [Des.text_close, ht] at this
        exact this

/-! ## Lexical resolution -/

def descend (cs : List Name) (c : Name) : List Name :=
  if c = [46] then cs else if c = [46, 46] then cs.dropLast else cs ++ [c]

/-- Resolve components from the root on. -/
def resolve (segs : List Name) : List Name := segs.foldl descend []

def Canonical (path : Name) : Prop := ∃ cs, (∀ c ∈ cs, Clean c) ∧ path = join cs

theorem descend_clean {cs : List Name} {c : Name} (hc : ∀ x ∈ cs, Clean x) (h0 : c ≠ []) (hs : slash ∉ c) :
    ∀ x ∈ descend cs c, Clean x := by
  unfold descend
  split_ifs with h1 h2
  · exact hc
  · exact fun x hx => hc x (dropLast_subset _ hx)
  · intro x hx
    rcases mem_append.1 hx with hx | hx
    · exact hc x hx
    · rw [mem_singleton.1 hx]
      exact ⟨h0, hs, h1, h2⟩

theorem length_join_dropLast (cs : List Name) : (join cs.dropLast).length ≤ (join cs).length := by
  induction cs using List.reverseRecOn with
  | nil => exact le_rfl
  | append_singleton cs c =>
    rw [dropLast_concat, join_concat]
    by_cases h : cs = []
    · subst h
      simp
    · rw [join_of_ne h]
      simp

theorem buildFrom_cons {seg : Name} (segs : List Name) {cs : List Name} (hc : ∀ c ∈ cs, Clean c) (h0 : seg ≠ [])
    (hlen : (join cs).length < BUFSZ) : buildFrom (seg :: segs) (join cs) =
      if (join (descend cs seg)).length < BUFSZ then buildFrom segs (join (descend cs seg)) else [] := by
  rw [buildFrom]
  unfold descend
  by_cases h1 : seg = [46]
  · rw [if_pos h1, if_pos h1, if_pos hlen]
  rw [if_neg h1, if_neg h1]
  by_cases h2 : seg = [46, 46]
  · rw [if_pos h2, if_pos h2, parentOf_join cs hc, if_pos (lt_of_le_of_lt (length_join_dropLast cs) hlen)]
  rw [if_neg h2, if_neg h2]
  have hext := join_extend hc seg
  have hpos := length_pos_iff.2 h0
  by_cases h3 : 1 < (join cs).length ∧ BUFSZ ≤ (join cs).length + 1
  · rw [if_pos h3, ← hext, if_pos h3.1, if_neg ?_]
    simp only [length_append, length_singleton]
    omega
  rw [if_neg h3]
  dsimp only
  rw [hext, ← length_append, hext]
  by_cases h4 : BUFSZ ≤ (join (cs ++ [seg])).length
  · rw [if_pos h4, if_neg (Nat.not_lt.2 h4)]
  · rw [if_neg h4, if_pos (Nat.not_le.1 h4)]

theorem foldl_descend_clean (segs : List Name) (hs : ∀ c ∈ segs, c ≠ [] ∧ slash ∉ c) {cs : List Name}
    (hc : ∀ c ∈ cs, Clean c) : ∀ c ∈ segs.foldl descend cs, Clean c := by
  induction segs generalizing cs with
  | nil => exact hc
  | cons seg segs ih =>
    have hseg := hs seg mem_cons_self
    exact ih (fun c h => hs c (mem_cons_of_mem _ h)) (descend_clean hc hseg.1 hseg.2)

theorem buildFrom_eq (segs : List Name) (hs : ∀ c ∈ segs, c ≠ [] ∧ slash ∉ c) {cs : List Name}
    (hc : ∀ c ∈ cs, Clean c) (hlen : (join cs).length < BUFSZ) :
    (∀ pre, pre <+: segs → (join (pre.foldl descend cs)).length < BUFSZ) ∧
        buildFrom segs (join cs) = join (segs.foldl descend cs) ∨
      (∃ pre, pre <+: segs ∧ BUFSZ ≤ (join (pre.foldl descend cs)).length) ∧ buildFrom segs (join cs) = [] := by
  induction segs generalizing cs with
  | nil =>
    refine .inl ⟨fun pre hp => ?_, rfl⟩
    rw [prefix_nil.1 hp]
    exact hlen
  | cons seg segs ih =>
    have hseg := hs seg mem_cons_self
    rw [buildFrom_cons segs hc hseg.1 hlen]
    by_cases hfit : (join (descend cs seg)).length < BUFSZ
    · rw [if_pos hfit]
      rcases ih (fun c h => hs c (mem_cons_of_mem _ h)) (descend_clean hc hseg.1 hseg.2) hfit with
        ⟨h1, h2⟩ | ⟨⟨pre, h1, h2⟩, h3⟩
      · refine .inl ⟨fun pre hp => ?_, h2⟩
        cases pre with
        | nil => exact hlen
        | cons s pre =>
          obtain ⟨rfl, hp'⟩ := cons_prefix_cons.1 hp
          exact h1 pre hp'
      · exact .inr ⟨⟨seg :: pre, cons_prefix_cons.2 ⟨rfl, h1⟩, h2⟩, h3⟩
    · rw [if_neg hfit]
      exact .inr ⟨⟨[seg], ⟨segs, rfl⟩, Nat.not_lt.1 hfit⟩, rfl⟩

theorem foldl_descend_of_clean (segs : List Name) {cs : List Name} (hc : ∀ c ∈ segs, Clean c) :
    segs.foldl descend cs = cs ++ segs := by
  induction segs generalizing cs with
  | nil => exact (append_nil cs).symm
  | cons seg segs ih =>
    have hseg := hc seg mem_cons_self
    have hd : descend cs seg = cs ++ [seg] := by rw [descend, if_neg hseg.not_dot, if_neg hseg.not_dots]
    rw [foldl_cons, hd, ih fun c h => hc c (mem_cons_of_mem _ h), append_assoc]
    rfl

/-- The components that are resolved: those of the current directory first, unless the path is absolute. -/
def toResolve (u_path cwd : Name) : List Name :=
  (if u_path.head? = some slash then [] else components cwd) ++ components u_path

theorem resolve_append (cs : List Name) (hc : ∀ c ∈ cs, Clean c) (segs : List Name) :
    resolve (cs ++ segs) = segs.foldl descend cs := by
  rw [resolve, foldl_append, foldl_descend_of_clean cs hc, nil_append]

theorem join_ne_nil (cs : List Name) : join cs ≠ [] := by
  intro h
  have := head_join cs
  rw [h] at this
  cases this

theorem join_prefix_le {pre cs : List Name} (h : pre <+: cs) : (join pre).length ≤ (join cs).length := by
  obtain ⟨t, rfl⟩ := h
  by_cases h1 : pre = []
  · subst h1
    exact length_pos_iff.2 (join_ne_nil _)
  · rw [join_of_ne h1, join_of_ne (by simp [h1])]
    simp

theorem buildUserPath_eq (u_path : Name) {cs : List Name} (hc : ∀ c ∈ cs, Clean c) :
    (∀ pre, pre <+: toResolve u_path (join cs) → (join (resolve pre)).length ≤ BUFSZ - 1) ∧
        buildUserPath u_path (join cs) = join (resolve (toResolve u_path (join cs))) ∨
      (∃ pre, pre <+: toResolve u_path (join cs) ∧ BUFSZ - 1 < (join (resolve pre)).length) ∧
        buildUserPath u_path (join cs) = [] := by
  have hs : ∀ c ∈ components u_path, c ≠ [] ∧ slash ∉ c := fun c h => ⟨(mem_components h).1, (mem_components h).2.1⟩
  have hB : BUFSZ = 4096 := rfl
  by_cases habs : u_path.head? = some slash
  · have hne : u_path ≠ [] := fun e => by simp [e] at habs
    have htodo : toResolve u_path (join cs) = components u_path := by rw [toResolve, if_pos habs, nil_append]
    rw [buildUserPath, if_neg hne, if_pos habs, htodo]
    rcases @buildFrom_eq _ hs [] (by simp) (by rw [hB]; decide) with ⟨h1, h2⟩ | ⟨⟨pre, h1, h2⟩, h3⟩
    · exact .inl ⟨fun pre hp => Nat.le_sub_one_of_lt (h1 pre hp), h2⟩
    · exact .inr ⟨⟨pre, h1, by rw [resolve]; omega⟩, h3⟩
  have htodo : toResolve u_path (join cs) = cs ++ components u_path := by
    rw [toResolve, if_neg habs, components_join hc]
  rw [htodo]
  -- a prefix of the components is one of the current directory's or goes on from there
  have hpre : ∀ pre, pre <+: cs ++ components u_path → pre <+: cs ∨ ∃ t, t <+: components u_path ∧ pre = cs ++ t := by
    rintro pre ⟨r, he⟩
    rcases append_eq_append_iff.1 he with ⟨t, rfl, -⟩ | ⟨t, rfl, ht⟩
    · exact .inl ⟨t, rfl⟩
    · exact .inr ⟨t, ⟨r, ht.symm⟩, rfl⟩
  have hself : ∀ pre, pre <+: cs → resolve pre = pre := by
    intro pre hp
    rw [resolve, foldl_descend_of_clean pre fun c h => hc c (hp.subset h), nil_append]
  by_cases hlong : BUFSZ ≤ (join cs).length
  · refine .inr ⟨⟨cs, prefix_append _ _, by rw [hself cs prefix_rfl]; omega⟩, ?_⟩
    unfold buildUserPath
    rw [if_neg habs, if_pos hlong, if_pos (Or.inr hlong)]
    exact ite_self _
  have hbuild : buildUserPath u_path (join cs) = buildFrom (components u_path) (join cs) := by
    unfold buildUserPath
    have hstart : ¬((join cs).head? ≠ some slash ∨ BUFSZ ≤ (join cs).length) := by
      rw [head_join]
      simpa using hlong
    rw [if_neg hlong, if_neg habs, if_neg hstart, trimEnd_join hc]
    split_ifs with h0
    · rw [h0]
      rfl
    · rfl
  rw [hbuild, resolve_append cs hc]
  rcases buildFrom_eq _ hs hc (Nat.not_le.1 hlong) with ⟨h1, h2⟩ | ⟨⟨pre, h1, h2⟩, h3⟩
  · refine .inl ⟨fun pre hp => ?_, h2⟩
    rcases hpre pre hp with hp | ⟨t, ht, rfl⟩
    · have := join_prefix_le hp
      rw [hself pre hp]
      omega
    · have := h1 t ht
      rw [resolve_append cs hc]
      omega
  · refine .inr ⟨⟨cs ++ pre, (prefix_append_right_inj cs).2 h1, ?_⟩, h3⟩
    rw [resolve_append cs hc]
    omega

theorem toResolve_clean (u_path cwd : Name) : ∀ c ∈ resolve (toResolve u_path cwd), Clean c := by
  refine foldl_descend_clean _ (fun c h => ?_) (by simp)
  rcases mem_append.1 h with h | h
  · split_ifs at h
    · cases h
    · exact ⟨(mem_components h).1, (mem_components h).2.1⟩
  · exact ⟨(mem_components h).1, (mem_components h).2.1⟩

/-- Building a path is lexical resolution: the result is empty exactly when a directory
on the way does not fit, and otherwise the canonical path of what the components resolve
to, which is built from itself again. -/
theorem user_path_resolved (des_path : Bytes) {u_path cwd : Name} (hu : 0 ∉ u_path) (hz : 0 ∉ cwd)
    (hcwd : Canonical cwd) :
    ∃ s, Spells (doBuildUserPath des_path (some u_path) (some cwd)) s ∧
      (s = [] ↔ ∃ pre, pre <+: toResolve u_path cwd ∧ BUFSZ - 1 < (join (resolve pre)).length) ∧
      (s ≠ [] → s = join (resolve (toResolve u_path cwd)) ∧ Canonical s ∧
        ∀ des', Spells (doBuildUserPath des' (some s) (some cwd)) s) := by
  obtain ⟨cs, hc, rfl⟩ := hcwd
  have hspell := doBuildUserPath_spells des_path hu hz
  refine ⟨_, hspell, ?_⟩
  rcases buildUserPath_eq u_path hc with ⟨hfit, he⟩ | ⟨hlong, he⟩
  · have hc' := toResolve_clean u_path (join cs)
    have hsz := hfit _ prefix_rfl
    rw [he] at hspell ⊢
    generalize hrs : resolve (toResolve u_path (join cs)) = rs at hspell hc' hsz ⊢
    refine ⟨⟨fun h => absurd h (join_ne_nil rs), fun ⟨pre, hp, h⟩ => absurd h (Nat.not_lt.2 (hfit pre hp))⟩, fun _ =>
      ⟨rfl, ⟨rs, hc', rfl⟩, fun des' => ?_⟩⟩
    have hself : buildUserPath (join rs) (join cs) = join rs := by
      rw [buildUserPath, if_neg (join_ne_nil rs), if_pos (head_join rs), components_join hc']
      exact @buildFrom_clean rs [] hc' (lt_of_le_of_lt hsz (by decide))
    have := doBuildUserPath_spells des' hspell.no_nul hz
    rwa [hself] at this
  · rw [he]
    exact ⟨⟨fun _ => hlong, fun _ => rfl⟩, fun h => absurd rfl h⟩

namespace Sample

def dotted : Name := [46, 46, 47, 47, 97, 47, 46, 47, 98, 47]

theorem dotted_resolved : Canonical [47, 99] ∧ resolve (toResolve dotted [47, 99]) = [[97], [98]] ∧
    ∃ s, Spells (doBuildUserPath Bytes.zero (some dotted) (some [47, 99])) s ∧
      (s = [] ↔ ∃ pre, pre <+: toResolve dotted [47, 99] ∧ BUFSZ - 1 < (join (resolve pre)).length) ∧
      (s ≠ [] → s = join (resolve (toResolve dotted [47, 99])) ∧ Canonical s ∧
        ∀ des', Spells (doBuildUserPath des' (some s) (some [47, 99])) s) := by
  have hc : Canonical [47, 99] := by
    refine ⟨[[99]], fun c hc => ?_, rfl⟩
    rw [mem_singleton.1 hc]
    exact ⟨by decide, by decide, by decide, by decide⟩
  exact ⟨hc, by decide, user_path_resolved Bytes.zero (by decide) (by decide) hc⟩

end Sample

end Vfs
