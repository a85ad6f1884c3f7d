import Mathlib
/-!
# Names in directory entries (`fs/fat32.c`)

A name of the form `base.ext` is stored as eleven upper-case bytes, padded with
spaces, and two flags that say which part is shown in lower case. `nameToDos`
says which names are accepted, `dosToName` gives the name back, and `Kept` says for
which names that is the name that was stored.
-/

open List

namespace Fat32

abbrev Name := List UInt8

def DOT : UInt8 := 0x2e

def SPACE : UInt8 := 0x20

def isUpper (c : UInt8) : Bool := 0x41 ≤ c && c ≤ 0x5a

def isLower (c : UInt8) : Bool := 0x61 ≤ c && c ≤ 0x7a

def toUpper (c : UInt8) : UInt8 := if isLower c then c - 0x61 + 0x41 else c

def toLower (c : UInt8) : UInt8 := if isUpper c then c - 0x41 + 0x61 else c

/-- `fat32_char_ok`; the list is the string of punctuation in the source. -/
def charOk (u : UInt8) : Bool :=
  isUpper u || isLower u || (0x30 ≤ u && u ≤ 0x39) || 0x80 ≤ u ||
    [0x21, 0x23, 0x24, 0x25, 0x26, 0x27, 0x28, 0x29, 0x2d, 0x40, 0x5e, 0x5f, 0x60, 0x7b, 0x7d, 0x7e].contains u

def base (name : Name) : Name := name.takeWhile (· ≠ DOT)

def ext? (name : Name) : Option Name := if DOT ∈ name then some (name.dropWhile (· ≠ DOT)).tail else none

def pad (n : Nat) (l : Name) : Name := l ++ List.replicate (n - l.length) SPACE

def nameToDos (name : Name) : Option Name :=
  if name.length = 0 ∨ name.length > 12 then none
  else if name.head? = some DOT then none
  else if name.count DOT > 1 ∨ ¬name.all (fun c => c = DOT || charOk c) then none
  else if (base name).length = 0 ∨ (base name).length > 8 then none
  else if ((ext? name).getD []).length > 3 then none
  else some (pad 8 ((base name).map toUpper) ++ pad 3 (((ext? name).getD []).map toUpper))

def dosToName (raw : Name) (ntres : UInt8) : Name :=
  let base := (raw.take 8).takeWhile (· ≠ SPACE)
  let ext := ((raw.drop 8).take 3).takeWhile (· ≠ SPACE)
  let show_base := fun c => if ntres &&& 0x08 ≠ 0 then toLower c else c
  let show_ext := fun c => if ntres &&& 0x10 ≠ 0 then toLower c else c
  base.map show_base ++ if ext.length > 0 then DOT :: ext.map show_ext else []

/-- The flags that `fat32_dir_add` stores. The loop over the base runs up to the dot,
so a name without one gets no flag. -/
def ntReserved (name : Name) : UInt8 :=
  match ext? name with
  | none => 0
  | some ext => (if (base name).any isLower then 0x08 else 0) ||| (if ext.any isLower then 0x10 else 0)

/-! ## Letters -/

theorem forall_byte {P : UInt8 → Prop} (h : ∀ n < 256, P (UInt8.ofNat n)) (c : UInt8) : P c := by
  have := h c.toNat c.toNat_lt
  rwa [UInt8.ofNat_toNat] at this

theorem toUpper_eq_iff (c : UInt8) : toUpper c = c ↔ isLower c = false :=
  forall_byte (P := fun c => toUpper c = c ↔ isLower c = false) (by decide +kernel) c

theorem toLower_toUpper_iff (c : UInt8) : toLower (toUpper c) = c ↔ isUpper c = false :=
  forall_byte (P := fun c => toLower (toUpper c) = c ↔ isUpper c = false) (by decide +kernel) c

theorem toUpper_ne_space {c : UInt8} (h : charOk c = true) : toUpper c ≠ SPACE :=
  forall_byte (P := fun c => charOk c = true → toUpper c ≠ SPACE) (by decide +kernel) c h

/-- An accepted first byte is neither zero nor a dot, and the mark of a removed entry
only if it was that byte. -/
theorem toUpper_first {c : UInt8} (h : charOk c = true) : toUpper c ≠ 0 ∧ toUpper c ≠ DOT ∧ (toUpper c = 0xe5 ↔ c = 0xe5) :=
  forall_byte (P := fun c => charOk c = true → toUpper c ≠ 0 ∧ toUpper c ≠ DOT ∧ (toUpper c = 0xe5 ↔ c = 0xe5)) (by decide +kernel) c h

theorem flags (b e : Bool) : (((if b then 0x08 else 0) ||| (if e then 0x10 else 0) : UInt8) &&& 0x08 ≠ 0 ↔ b = true) ∧
      (((if b then 0x08 else 0) ||| (if e then 0x10 else 0) : UInt8) &&& 0x10 ≠ 0 ↔ e = true) := by
  revert b e
  decide

theorem map_eq_self_iff {f : UInt8 → UInt8} {l : Name} : l.map f = l ↔ ∀ c ∈ l, f c = c := by
  constructor
  · intro h
    exact map_eq_map_iff.1 (h.trans (map_id l).symm)
  · intro h
    exact (map_congr_left h).trans (map_id l)

theorem takeWhile_pad {n : Nat} {l : Name} (h : ∀ c ∈ l, c ≠ SPACE) : (pad n l).takeWhile (· ≠ SPACE) = l := by
  unfold pad
  rw [takeWhile_append_of_pos fun c hc => decide_eq_true (h c hc)]
  cases n - l.length with
  | zero => simp
  | succ k => simp [replicate_succ]

/-! ## Names that are kept -/

/-- No letter is in the other case. -/
def Uniform (part : Name) : Prop := (∀ c ∈ part, isLower c = false) ∨ ∀ c ∈ part, isUpper c = false

/-- The name is shown as it was stored. -/
def Kept (name : Name) : Prop :=
  match ext? name with
  | none => ∀ c ∈ name, isLower c = false
  | some ext => ext ≠ [] ∧ Uniform (base name) ∧ Uniform ext

instance (part : Name) : Decidable (Uniform part) := inferInstanceAs (Decidable (_ ∨ _))

instance (name : Name) : Decidable (Kept name) := by
  unfold Kept
  cases ext? name <;> infer_instance

theorem shown_iff {part : Name} {f : UInt8 → UInt8} (hf : ∀ c, f c = if part.any isLower then toLower c else c) :
    (part.map toUpper).map f = part ↔ Uniform part := by
  rw [map_map, map_eq_self_iff]
  by_cases hany : part.any isLower = true
  · have hlow : ∀ c, (f ∘ toUpper) c = c ↔ isUpper c = false := fun c => by
      rw [Function.comp_apply, hf, if_pos hany, toLower_toUpper_iff]
    simp only [hlow]
    refine ⟨.inr, fun h => h.resolve_left fun hno => ?_⟩
    obtain ⟨c, hc, hl⟩ := any_eq_true.1 hany
    rw [hno c hc] at hl
    cases hl
  · have hno : ∀ c ∈ part, isLower c = false := by simpa using hany
    refine ⟨fun _ => .inl hno, fun _ c hc => ?_⟩
    rw [Function.comp_apply, hf, if_neg hany, (toUpper_eq_iff c).2 (hno c hc)]

section Stored

variable {name dos : Name}

theorem base_append_ext (name : Name) : name = base name ++ match ext? name with
    | none => []
    | some ext => DOT :: ext := by
  induction name with
  | nil => rfl
  | cons c l ih =>
    by_cases hc : c = DOT
    · subst hc
      have he : ext? (DOT :: l) = some l := by simp [ext?]
      rw [he]
      simp [base]
    · have hb : base (c :: l) = c :: base l := takeWhile_cons_of_pos (decide_eq_true hc)
      have he : ext? (c :: l) = ext? l := by simp [ext?, hc, Ne.symm hc]
      rw [hb, he, cons_append, ← ih]

structure Accepted (name dos : Name) : Prop where
  ne_nil : base name ≠ []
  length : (base name).length ≤ 8
  ext_length : ((ext? name).getD []).length ≤ 3
  ok : ∀ c ∈ name, c = DOT ∨ charOk c = true
  one : name.count DOT ≤ 1
  head : name.head? ≠ some DOT
  eq : dos = pad 8 ((base name).map toUpper) ++ pad 3 (((ext? name).getD []).map toUpper)

theorem accepted_of_nameToDos (h : nameToDos name = some dos) : Accepted name dos := by
  unfold nameToDos at h
  split_ifs at h with h1 h2 h3 h4 h5
  rw [not_or, not_not] at h3
  rw [not_or] at h4
  refine ⟨fun e => h4.1 (by rw [e]; rfl), by omega, by omega, fun c hc => ?_, by omega, h2, (Option.some.inj h).symm⟩
  have := all_eq_true.1 h3.2 c hc
  simpa using this

variable (h : Accepted name dos)
include h

theorem Accepted.base_ok {c : UInt8} (hc : c ∈ base name) : charOk c = true := by
  have hne : c ≠ DOT := of_decide_eq_true (mem_takeWhile_imp (p := (· ≠ DOT)) hc)
  exact (h.ok c ((takeWhile_sublist _).subset hc)).resolve_left hne

theorem Accepted.ext_ok {ext : Name} (he : ext? name = some ext) {c : UInt8} (hc : c ∈ ext) : charOk c = true := by
  have hname := base_append_ext name
  rw [he] at hname
  dsimp only at hname
  refine (h.ok c ?_).resolve_left fun e => ?_
  · rw [hname]
    simp [hc]
  · have hone := h.one
    rw [hname, count_append, count_cons_self] at hone
    have : 0 < ext.count DOT := count_pos_iff.2 (e ▸ hc)
    omega

theorem Accepted.ext_getD_ok {c : UInt8} (hc : c ∈ (ext? name).getD []) : charOk c = true := by
  cases he : ext? name with
  | none =>
    rw [he] at hc
    cases hc
  | some ext =>
    rw [he] at hc
    exact h.ext_ok he hc

theorem Accepted.base_length : (pad 8 ((base name).map toUpper)).length = 8 := by
  have := h.length
  simp only [pad, length_append, length_map, length_replicate]
  omega

theorem Accepted.dos_length : dos.length = 11 := by
  have := h.ext_length
  rw [h.eq, length_append, h.base_length]
  simp only [pad, length_append, length_map, length_replicate]
  omega

theorem Accepted.parts : (dos.take 8).takeWhile (· ≠ SPACE) = (base name).map toUpper ∧
    ((dos.drop 8).take 3).takeWhile (· ≠ SPACE) = ((ext? name).getD []).map toUpper := by
  have h8 := h.base_length
  rw [h.eq]
  constructor
  · rw [take_left' h8, takeWhile_pad]
    simp only [mem_map]
    rintro _ ⟨c, hc, rfl⟩
    exact toUpper_ne_space (h.base_ok hc)
  · rw [drop_left' h8, take_of_length_le, takeWhile_pad]
    · simp only [mem_map]
      rintro _ ⟨c, hc, rfl⟩
      exact toUpper_ne_space (h.ext_getD_ok hc)
    · have := h.ext_length
      simp only [pad, length_append, length_map, length_replicate]
      omega

theorem Accepted.shown_iff : dosToName dos (ntReserved name) = name ↔ Kept name := by
  obtain ⟨hbase, hext⟩ := h.parts
  have hname := base_append_ext name
  unfold dosToName Kept ntReserved
  rw [hbase, hext]
  cases he : ext? name with
  | none =>
    rw [he] at hname
    dsimp only at hname ⊢
    rw [append_nil] at hname
    have hshow : ∀ c : UInt8, (if (0 : UInt8) &&& 0x08 ≠ 0 then toLower c else c) = c := fun c => if_neg (by decide)
    simp only [Option.getD_none, map_nil, length_nil, Nat.lt_irrefl, if_false, append_nil, hshow, map_id', gt_iff_lt]
    rw [← hname, map_eq_self_iff]
    simp only [toUpper_eq_iff]
  | some ext =>
    rw [he] at hname
    dsimp only at hname ⊢
    obtain ⟨hb8, he16⟩ := flags ((base name).any isLower) (ext.any isLower)
    simp only [Option.getD_some, length_map, gt_iff_lt, hb8, he16]
    by_cases hnil : ext = []
    · -- a trailing dot is not shown
      subst hnil
      refine iff_of_false (fun heq => ?_) fun h => h.1 rfl
      have hlen := congrArg List.length (heq.trans hname)
      simp at hlen
    · rw [if_pos (length_pos_iff.2 hnil)]
      conv_lhs => rhs; rw [hname]
      rw [append_eq_append_iff_of_size_eq_left (by simp), List.cons.injEq, Fat32.shown_iff fun _ => rfl, Fat32.shown_iff fun _ => rfl]
      simp [hnil]

theorem Accepted.first : ∃ c rest, name = c :: rest ∧ charOk c = true ∧ dos.head? = some (toUpper c) := by
  cases hn : name with
  | nil => exact absurd (by rw [hn]; rfl) h.ne_nil
  | cons c rest =>
    have hc : c ≠ DOT := fun e => h.head (by rw [hn, e]; rfl)
    have hb : base name = c :: base rest := by
      rw [hn]
      exact takeWhile_cons_of_pos (decide_eq_true hc)
    refine ⟨c, rest, rfl, h.base_ok (by rw [hb]; exact mem_cons_self), ?_⟩
    rw [h.eq, hb]
    rfl

end Stored

end Fat32
