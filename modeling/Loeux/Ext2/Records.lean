import Loeux.Ext2.Dir
/-!
# The records of a directory block

A block is well formed when its records, followed by `rec_len`, tile it. The
loops of the driver walk over the list of records, `ext2_dir_add` and
`ext2_dir_remove` edit it in place: a record never moves, only the space it has
behind its name does.
-/
open Lib Bytes List Nat

namespace Ext2

open De

structure Rec where
  off : Nat
  len : Nat
  ino : Nat
  type : Nat
  name : List UInt8
  deriving DecidableEq

def De.rec (b : Bytes) (off : Nat) : Rec where
  off := off
  len := De.rec_len b off
  ino := De.inode b off
  type := De.file_type b off
  name := De.name b off (De.name_len b off)

namespace Rec

/-- The length is a multiple of 4 that holds the header and the name. -/
def Fits (r : Rec) : Prop := 4 ∣ r.len ∧ 8 + r.name.length ≤ r.len

instance (r : Rec) : Decidable r.Fits := inferInstanceAs (Decidable (_ ∧ _))

/-- The record is in use and carries this name. -/
def isNamed (r : Rec) (name : List UInt8) : Bool := r.ino != 0 && r.name == name

end Rec

def Tiles (b : Bytes) : Nat → List Rec → Nat → Prop
  | lo, [], hi => lo = hi
  | lo, r :: rs, hi => r = De.rec b lo ∧ r.Fits ∧ Tiles b (lo + r.len) rs hi

instance Tiles.decidable (b : Bytes) : ∀ lo rs hi, Decidable (Tiles b lo rs hi)
  | lo, [], hi => inferInstanceAs (Decidable (lo = hi))
  | lo, r :: rs, hi =>
    have := Tiles.decidable b (lo + r.len) rs hi
    inferInstanceAs (Decidable (_ ∧ r.Fits ∧ Tiles b (lo + r.len) rs hi))

def recs (bs : Nat) (b : Bytes) : (fuel off : Nat) → List Rec
  | 0, _ => []
  | fuel + 1, off =>
    if bs < off + 8 then []
    else if De.rec_len b off < 8 then []
    else De.rec b off :: recs bs b fuel (off + De.rec_len b off)

/-! ## Reading -/

section Reading

variable {b b' : Bytes} {lo mid hi off : Nat} {rs rs' : List Rec}

@[simp] theorem length_name (b : Bytes) (off n : Nat) : (De.name b off n).length = n := by simp [De.name]

theorem rec_congr (h : ∀ i, off ≤ i → i < off + 8 + name_len b off → b' i = b i) : De.rec b' off = De.rec b off := by
  have hn : name_len b' off = name_len b off := by
    rw [name_len, name_len, h _ (by omega) (by omega)]
  have hname : De.name b' off (name_len b off) = De.name b off (name_len b off) := by
    refine map_congr_left fun i hi => ?_
    have := mem_range.1 hi
    exact h _ (by omega) (by omega)
  simp only [De.rec, hn, hname, Rec.mk.injEq, true_and, and_true]
  refine ⟨?_, ?_, ?_⟩
  · exact get_congr fun i h1 h2 => h i (by omega) (by omega)
  · exact get_congr fun i h1 h2 => h i (by omega) (by omega)
  · rw [file_type, file_type, h _ (by omega) (by omega)]

theorem Tiles.le (h : Tiles b lo rs hi) : lo ≤ hi := by
  induction rs generalizing lo with
  | nil => exact h.le
  | cons r rs ih => exact (Nat.le_add_right _ _).trans (ih h.2.2)

theorem Tiles.append (h : Tiles b lo rs mid) (h' : Tiles b mid rs' hi) : Tiles b lo (rs ++ rs') hi := by
  induction rs generalizing lo with
  | nil => obtain rfl : lo = mid := h; exact h'
  | cons r rs ih => exact ⟨h.1, h.2.1, ih h.2.2⟩

theorem Tiles.split (h : Tiles b lo (rs ++ rs') hi) : ∃ mid, Tiles b lo rs mid ∧ Tiles b mid rs' hi := by
  induction rs generalizing lo with
  | nil => exact ⟨lo, rfl, h⟩
  | cons r rs ih =>
    obtain ⟨mid, h1, h2⟩ := ih h.2.2
    exact ⟨mid, ⟨h.1, h.2.1, h1⟩, h2⟩

theorem Tiles.congr (h : Tiles b lo rs hi) (hb : ∀ i, lo ≤ i → i < hi → b' i = b i) : Tiles b' lo rs hi := by
  induction rs generalizing lo with
  | nil => exact h
  | cons r rs ih =>
    obtain ⟨hr, hf, ht⟩ := h
    have hle := ht.le
    have hlen : 8 + name_len b lo ≤ r.len := by
      have := hf.2
      rw [hr] at this ⊢
      simpa [De.rec] using this
    refine ⟨?_, hf, ih ht fun i h1 h2 => hb i (by omega) h2⟩
    rw [hr, rec_congr fun i h1 h2 => hb i h1 (by omega)]

theorem Tiles.recs_eq {bs : Nat} (h : Tiles b lo rs bs) (fuel : Nat) (hf : bs - lo ≤ fuel) :
    recs bs b fuel lo = rs := by
  induction rs generalizing lo fuel with
  | nil =>
    obtain rfl : lo = bs := h
    cases fuel with
    | zero => rfl
    | succ fuel => rw [recs, if_pos (by omega)]
  | cons r rs ih =>
    obtain ⟨rfl, hfit, ht⟩ := h
    have hle := ht.le
    have hlen := hfit.2
    have e : (De.rec b lo).len = rec_len b lo := rfl
    cases fuel with
    | zero => omega
    | succ fuel =>
      rw [recs, if_neg (by omega), if_neg (by omega), ← e, ih ht fuel (by omega)]

end Reading

/-! ## The loops that only read -/

section Loops

variable (bs : Nat) (b : Bytes) (name : List UInt8)

theorem isNamed_rec (off : Nat) : (De.rec b off).isNamed name = De.isNamed b off name := by
  have key : De.name b off (name_len b off) = name ↔
      name_len b off = name.length ∧ De.name b off name.length = name := by
    constructor
    · intro h
      have hl : name_len b off = name.length := by rw [← h, length_name]
      exact ⟨hl, hl ▸ h⟩
    · rintro ⟨hl, h⟩
      rw [hl, h]
  rw [Bool.eq_iff_iff]
  simp [Rec.isNamed, De.isNamed, De.rec, key, and_assoc]

theorem findIn_eq (fuel off : Nat) :
    findIn bs b name fuel off = ((recs bs b fuel off).find? (·.isNamed name)).map Rec.ino := by
  induction fuel generalizing off with
  | zero => rfl
  | succ fuel ih =>
    rw [findIn, recs]
    by_cases h1 : bs < off + 8
    · simp [h1]
    by_cases h2 : rec_len b off < 8
    · simp [h1, h2]
    rw [if_neg h1, if_neg h2, if_neg h1, if_neg h2, find?_cons, isNamed_rec, ih]
    cases De.isNamed b off name <;> rfl

def Rec.isOther (r : Rec) : Bool := r.ino != 0 && r.name != [46] && r.name != [46, 46]

theorem isOther_rec (off : Nat) :
    (De.rec b off).isOther = decide (De.inode b off ≠ 0 ∧ ¬(name_len b off = 1 ∧ b (off + 8) = 46) ∧
      ¬(name_len b off = 2 ∧ b (off + 8) = 46 ∧ b (off + 9) = 46)) := by
  have h1 : De.name b off (name_len b off) = [46] ↔ name_len b off = 1 ∧ b (off + 8) = 46 := by
    constructor
    · intro h
      have hl : name_len b off = 1 := by rw [← length_name b off (name_len b off), h]; rfl
      rw [hl] at h
      exact ⟨hl, by simpa [De.name] using h⟩
    · rintro ⟨hl, h⟩
      simp [hl, De.name, h]
  have h2 : De.name b off (name_len b off) = [46, 46] ↔ name_len b off = 2 ∧ b (off + 8) = 46 ∧ b (off + 9) = 46 := by
    constructor
    · intro h
      have hl : name_len b off = 2 := by rw [← length_name b off (name_len b off), h]; rfl
      rw [hl] at h
      exact ⟨hl, by simpa [De.name, range_succ] using h⟩
    · rintro ⟨hl, h, h'⟩
      simp [hl, De.name, range_succ, h, h']
  rw [Bool.eq_iff_iff]
  simp only [Rec.isOther, De.rec, Bool.and_eq_true, bne_iff_ne, ne_eq, h1, h2, decide_eq_true_eq, and_assoc]

theorem occupiedIn_eq (fuel off : Nat) : occupiedIn bs b fuel off = (recs bs b fuel off).any Rec.isOther := by
  induction fuel generalizing off with
  | zero => rfl
  | succ fuel ih =>
    rw [occupiedIn, recs]
    by_cases h1 : bs < off + 8
    · simp [h1]
    by_cases h2 : rec_len b off < 8
    · simp [h1, h2]
    rw [if_neg h1, if_neg h2, if_neg h1, if_neg h2, any_cons, isOther_rec, ih]
    split_ifs with h3
    · rw [decide_eq_true h3, Bool.true_or]
    · rw [decide_eq_false h3, Bool.false_or]

end Loops

/-! ## Edits -/

/-- What `ext2_dir_add` does to the records of a block: it takes a free record,
or the end of the last one. -/
inductive Adds (name : List UInt8) (ino type : Nat) : List Rec → List Rec → Prop
  | fill {pre post r} : r.ino = 0 → recLen name.length + 8 ≤ r.len →
      Adds name ino type (pre ++ r :: post)
        (pre ++ ⟨r.off, recLen name.length, ino, type, name⟩ ::
          ⟨r.off + recLen name.length, r.len - recLen name.length, 0, 0, []⟩ :: post)
  | take {pre post r} : r.ino = 0 → recLen name.length ≤ r.len →
      Adds name ino type (pre ++ r :: post) (pre ++ ⟨r.off, r.len, ino, type, name⟩ :: post)
  | split {pre r} : recLen r.name.length + recLen name.length ≤ r.len →
      Adds name ino type (pre ++ [r])
        (pre ++ [{ r with len := recLen r.name.length },
          ⟨r.off + recLen r.name.length, r.len - recLen r.name.length, ino, type, name⟩])

/-- What `ext2_dir_remove` does to them: the first record of the block becomes
free, any other goes to the one before it. -/
inductive Drops (name : List UInt8) : List Rec → List Rec → Prop
  | free {post r} : r.isNamed name → Drops name (r :: post) ({ r with ino := 0 } :: post)
  | merge {pre post q r} : (∀ x ∈ pre ++ [q], ¬x.isNamed name) → r.isNamed name →
      Drops name (pre ++ q :: r :: post) (pre ++ { q with len := q.len + r.len } :: post)

section Writing

variable {b : Bytes} {off len ino type : Nat} {name : List UInt8}

theorem recLen_eq {n : Nat} (h : n ≤ 255) : recLen n = (8 + n + 3) / 4 * 4 := mod_eq_of_lt (by omega)

theorem recLen_ge {n : Nat} (h : n ≤ 255) : 8 + n ≤ recLen n := by rw [recLen_eq h]; omega

theorem recLen_dvd {n : Nat} (h : n ≤ 255) : 4 ∣ recLen n := by rw [recLen_eq h]; exact Nat.dvd_mul_left _ _

theorem recLen_le {n m : Nat} (h : n ≤ 255) (hd : 4 ∣ m) (hm : 8 + n ≤ m) : recLen n ≤ m := by
  rw [recLen_eq h]
  obtain ⟨k, rfl⟩ := hd
  omega

theorem rec_eq (h1 : rec_len b off = len) (h2 : De.inode b off = ino) (h3 : file_type b off = type)
    (h4 : name_len b off = name.length) (h5 : De.name b off name.length = name) :
    De.rec b off = ⟨off, len, ino, type, name⟩ := by
  simp only [De.rec, h1, h2, h3, h4, h5]

theorem put_byte (o v : Nat) (b : Bytes) : put 1 o v b o = UInt8.ofNat v := by
  simp [put]

theorem name_setName (off : Nat) (b : Bytes) (s : List UInt8) : De.name (setName off s b) off s.length = s := by
  refine ext_getElem (by simp) fun i h1 h2 => ?_
  simp only [De.name, getElem_map, getElem_range, setName, copy]
  rw [if_pos (by omega), show off + 8 + i - (off + 8) = i by omega]
  simp [h2]

theorem setName_of_ne {i : Nat} (h : i < off + 8 ∨ off + 8 + name.length ≤ i) :
    setName off name b i = b i := copy_of_ne _ _ h

theorem setName_nil (off : Nat) (b : Bytes) : setName off [] b = b := by
  funext i
  exact setName_of_ne (by simp only [length_nil]; omega)

/-- The end of every write of a record: the header has its inode number and
length already, the rest of it and the name follow. -/
theorem rec_named (b : Bytes) (off : Nat) (hn : name.length ≤ 255) (ht : type < 256) :
    De.rec (b |> setNameLen off name.length |> setFileType off type |> setName off name) off =
      ⟨off, rec_len b off, De.inode b off, type, name⟩ := by
  refine rec_eq ?_ ?_ ?_ ?_ (name_setName _ _ _)
  · simp (disch := omega) only [rec_len, setName, setFileType, setNameLen, get_put_of_disjoint, get_copy_of_disjoint]
  · simp (disch := omega) only [De.inode, setName, setFileType, setNameLen, get_put_of_disjoint, get_copy_of_disjoint]
  · simp (disch := omega) only [file_type, setName, setFileType, copy_of_ne, put_byte]
    simp [ht]
  · simp (disch := omega) only [name_len, setName, setFileType, setNameLen, put_of_ne, copy_of_ne, put_byte]
    simp
    omega

theorem rec_unnamed (b : Bytes) (off : Nat) : De.rec (b |> setNameLen off 0 |> setFileType off 0) off =
      ⟨off, rec_len b off, De.inode b off, 0, []⟩ := by
  have := @rec_named 0 [] b off (by simp) (by omega)
  rwa [setName_nil] at this

theorem rec_setRecLen (b : Bytes) (off : Nat) (hl : len < 2 ^ 16) :
    De.rec (setRecLen off len b) off = { De.rec b off with len := len } := by
  have hn : name_len (setRecLen off len b) off = name_len b off := by
    simp (disch := omega) only [name_len, setRecLen, put_of_ne]
  simp only [De.rec, hn, Rec.mk.injEq, true_and]
  refine ⟨?_, ?_, ?_, ?_⟩
  · rw [rec_len, setRecLen, get_put]
    exact mod_eq_of_lt hl
  · exact get_put_of_disjoint _ _ (by omega)
  · simp (disch := omega) only [file_type, setRecLen, put_of_ne]
  · simp (disch := omega) only [De.name, setRecLen, put_of_ne]

theorem rec_setInode (b : Bytes) (off : Nat) (hi : ino < 2 ^ 32) :
    De.rec (setInode off ino b) off = { De.rec b off with ino := ino } := by
  have hn : name_len (setInode off ino b) off = name_len b off := by
    simp (disch := omega) only [name_len, setInode, put_of_ne]
  simp only [De.rec, hn, Rec.mk.injEq, true_and]
  refine ⟨?_, ?_, ?_, ?_⟩
  · exact get_put_of_disjoint _ _ (by omega)
  · rw [De.inode, setInode, get_put]
    exact mod_eq_of_lt hi
  · simp (disch := omega) only [file_type, setInode, put_of_ne]
  · simp (disch := omega) only [De.name, setInode, put_of_ne]

theorem named_of_ne {i : Nat} (b : Bytes) (h : i < off ∨ off + 8 + name.length ≤ i) :
    (b |> setNameLen off name.length |> setFileType off type |> setName off name) i = b i := by
  simp (disch := omega) only [setName, setFileType, setNameLen, put_of_ne, copy_of_ne]

theorem Tiles.edit {b b' : Bytes} {lo a c hi : Nat} {pre post : List Rec} (hpre : Tiles b lo pre a)
    (mid : List Rec) (hpost : Tiles b c post hi) (hmid : Tiles b' a mid c) (hb : ∀ i, i < a ∨ c ≤ i → b' i = b i) :
    Tiles b' lo (pre ++ (mid ++ post)) hi :=
  (hpre.congr fun i _ h => hb i (.inl h)).append (hmid.append (hpost.congr fun i h _ => hb i (.inr h)))

section Add

variable {bs : Nat} {rs pre post : List Rec} {r : Rec}

theorem Tiles.name_le (h : Tiles b off (r :: rs) len) : r.name.length ≤ 255 := by
  rw [h.1]
  simp only [De.rec, length_name, name_len]
  have := (b (off + 6)).toNat_lt
  omega

theorem Tiles.off_eq (h : Tiles b off (r :: rs) len) : r.off = off := by rw [h.1]; rfl

theorem rec_placed (b : Bytes) (off : Nat) (hn : name.length ≤ 255) (hi : ino < 2 ^ 32) (ht : type < 256) :
    De.rec (b |> setInode off ino |> setNameLen off name.length |> setFileType off type
      |> setName off name) off = ⟨off, rec_len b off, ino, type, name⟩ := by
  rw [rec_named _ _ hn ht]
  simp (disch := omega) only [rec_len, De.inode, setInode, get_put_of_disjoint, get_put]
  rw [mod_eq_of_lt (show ino < 256 ^ 4 from hi)]

theorem placed_of_ne {i : Nat} (b : Bytes) (h : i < off ∨ off + 8 + name.length ≤ i) :
    (b |> setInode off ino |> setNameLen off name.length |> setFileType off type
      |> setName off name) i = b i := by
  rw [named_of_ne _ h]
  exact put_of_ne _ (by omega)

theorem rec_free (b : Bytes) (off : Nat) (hl : len < 2 ^ 16) :
    De.rec (b |> setInode off 0 |> setRecLen off len |> setNameLen off 0 |> setFileType off 0) off =
      ⟨off, len, 0, 0, []⟩ := by
  rw [rec_unnamed]
  simp (disch := omega) only [rec_len, De.inode, setInode, setRecLen, get_put_of_disjoint, get_put]
  rw [mod_eq_of_lt (show len < 256 ^ 2 from hl), zero_mod]

theorem fillFree_tiles (h : Tiles b 0 (pre ++ r :: post) bs) (hn : name.length ≤ 255) (hi : ino < 2 ^ 32)
    (ht : type < 256) (hbs : bs < 2 ^ 16) (hlen : recLen name.length ≤ r.len) (hfree : r.ino = 0) :
    ∃ rs', Adds name ino type (pre ++ r :: post) rs' ∧
      Tiles (fillFree b name r.off (recLen name.length) ino type) 0 rs' bs := by
  obtain ⟨a, hpre, hr, hfit, hpost⟩ := h.split
  have hge := recLen_ge hn
  have hdvd := recLen_dvd hn
  have hle := hpost.le
  have hoff : r.off = a := by rw [hr]; rfl
  have hrl : rec_len b a = r.len := by rw [hr]; rfl
  unfold fillFree
  dsimp only
  rw [hoff, hrl]
  by_cases hrest : 8 ≤ r.len - recLen name.length
  · -- what is left of the free record becomes a record of its own
    refine ⟨_, .fill hfree (by omega), hpre.edit [_, _] hpost ?_ ?_⟩
    · rw [if_pos hrest, hoff]
      refine ⟨?_, ⟨hdvd, hge⟩, ?_, ⟨?_, by simpa using hrest⟩, by show _ + _ = _; dsimp only; omega⟩
      · rw [rec_placed _ _ hn hi ht]
        simp (disch := omega) only [rec_len, setInode, setRecLen, setNameLen, setFileType, get_put_of_disjoint, get_put]
        rw [mod_eq_of_lt (by omega)]
      · rw [rec_congr (b := b |> setRecLen a (recLen name.length) |> setInode (a + recLen name.length) 0
          |> setRecLen (a + recLen name.length) (r.len - recLen name.length)
          |> setNameLen (a + recLen name.length) 0 |> setFileType (a + recLen name.length) 0)
          fun i h1 _ => placed_of_ne _ (.inr (by dsimp only at h1; omega)), rec_free _ _ (by omega)]
      · exact Nat.dvd_sub hfit.1 hdvd
    · intro i hi'
      rw [if_pos hrest, placed_of_ne _ (by omega)]
      simp (disch := omega) only [setInode, setRecLen, setNameLen, setFileType, put_of_ne]
  · refine ⟨_, .take hfree hlen, hpre.edit [_] hpost ?_ ?_⟩
    · rw [if_neg hrest, hoff]
      refine ⟨?_, ⟨hfit.1, by show 8 + name.length ≤ r.len; omega⟩, rfl⟩
      rw [rec_placed _ _ hn hi ht, hrl]
    · intro i hi'
      rw [if_neg hrest, placed_of_ne _ (by omega)]

theorem fillTail_tiles (h : Tiles b 0 (pre ++ [r]) bs) (hn : name.length ≤ 255) (hi : ino < 2 ^ 32)
    (ht : type < 256) (hbs : bs < 2 ^ 16) (hlen : recLen r.name.length + recLen name.length ≤ r.len) :
    ∃ rs', Adds name ino type (pre ++ [r]) rs' ∧
      Tiles (fillTail b name r.off (recLen r.name.length) (r.len - recLen r.name.length) ino type) 0 rs' bs := by
  obtain ⟨a, hpre, hr⟩ := h.split
  have hrn := hr.name_le
  obtain ⟨hr, hfit, hpost⟩ := hr
  have hge := recLen_ge hn
  have hge' := recLen_ge hrn
  have hdvd := recLen_dvd hrn
  have hle := hpost.le
  have hoff : r.off = a := by rw [hr]; rfl
  refine ⟨_, .split hlen, ?_⟩
  rw [← append_nil [_, _]]
  refine hpre.edit [_, _] hpost ?_ ?_
  · unfold fillTail
    rw [hoff]
    refine ⟨?_, ⟨hdvd, hge'⟩, ?_, ⟨Nat.dvd_sub hfit.1 hdvd, by dsimp only; omega⟩, by show _ + _ = _; dsimp only; omega⟩
    · rw [rec_congr (b := setRecLen a (recLen r.name.length) b) fun i h1 h2 => ?_]
      · rw [rec_setRecLen _ _ (by omega), ← hr]
        dsimp only
        rw [hoff]
      · have hnl : name_len (setRecLen a (recLen r.name.length) b) a = r.name.length := by
          rw [hr]
          simp (disch := omega) only [name_len, setRecLen, put_of_ne, De.rec, length_name]
        rw [hnl] at h2
        rw [named_of_ne _ (by omega)]
        simp (disch := omega) only [setInode, setRecLen, put_of_ne]
    · rw [rec_named _ _ hn ht]
      simp (disch := omega) only [rec_len, De.inode, setInode, setRecLen, get_put_of_disjoint, get_put]
      rw [mod_eq_of_lt (show ino < 256 ^ 4 from hi), mod_eq_of_lt (by omega)]
  · intro i hi'
    unfold fillTail
    rw [named_of_ne _ (by omega)]
    simp (disch := omega) only [setInode, setRecLen, put_of_ne]

theorem addScan_eq (b : Bytes) (need fuel : Nat) {lo : Nat} (last : Nat × Nat) (h : Tiles b lo rs bs)
    (hf : bs - lo ≤ fuel) :
    addScan bs b name need ino type fuel lo last.1 last.2 = match rs.find? fun r => r.ino = 0 ∧ need ≤ r.len with
      | some r => .inl (fillFree b name r.off need ino type)
      | none => .inr ((rs.getLast?.map fun r => (r.off, r.len)).getD last) := by
  induction rs generalizing lo fuel last with
  | nil =>
    obtain rfl : lo = bs := h
    cases fuel with
    | zero => rfl
    | succ fuel => rw [addScan, if_pos (by omega)]; rfl
  | cons r rs ih =>
    obtain ⟨hr, hfit, ht⟩ := h
    have hle := ht.le
    have hlen := hfit.2
    have hrl : rec_len b lo = r.len := by rw [hr]; rfl
    have hri : De.inode b lo = r.ino := by rw [hr]; rfl
    have hro : r.off = lo := by rw [hr]; rfl
    cases fuel with
    | zero => omega
    | succ fuel =>
      rw [addScan, if_neg (by omega), if_neg (by omega), hrl, hri]
      by_cases hc : r.ino = 0 ∧ need ≤ r.len
      · rw [if_pos hc, find?_cons_of_pos (by simpa using hc), ← hro]
      · rw [if_neg hc, find?_cons_of_neg (by simpa using hc), ih fuel (lo, r.len) ht (by omega)]
        cases rs with
        | nil => simp [hro]
        | cons r' rs => rw [getLast?_cons_cons, getLast?_eq_some_getLast (cons_ne_nil _ _)]; rfl

theorem addIn_tiles (h : Tiles b 0 rs bs) (hbs : bs < 2 ^ 16) (hn : name.length ≤ 255) (hi : ino < 2 ^ 32)
    (ht : type < 256) {b' : Bytes} (he : addIn bs b name ino type = some b') :
    ∃ rs', Adds name ino type rs rs' ∧ Tiles b' 0 rs' bs := by
  have hscan : addScan bs b name (recLen name.length) ino type bs 0 0 0 = _ :=
    addScan_eq b (recLen name.length) bs (0, 0) h (by omega)
  unfold addIn at he
  dsimp only at he
  rw [hscan] at he
  cases hfind : rs.find? fun r => decide (r.ino = 0 ∧ recLen name.length ≤ r.len) with
  | some r =>
    rw [hfind] at he
    obtain ⟨hr, pre, post, rfl, -⟩ := find?_eq_some_iff_append.1 hfind
    obtain ⟨hfree, hlen⟩ := of_decide_eq_true hr
    obtain rfl := Option.some.inj he
    exact fillFree_tiles h hn hi ht hbs hlen hfree
  | none =>
    rw [hfind] at he
    rcases eq_nil_or_concat rs with rfl | ⟨pre, r, rfl⟩
    · simp at he
    · rw [concat_eq_append] at h he ⊢
      obtain ⟨a, -, hlast⟩ := h.split
      have hrn := hlast.name_le
      obtain ⟨hr, hfit, hend⟩ := hlast
      obtain rfl : a + r.len = bs := hend
      have hle := recLen_le hrn hfit.1 hfit.2
      have hname : name_len b r.off = r.name.length := by rw [hr]; simp [De.rec]
      have hpos := hfit.2
      have htail : u16 (r.len + (2 ^ 16 - recLen r.name.length)) = r.len - recLen r.name.length := by
        have h1 := recLen_ge hrn
        rw [u16]
        omega
      simp only [getLast?_concat, Option.map_some, Option.getD_some] at he
      rw [if_neg (by omega), hname, htail] at he
      split_ifs at he with hneed
      obtain rfl := Option.some.inj he
      exact fillTail_tiles h hn hi ht hbs (by omega)

end Add

section Remove

variable {bs : Nat} {rs pre post : List Rec} {q r : Rec}

theorem removeIn_isSome (fuel off : Nat) :
    (removeIn bs b name fuel off).isSome = (recs bs b fuel off).any (·.isNamed name) := by
  induction fuel generalizing off with
  | zero => rfl
  | succ fuel ih =>
    rw [removeIn, recs]
    by_cases h1 : bs < off + 8
    · simp [h1]
    by_cases h2 : rec_len b off < 8
    · simp [h1, h2]
    rw [if_neg h1, if_neg h2, if_neg h1, if_neg h2, any_cons, isNamed_rec, ← ih]
    cases De.isNamed b off name <;> simp

theorem mergePrev_eq {lo : Nat} (fuel : Nat) (h : Tiles b lo (pre ++ [q]) off) (hf : off - lo ≤ fuel) :
    mergePrev b off fuel lo = setRecLen q.off (q.len + rec_len b off) b := by
  induction pre generalizing lo fuel with
  | nil =>
    obtain ⟨hq, hfit, hend⟩ := h
    have hrl : rec_len b lo = q.len := by rw [hq]; rfl
    have hqo : q.off = lo := by rw [hq]; rfl
    have hend : lo + q.len = off := hend
    have := hfit.2
    cases fuel with
    | zero => omega
    | succ fuel => rw [mergePrev, if_neg (by omega), hrl, if_pos hend, hqo]
  | cons p pre ih =>
    obtain ⟨hp, hfit, ht⟩ := h
    have hrl : rec_len b lo = p.len := by rw [hp]; rfl
    have := hfit.2
    obtain ⟨mid, h1, -, hq, h2⟩ := ht.split
    have hq2 := hq.2
    have h1 := h1.le
    have h2 := Tiles.le h2
    cases fuel with
    | zero => omega
    | succ fuel =>
      rw [mergePrev, if_neg (by omega), hrl, if_neg (by omega)]
      exact ih fuel ht (by omega)

theorem removeIn_eq {lo : Nat} (fuel : Nat) (h : Tiles b lo (pre ++ r :: post) bs) (hf : bs - lo ≤ fuel)
    (hpre : ∀ x ∈ pre, ¬x.isNamed name) (hr : r.isNamed name) :
    removeIn bs b name fuel lo = some (setInode r.off 0 (if r.off = 0 then b else mergePrev b r.off bs 0)) := by
  induction pre generalizing lo fuel with
  | nil =>
    obtain ⟨he, hfit, ht⟩ := h
    have hle := ht.le
    have hlen := hfit.2
    have hrl : rec_len b lo = r.len := by rw [he]; rfl
    have hro : r.off = lo := by rw [he]; rfl
    rw [he, isNamed_rec] at hr
    cases fuel with
    | zero => omega
    | succ fuel => rw [removeIn, if_neg (by omega), if_neg (by omega), if_pos hr, hro]
  | cons p pre ih =>
    obtain ⟨he, hfit, ht⟩ := h
    have hle := ht.le
    have hlen := hfit.2
    have hrl : rec_len b lo = p.len := by rw [he]; rfl
    have hp := hpre p (by simp)
    rw [he, isNamed_rec] at hp
    cases fuel with
    | zero => omega
    | succ fuel =>
      rw [removeIn, if_neg (by omega), if_neg (by omega), if_neg hp, hrl]
      exact ih fuel ht (by omega) fun x hx => hpre x (mem_cons_of_mem _ hx)

theorem setInode_of_ne {i v : Nat} (b : Bytes) (h : i < off ∨ off + 4 ≤ i) : setInode off v b i = b i :=
  put_of_ne _ h

theorem removeIn_tiles (h : Tiles b 0 rs bs) (hbs : bs < 2 ^ 16) {b' : Bytes}
    (he : removeIn bs b name bs 0 = some b') : ∃ rs', Drops name rs rs' ∧ Tiles b' 0 rs' bs := by
  have hany : rs.any (·.isNamed name) := by
    rw [← h.recs_eq bs (by omega), ← removeIn_isSome, he]
    rfl
  obtain ⟨r, hr⟩ := Option.isSome_iff_exists.1 (find?_isSome.2 (any_eq_true.1 hany))
  obtain ⟨hnamed, pre, post, rfl, hpre⟩ := find?_eq_some_iff_append.1 hr
  have hpre : ∀ x ∈ pre, ¬x.isNamed name := by simpa using hpre
  rw [removeIn_eq bs h (by omega) hpre hnamed] at he
  obtain rfl := Option.some.inj he
  obtain ⟨a, ht, hat⟩ := h.split
  have hro := hat.off_eq
  obtain ⟨hrec, hfit, hpost⟩ := hat
  have hlen := hfit.2
  have hle := hpost.le
  rcases eq_nil_or_concat pre with rfl | ⟨pre, q, rfl⟩
  · obtain rfl : 0 = a := ht
    rw [hro, if_pos rfl]
    refine ⟨_, .free hnamed, ?_, hfit, hpost.congr fun i h1 _ => setInode_of_ne _ (.inr (by omega))⟩
    rw [rec_setInode _ _ (by omega), ← hrec]
  · rw [concat_eq_append] at *
    obtain ⟨c, htp, htq⟩ := ht.split
    have hqo := htq.off_eq
    have hq : rec_len b a = r.len := by rw [hrec]; rfl
    have hqn : name_len b c = q.name.length := by rw [htq.1]; simp [De.rec]
    obtain ⟨hqrec, hqfit, hqend⟩ := id htq
    have hqend : c + q.len = a := hqend
    have hqlen := hqfit.2
    rw [hro, if_neg (by omega), mergePrev_eq bs (show Tiles b 0 (pre ++ [q]) a from ht) (by omega), hqo, hq]
    refine ⟨_, by simpa using @Drops.merge name pre post q r (by simpa using hpre) hnamed, ?_⟩
    refine htp.edit [_] hpost ⟨?_, ⟨Nat.dvd_add hqfit.1 hfit.1, ?_⟩, ?_⟩ fun i hi => ?_
    · rw [rec_congr (b := setRecLen c (q.len + r.len) b) fun i h1 h2 => ?_]
      · rw [rec_setRecLen _ _ (by omega), ← hqrec]
      · have hnl : name_len (setRecLen c (q.len + r.len) b) c = q.name.length := by
          rw [← hqn]
          simp (disch := omega) only [name_len, setRecLen, put_of_ne]
        rw [hnl] at h2
        exact setInode_of_ne _ (.inl (by omega))
    · dsimp only
      omega
    · show c + (q.len + r.len) = a + r.len
      omega
    · rw [setInode_of_ne _ (by omega)]
      exact put_of_ne _ (by omega)

end Remove

end Writing

end Ext2
