import Loeux.Lib.Runs
import Loeux.Ext2.Records
import Loeux.Ext2.FileSpec
/-!
# Directories as lists of entries

A directory is the list of the records in use in its blocks, in the order in
which the driver meets them. `ext2_dir_find` takes the first entry with the name,
`ext2_dir_add` inserts an entry somewhere and `ext2_dir_remove` takes out the
first one with the name.
-/
open Lib Bytes Function List Nat Prog

namespace Ext2

open Layout De

/-- An entry of a directory: the block and offset of its record, and what it says. -/
structure Entry where
  blk : Nat
  off : Nat
  ino : Nat
  type : Nat
  name : List UInt8

def Rec.entry (l : Nat) (r : Rec) : Option Entry :=
  if r.ino = 0 then none else some ⟨l, r.off, r.ino, r.type, r.name⟩

def entriesIn (bs l : Nat) (b : Bytes) : List Entry := (recs bs b bs 0).filterMap (Rec.entry l)

/-- The second list is the first with `e` put in. -/
def Inserted (e : Entry) (es es' : List Entry) : Prop := ∃ l₁ l₂, es = l₁ ++ l₂ ∧ es' = l₁ ++ e :: l₂

def Removed (name : List UInt8) (e : Entry) (es es' : List Entry) : Prop :=
  ∃ l₁ l₂, es = l₁ ++ e :: l₂ ∧ es' = l₁ ++ l₂ ∧ e.name = name ∧ ∀ x ∈ l₁, x.name ≠ name

/-! ## One block -/

section Block

variable {name : List UInt8} {ino type l : Nat} {rs rs' : List Rec}

theorem find_entries (name : List UInt8) (l : Nat) (rs : List Rec) :
    ((rs.filterMap (Rec.entry l)).find? (·.name = name)).map Entry.ino = (rs.find? (·.isNamed name)).map Rec.ino := by
  induction rs with
  | nil => rfl
  | cons r rs ih =>
    by_cases h0 : r.ino = 0
    · rw [filterMap_cons_none (by simp [Rec.entry, h0]), find?_cons_of_neg (by simp [Rec.isNamed, h0]), ih]
    · rw [filterMap_cons_some (by rw [Rec.entry, if_neg h0])]
      by_cases hn : r.name = name
      · rw [find?_cons_of_pos (by simpa using hn), find?_cons_of_pos (by simp [Rec.isNamed, h0, hn])]
        rfl
      · rw [find?_cons_of_neg (by simpa using hn), find?_cons_of_neg (by simp [Rec.isNamed, hn]), ih]

theorem entry_of_ne {r : Rec} (h : r.ino ≠ 0) : r.entry l = some ⟨l, r.off, r.ino, r.type, r.name⟩ := if_neg h

theorem entry_of_free {r : Rec} (h : r.ino = 0) : r.entry l = none := if_pos h

theorem Adds.entries (h : Adds name ino type rs rs') (hino : ino ≠ 0) (l : Nat) :
    ∃ off, Inserted ⟨l, off, ino, type, name⟩ (rs.filterMap (Rec.entry l)) (rs'.filterMap (Rec.entry l)) := by
  cases h with
  | @fill pre post r hfree _ | @take pre post r hfree _ =>
    refine ⟨r.off, pre.filterMap (Rec.entry l), post.filterMap (Rec.entry l), ?_, ?_⟩
    · simp [entry_of_free hfree]
    · simp [Rec.entry, hino]
  | @split pre r _ =>
    refine ⟨r.off + recLen r.name.length, (pre ++ [r]).filterMap (Rec.entry l), [], by simp, ?_⟩
    rw [filterMap_append, filterMap_append, append_assoc]
    congr 1
    by_cases h0 : r.ino = 0 <;> simp [Rec.entry, h0, hino]

theorem Drops.entries (h : Drops name rs rs') (l : Nat) :
    ∃ e, Removed name e (rs.filterMap (Rec.entry l)) (rs'.filterMap (Rec.entry l)) := by
  cases h with
  | @free post r hr =>
    obtain ⟨h0, hn⟩ : r.ino ≠ 0 ∧ r.name = name := by simpa [Rec.isNamed] using hr
    refine ⟨⟨l, r.off, r.ino, r.type, r.name⟩, [], post.filterMap (Rec.entry l), ?_, ?_, hn, by simp⟩
    · rw [filterMap_cons_some (entry_of_ne h0)]
      rfl
    · rw [filterMap_cons_none (entry_of_free rfl)]
      rfl
  | @merge pre post q r hpre hr =>
    obtain ⟨h0, hn⟩ : r.ino ≠ 0 ∧ r.name = name := by simpa [Rec.isNamed] using hr
    refine ⟨⟨l, r.off, r.ino, r.type, r.name⟩, (pre ++ [q]).filterMap (Rec.entry l), post.filterMap (Rec.entry l),
      ?_, ?_, hn, ?_⟩
    · rw [← filterMap_cons_some (entry_of_ne h0), ← filterMap_append]
      simp
    · rw [← filterMap_append]
      simp only [filterMap_append, filterMap_cons, append_assoc, filterMap_nil]
      congr 1
      by_cases hq : q.ino = 0 <;> simp [Rec.entry, hq]
    · intro x hx
      obtain ⟨y, hy, he⟩ := mem_filterMap.1 hx
      by_cases hy0 : y.ino = 0
      · rw [entry_of_free hy0] at he
        cases he
      · rw [entry_of_ne hy0] at he
        obtain rfl := Option.some.inj he
        intro e
        exact hpre y hy (by simpa [Rec.isNamed, hy0] using e)

theorem entriesIn_zero (bs l : Nat) : entriesIn bs l Bytes.zero = [] := by
  have : recs bs Bytes.zero bs 0 = [] := by
    cases bs <;> simp [recs, rec_len, get_zero]
  rw [entriesIn, this]
  rfl

theorem Tiles.entriesIn_eq {bs : Nat} {b : Bytes} (h : Tiles b 0 rs bs) (l : Nat) :
    entriesIn bs l b = rs.filterMap (Rec.entry l) := by rw [entriesIn, h.recs_eq bs (by omega)]

theorem freshBlock_tiles {bs : Nat} (hbs : bs < 2 ^ 16) (hd : 4 ∣ bs) (hn : name.length ≤ 255)
    (hl : 8 + name.length ≤ bs) (hi : ino < 2 ^ 32) (ht : type < 256) :
    Tiles (freshBlock bs name ino type) 0 [⟨0, bs, ino, type, name⟩] bs := by
  refine ⟨?_, ⟨hd, hl⟩, Nat.zero_add _⟩
  rw [freshBlock, rec_named _ _ hn ht]
  simp (disch := omega) only [rec_len, De.inode, setInode, setRecLen, get_put_of_disjoint, get_put]
  rw [mod_eq_of_lt (show ino < 256 ^ 4 from hi), mod_eq_of_lt (show bs < 256 ^ 2 from hbs)]

end Block

/-! ## All blocks -/

theorem flatMap_range_edit {α : Type} (f f' : Nat → List α) {j m : Nat} (hj : j < m)
    (hf : ∀ i, i < m → i ≠ j → f' i = f i) :
    ∃ l₁ l₂, (List.range m).flatMap f = l₁ ++ (f j ++ l₂) ∧ (List.range m).flatMap f' = l₁ ++ (f' j ++ l₂) ∧
      ∀ x ∈ l₁, ∃ i, i < j ∧ x ∈ f i := by
  induction m with
  | zero => omega
  | succ m ih =>
    simp only [range_succ, flatMap_append, flatMap_singleton]
    by_cases e : j = m
    · subst e
      have hcongr : (List.range j).flatMap f' = (List.range j).flatMap f :=
        flatMap_congr fun i hi => hf i (by have := mem_range.1 hi; omega) (by have := mem_range.1 hi; omega)
      refine ⟨(List.range j).flatMap f, [], by simp, by simp [hcongr], fun x hx => ?_⟩
      obtain ⟨i, hi, hx⟩ := mem_flatMap.1 hx
      exact ⟨i, mem_range.1 hi, hx⟩
    · obtain ⟨l₁, l₂, h1, h2, h3⟩ := ih (by omega) fun i hi => hf i (by omega)
      refine ⟨l₁, l₂ ++ f m, by rw [h1]; simp, by rw [h2, hf m (by omega) (by omega)]; simp, h3⟩

namespace Layout

variable (L : Layout)

def entries (ib : Nat → Nat → Nat) (v : Vol) (n m : Nat) : List Entry :=
  (List.range m).flatMap fun l => entriesIn L.fs.block_size l (L.blk ib v n l)

/-- The records of each of the blocks, as far as they are there, tile it. -/
def WellFormed (ib : Nat → Nat → Nat) (v : Vol) (n m : Nat) : Prop :=
  ∀ l, l < m → ptr ib v.data (L.slotOf n l) ≠ 0 → ∃ rs, Tiles (L.blk ib v n l) 0 rs L.fs.block_size

end Layout

section Dirs

variable {L : Layout} {live : Nat → Prop} {n r m : Nat} {ib : Nat → Nat → Nat} {s s' : St} {name : List UInt8}
  {ino type : Nat}

theorem Inserted.append {e : Entry} {es es' : List Entry} (h : Inserted e es es') (l₁ l₂ : List Entry) :
    Inserted e (l₁ ++ (es ++ l₂)) (l₁ ++ (es' ++ l₂)) := by
  obtain ⟨k1, k2, rfl, rfl⟩ := h
  exact ⟨l₁ ++ k1, k2 ++ l₂, by simp, by simp⟩

theorem Removed.append {e : Entry} {es es' : List Entry} (h : Removed name e es es') {l₁ : List Entry}
    (hl₁ : ∀ x ∈ l₁, x.name ≠ name) (l₂ : List Entry) :
    Removed name e (l₁ ++ (es ++ l₂)) (l₁ ++ (es' ++ l₂)) := by
  obtain ⟨k1, k2, rfl, rfl, he, hk⟩ := h
  refine ⟨l₁ ++ k1, k2 ++ l₂, by simp, by simp, he, fun x hx => ?_⟩
  rcases mem_append.1 hx with hx | hx
  · exact hl₁ x hx
  · exact hk x hx

theorem dirFind_entries (h : DataPtrs L n ib (L.vol s).data) (hr : (s.inodes r).priv.i_block = ib n)
    (name : List UInt8) :
    wp (world False) (dirFind L.fs r name)
      (fun a s' => s' = s ∧ a = ((L.entries ib (L.vol s) n (L.dirBlocks (s.inodes r).priv.i_size)).find?
        (·.name = name)).map Entry.ino) s := by
  refine wp_weaken (dirFind_run h hr name) ?_
  rintro a s' ⟨rfl, rfl⟩
  refine ⟨rfl, ?_⟩
  rw [Layout.entries, find?_flatMap, map_findSome?]
  congr 1
  funext j
  rw [findIn_eq, Function.comp, entriesIn, find_entries]

theorem Layout.Changed.edit {g : Bytes → Option Bytes} (hown : Owns L live ib (L.vol s)) (hn : live n)
    (h : L.Changed False ib n g 0 m s s') :
    ∃ j d, j < min m L.maxBlocks ∧ g (L.blk ib (L.vol s) n j) = some d ∧
      (∀ i, i < j → g (L.blk ib (L.vol s) n i) = none) ∧ ptr ib (L.vol s).data (L.slotOf n j) ≠ 0 ∧
      (∀ i, i < L.maxBlocks → L.blk ib (L.vol s') n i = if i = j then d else L.blk ib (L.vol s) n i) ∧
      (∀ i, i < L.maxBlocks → ptr ib (L.vol s').data (L.slotOf n i) = ptr ib (L.vol s).data (L.slotOf n i)) ∧
      s'.inodes = s.inodes := by
  obtain ⟨j, d, -, h2, hj, hg, hb, h0, rfl⟩ := h
  have hslot := L.isSlot_slotOf hn hj
  refine ⟨j, d, by omega, hg, fun i hi => hb id i (by omega) (by omega), h0, fun i hi => ?_, fun i hi => ?_, rfl⟩
  · rw [vol_write_data (hown.data _ hslot h0).2, hown.blk_write hn hj h0 d hi]
  · rw [vol_write_data (hown.data _ hslot h0).2]
    exact hown.ptr_write hslot (L.leaf_slotOf n j) h0 d (L.isSlot_slotOf hn hi)

theorem Layout.Put.edit {l size : Nat} {d : Bytes} {ib' : Nat → Nat → Nat} (hn : live n)
    (h : L.Put live n r ib s l d size ib' s') :
    l < L.maxBlocks ∧ (∀ i, i < L.maxBlocks → L.blk ib' (L.vol s') n i = if i = l then d else L.blk ib (L.vol s) n i) ∧
      (∀ i, i < L.maxBlocks → i ≠ l → ptr ib' (L.vol s').data (L.slotOf n i) = ptr ib (L.vol s).data (L.slotOf n i)) ∧
      s'.inodes = Function.update s.inodes r (((s.inodes r).setBlocks (ib' n)).setSize size) := by
  obtain ⟨s1, hext, hl, h0, rfl⟩ := h
  have hslot := L.isSlot_slotOf hn hl
  have hown := hext.grown.owns
  have hvol : L.vol ((s1.write (ptr ib' (L.vol s1).data (L.slotOf n l)) d).modify r fun i => i.setSize size) =
      L.vol (s1.write (ptr ib' (L.vol s1).data (L.slotOf n l)) d) := rfl
  refine ⟨hl, fun i hi => ?_, fun i hi hne => ?_, ?_⟩
  · rw [hvol, vol_write_data (hown.data _ hslot h0).2, hown.blk_write hn hl h0 d hi]
    by_cases e : i = l
    · rw [if_pos e, if_pos e]
    · rw [if_neg e, if_neg e]
      exact hext.grown.leaf _ (L.isSlot_slotOf hn hi) (L.leaf_slotOf n i)
  · rw [hvol, vol_write_data (hown.data _ hslot h0).2]
    refine (hown.ptr_write hslot (L.leaf_slotOf n l) h0 d (L.isSlot_slotOf hn hi)).trans ?_
    exact hext.grown.fills _ (L.isSlot_slotOf hn hi) fun h => hne (slotOf_inj (h (L.leaf_slotOf n i))).2
  · show Function.update s1.inodes r _ = _
    have e : (s1.write (ptr ib' (L.vol s1).data (L.slotOf n l)) d).inodes = s1.inodes := rfl
    rw [e, hext.inodes, update_idem, update_self]

theorem entriesIn_blk {l : Nat} (h : ptr ib (L.vol s).data (L.slotOf n l) = 0) :
    entriesIn L.fs.block_size l (L.blk ib (L.vol s) n l) = [] := by
  rw [Layout.blk, block, if_pos h, entriesIn_zero]

theorem Layout.block_size_lt : L.fs.block_size < 2 ^ 16 := by have := L.block_size_le; omega

theorem Layout.Changed.added {i_size : Nat} (hown : Owns L live ib (L.vol s)) (hn : live n)
    (hwf : L.WellFormed ib (L.vol s) n (L.dirBlocks i_size)) (hname : name.length ≤ 255) (hino : 0 < ino)
    (hi : ino < 2 ^ 32) (ht : type < 256)
    (h : L.Changed False ib n (addIn L.fs.block_size · name ino type) 0 (blocksOf L.fs i_size) s s') :
    L.WellFormed ib (L.vol s') n (L.dirBlocks i_size) ∧
      ∃ l off, Inserted ⟨l, off, ino, type, name⟩ (L.entries ib (L.vol s) n (L.dirBlocks i_size))
        (L.entries ib (L.vol s') n (L.dirBlocks i_size)) := by
  obtain ⟨j, d, hj, hadd, -, h0, hblk, hptr, -⟩ := h.edit hown hn
  have hj' : j < L.maxBlocks := lt_of_lt_of_le hj (Nat.min_le_right _ _)
  obtain ⟨rs, hrs⟩ := hwf j hj h0
  obtain ⟨rs', hadds, hrs'⟩ := addIn_tiles hrs block_size_lt hname hi ht hadd
  have hbj : L.blk ib (L.vol s') n j = d := by rw [hblk j hj', if_pos rfl]
  constructor
  · intro i hm h0'
    have hm' : i < L.maxBlocks := lt_of_lt_of_le hm (Nat.min_le_right _ _)
    rw [hptr i hm'] at h0'
    rw [hblk i hm']
    by_cases e : i = j
    · rw [if_pos e]
      exact ⟨rs', hrs'⟩
    · rw [if_neg e]
      exact hwf i hm h0'
  · obtain ⟨off, hins⟩ := hadds.entries (Nat.pos_iff_ne_zero.1 hino) j
    obtain ⟨l1, l2, h1, h2, -⟩ := flatMap_range_edit (fun l => entriesIn L.fs.block_size l (L.blk ib (L.vol s) n l))
      (fun l => entriesIn L.fs.block_size l (L.blk ib (L.vol s') n l)) hj fun i hi hne => by
        rw [hblk i (lt_of_lt_of_le hi (Nat.min_le_right _ _)), if_neg hne]
    refine ⟨j, off, ?_⟩
    rw [Layout.entries, Layout.entries, Layout.dirBlocks, h1, h2, hbj, hrs.entriesIn_eq, hrs'.entriesIn_eq]
    exact hins.append l1 l2

theorem Layout.Put.added {i_size : Nat} {ib' : Nat → Nat → Nat} (hn : live n)
    (hwf : L.WellFormed ib (L.vol s) n (L.dirBlocks i_size)) (hname : name.length ≤ 255) (hino : 0 < ino)
    (hi : ino < 2 ^ 32) (ht : type < 256) (hsize : (blocksOf L.fs i_size + 1) * L.fs.block_size < 2 ^ 32)
    (h : L.Put live n r ib s (blocksOf L.fs i_size) (freshBlock L.fs.block_size name ino type)
      (u32 ((blocksOf L.fs i_size + 1) * L.fs.block_size)) ib' s') :
    L.WellFormed ib' (L.vol s') n (L.dirBlocks (s'.inodes r).priv.i_size) ∧
      ∃ l off, Inserted ⟨l, off, ino, type, name⟩ (L.entries ib (L.vol s) n (L.dirBlocks i_size))
        (L.entries ib' (L.vol s') n (L.dirBlocks (s'.inodes r).priv.i_size)) := by
  obtain ⟨hl, hblk, hptr, hinodes⟩ := h.edit hn
  have hpos := L.block_size_pos
  have hold : L.dirBlocks i_size = blocksOf L.fs i_size := Nat.min_eq_left hl.le
  have hnew : L.dirBlocks (s'.inodes r).priv.i_size = blocksOf L.fs i_size + 1 := by
    have hsz : (s'.inodes r).priv.i_size = (blocksOf L.fs i_size + 1) * L.fs.block_size := by
      rw [hinodes, update_self]
      exact mod_eq_of_lt hsize
    have hb : blocksOf L.fs ((blocksOf L.fs i_size + 1) * L.fs.block_size) = blocksOf L.fs i_size + 1 := by
      generalize blocksOf L.fs i_size + 1 = k at hsize
      have hk : k * L.fs.block_size + L.fs.block_size - 1 < 2 ^ 32 := by
        rcases L.block_size_cases with e | e | e <;> rw [e] at hsize ⊢ <;> omega
      rw [blocksOf, u32, mod_eq_of_lt hk, Nat.add_sub_assoc hpos, Nat.add_comm, add_mul_div_right _ _ hpos,
        div_eq_of_lt (by omega), Nat.zero_add]
    rw [hsz, Layout.dirBlocks, hb]
    exact Nat.min_eq_left hl
  have htile : Tiles (L.blk ib' (L.vol s') n (blocksOf L.fs i_size)) 0
      [⟨0, L.fs.block_size, ino, type, name⟩] L.fs.block_size := by
    rw [hblk _ hl, if_pos rfl]
    refine freshBlock_tiles block_size_lt ?_ hname ?_ hi ht
    · rcases L.block_size_cases with e | e | e <;> rw [e] <;> decide
    · rcases L.block_size_cases with e | e | e <;> omega
  rw [hnew, hold]
  constructor
  · intro i hm h0'
    by_cases e : i = blocksOf L.fs i_size
    · rw [e]
      exact ⟨_, htile⟩
    · rw [hptr i (by omega) e] at h0'
      rw [hblk i (by omega), if_neg e]
      exact hwf i (by omega) h0'
  · refine ⟨blocksOf L.fs i_size, 0, L.entries ib (L.vol s) n (blocksOf L.fs i_size), [], by simp, ?_⟩
    rw [Layout.entries, range_succ, flatMap_append, flatMap_singleton, htile.entriesIn_eq]
    congr 1
    · refine flatMap_congr fun i hi => ?_
      have := mem_range.1 hi
      rw [hblk i (by omega), if_neg (by omega)]
    · simp [Rec.entry, Nat.pos_iff_ne_zero.1 hino]

theorem dirAdd_entries (hv : L.Valid s) (hown : Owns L live ib (L.vol s)) (hn : live n)
    (hr : (s.inodes r).priv.i_block = ib n)
    (hwf : L.WellFormed ib (L.vol s) n (L.dirBlocks (s.inodes r).priv.i_size)) (hname : name.length ≤ 255)
    (hino : 0 < ino) (hi : ino < 2 ^ 32) (ht : type < 256)
    (hsize : (blocksOf L.fs (s.inodes r).priv.i_size + 1) * L.fs.block_size < 2 ^ 32) :
    wp (world False) (dirAdd L.fs r name ino type) (fun a s' => a = true → ∃ ib', L.Touches live n r ib s ib' s' ∧
        L.WellFormed ib' (L.vol s') n (L.dirBlocks (s'.inodes r).priv.i_size) ∧
        ∃ l off, Inserted ⟨l, off, ino, type, name⟩ (L.entries ib (L.vol s) n (L.dirBlocks (s.inodes r).priv.i_size))
          (L.entries ib' (L.vol s') n (L.dirBlocks (s'.inodes r).priv.i_size))) s := by
  refine wp_weaken (dirAdd_spec hv hown hn hr name ino type) ?_
  rintro a s' (⟨rfl, -⟩ | ⟨-, hch⟩ | ⟨-, -, ib', hput⟩) ha
  · cases ha
  · refine ⟨ib, hch.touches hv hown hn hr, ?_⟩
    have hsame : s'.inodes = s.inodes := by
      obtain ⟨_, _, -, -, -, -, -, -, h⟩ := hch.edit hown hn
      exact h
    rw [hsame]
    exact hch.added hown hn hwf hname hino hi ht
  · exact ⟨ib', hput.touches hn, hput.added hn hwf hname hino hi ht hsize⟩

theorem ne_of_removeIn_none {bs l : Nat} {b : Bytes} (h : removeIn bs b name bs 0 = none) :
    ∀ x ∈ entriesIn bs l b, x.name ≠ name := by
  intro x hx hxn
  obtain ⟨q, hq, he⟩ := mem_filterMap.1 hx
  have hnone : (recs bs b bs 0).any (·.isNamed name) = false := by
    rw [← removeIn_isSome, h]
    rfl
  have hq0 : q.ino ≠ 0 := fun h0 => by rw [entry_of_free h0] at he; cases he
  rw [entry_of_ne hq0] at he
  obtain rfl := Option.some.inj he
  exact any_eq_false.1 hnone q hq (by simpa [Rec.isNamed, hq0] using hxn)

theorem dirRemove_entries (hv : L.Valid s) (hown : Owns L live ib (L.vol s)) (hn : live n)
    (hr : (s.inodes r).priv.i_block = ib n)
    (hwf : L.WellFormed ib (L.vol s) n (L.dirBlocks (s.inodes r).priv.i_size)) (name : List UInt8) :
    wp (world False) (dirRemove L.fs r name) (fun a s' =>
        (a = false → ∀ x ∈ L.entries ib (L.vol s) n (L.dirBlocks (s.inodes r).priv.i_size), x.name ≠ name) ∧
        (a = true → L.Touches live n r ib s ib s' ∧ s'.inodes = s.inodes ∧
          L.WellFormed ib (L.vol s') n (L.dirBlocks (s.inodes r).priv.i_size) ∧
          ∃ e, Removed name e (L.entries ib (L.vol s) n (L.dirBlocks (s.inodes r).priv.i_size))
            (L.entries ib (L.vol s') n (L.dirBlocks (s.inodes r).priv.i_size)))) s := by
  refine wp_weaken (dirRemove_run (hown.dataPtrs hn) hr name) ?_
  rintro a s' (⟨rfl, -, hno⟩ | ⟨rfl, hch⟩)
  · refine ⟨fun _ x hx => ?_, fun h => by cases h⟩
    obtain ⟨l, hl, hx⟩ := mem_flatMap.1 hx
    exact ne_of_removeIn_none (hno l (Nat.zero_le _) (by simpa using mem_range.1 hl)) x hx
  refine ⟨fun h => (by cases h), fun _ => ?_⟩
  obtain ⟨j, d, hj, hrem, hno, h0, hblk, hptr, hinodes⟩ := hch.edit hown hn
  have hj' : j < L.maxBlocks := lt_of_lt_of_le hj (Nat.min_le_right _ _)
  obtain ⟨rs, hrs⟩ := hwf j hj h0
  obtain ⟨rs', hdrops, hrs'⟩ := removeIn_tiles hrs block_size_lt hrem
  have hbj : L.blk ib (L.vol s') n j = d := by rw [hblk j hj', if_pos rfl]
  refine ⟨hch.touches hv hown hn hr, hinodes, fun i hm h0' => ?_, ?_⟩
  · have hm' : i < L.maxBlocks := lt_of_lt_of_le hm (Nat.min_le_right _ _)
    rw [hptr i hm'] at h0'
    rw [hblk i hm']
    by_cases e : i = j
    · rw [if_pos e]
      exact ⟨rs', hrs'⟩
    · rw [if_neg e]
      exact hwf i hm h0'
  · obtain ⟨e, hrmd⟩ := hdrops.entries j
    obtain ⟨l1, l2, h1, h2, h3⟩ := flatMap_range_edit (fun l => entriesIn L.fs.block_size l (L.blk ib (L.vol s) n l))
      (fun l => entriesIn L.fs.block_size l (L.blk ib (L.vol s') n l)) hj fun i hi hne => by
        rw [hblk i (lt_of_lt_of_le hi (Nat.min_le_right _ _)), if_neg hne]
    refine ⟨e, ?_⟩
    rw [Layout.entries, Layout.entries, Layout.dirBlocks, h1, h2, hbj, hrs.entriesIn_eq, hrs'.entriesIn_eq]
    refine hrmd.append (fun x hx => ?_) l2
    obtain ⟨i, hi, hx⟩ := h3 x hx
    exact ne_of_removeIn_none (hno i hi) x hx

/-- An entry that every directory has. -/
def Entry.IsDot (e : Entry) : Prop := e.name = [46] ∨ e.name = [46, 46]

theorem occupiedIn_iff (bs l : Nat) (b : Bytes) : occupiedIn bs b bs 0 = false ↔ ∀ e ∈ entriesIn bs l b, e.IsDot := by
  rw [occupiedIn_eq, any_eq_false]
  constructor
  · intro h e he
    obtain ⟨q, hq, he⟩ := mem_filterMap.1 he
    have hq0 : q.ino ≠ 0 := fun h0 => by rw [entry_of_free h0] at he; cases he
    rw [entry_of_ne hq0] at he
    obtain rfl := Option.some.inj he
    have := h q hq
    simp only [Rec.isOther, Bool.and_eq_true, bne_iff_ne, ne_eq, hq0, not_false_eq_true, true_and, not_and,
      not_not] at this
    exact or_iff_not_imp_left.2 this
  · intro h q hq hoth
    simp only [Rec.isOther, Bool.and_eq_true, bne_iff_ne, ne_eq] at hoth
    have := h _ (mem_filterMap.2 ⟨q, hq, entry_of_ne hoth.1.1⟩)
    exact this.elim hoth.1.2 hoth.2

theorem dirEmpty_entries (h : DataPtrs L n ib (L.vol s).data) (hr : (s.inodes r).priv.i_block = ib n) :
    wp (world False) (dirEmpty L.fs r)
      (fun a s' => s' = s ∧ (a = some true ↔ blocksOf L.fs (s.inodes r).priv.i_size ≤ L.maxBlocks ∧
        ∀ e ∈ L.entries ib (L.vol s) n (L.dirBlocks (s.inodes r).priv.i_size), e.IsDot)) s := by
  refine wp_weaken (dirEmpty_run h hr) ?_
  rintro a s' ⟨rfl, hiff⟩
  refine ⟨rfl, hiff.trans (and_congr_right fun _ => ⟨fun hocc e he => ?_, fun hdot j hj => ?_⟩)⟩
  · obtain ⟨l, hl, he⟩ := mem_flatMap.1 he
    exact (occupiedIn_iff _ l _).1 (hocc l (mem_range.1 hl)) e he
  · exact (occupiedIn_iff _ j _).2 fun e he => hdot e (mem_flatMap.2 ⟨j, mem_range.2 hj, he⟩)

end Dirs

/-! ## Runs -/

def Layout.listing (L : Layout) (s : St) (r : Nat) : List Entry :=
  L.entries (fun _ => (s.inodes r).priv.i_block) (L.vol s) (s.inodes r).priv.ino
    (L.dirBlocks (s.inodes r).priv.i_size)

/-- `r` is the object of a directory with well formed blocks on a consistent
volume. The pointers in the object may be ahead of those on the disk. -/
def Layout.IsDir (L : Layout) (live : Nat → Prop) (r : Nat) (s : St) : Prop :=
  ∃ ib, L.Valid s ∧ Owns L live ib (L.vol s) ∧ live (s.inodes r).priv.ino ∧
    (s.inodes r).priv.i_block = ib (s.inodes r).priv.ino ∧
    L.WellFormed ib (L.vol s) (s.inodes r).priv.ino (L.dirBlocks (s.inodes r).priv.i_size)

inductive DirCall where
  | add (name : List UInt8) (ino type : Nat)
  | remove (name : List UInt8)

/-- The inode numbers and types under each name, the one added last first. -/
abbrev NameMap := List UInt8 → List (Nat × Nat)

def nameMap (es : List Entry) : NameMap := fun name =>
  (es.filter (·.name = name)).map fun e => (e.ino, e.type)

namespace DirCall

/-- A call that succeeds. -/
def Does (fs : Fs) (r : Nat) (s : St) : DirCall → St → Prop
  | add name ino type, s' => (dirAdd fs r name ino type).run serve s = (true, s')
  | remove name, s' => (dirRemove fs r name).run serve s = (true, s')

/-- What a call means. -/
def apply (m : NameMap) : DirCall → NameMap
  | add name ino type => Function.update m name ((ino, type) :: m name)
  | remove name => Function.update m name (m name).tail

/-- New names have at most 255 bytes, are not there yet and stand for an inode;
and the size of the directory stays below 4 GiB. -/
def Fits (L : Layout) (r : Nat) (s : St) : DirCall → Prop
  | add name ino type => name.length ≤ 255 ∧ (∀ e ∈ L.listing s r, e.name ≠ name) ∧ 0 < ino ∧ ino < 2 ^ 32 ∧
      type < 256 ∧ (blocksOf L.fs (s.inodes r).priv.i_size + 1) * L.fs.block_size < 2 ^ 32
  | remove _ => True

end DirCall

section Runs

variable {L : Layout} {live : Nat → Prop} {r : Nat} {s s' : St}

theorem Layout.blk_of_eq {ib ib' : Nat → Nat → Nat} {n : Nat} (h : ib' n = ib n) (v : Vol) (l : Nat) :
    L.blk ib' v n l = L.blk ib v n l := by
  have hp : ptr ib' v.data (L.slotOf n l) = ptr ib v.data (L.slotOf n l) := by
    show Forest.follow _ (ib' (L.slotOf n l).1.1 _) _ = Forest.follow _ (ib (L.slotOf n l).1.1 _) _
    rw [L.slotOf_ino, h]
  rw [Layout.blk, Layout.blk, block, block, hp]

theorem nameMap_inserted {e : Entry} {es es' : List Entry} (h : Inserted e es es') (hne : ∀ x ∈ es, x.name ≠ e.name) :
    nameMap es' = DirCall.apply (nameMap es) (.add e.name e.ino e.type) := by
  obtain ⟨l1, l2, rfl, rfl⟩ := h
  funext name
  by_cases hn : name = e.name
  · subst hn
    have h1 : l1.filter (fun x => decide (x.name = e.name)) = [] :=
      filter_eq_nil_iff.2 fun x hx => by simpa using hne x (by simp [hx])
    have h2 : l2.filter (fun x => decide (x.name = e.name)) = [] :=
      filter_eq_nil_iff.2 fun x hx => by simpa using hne x (by simp [hx])
    simp [nameMap, DirCall.apply, h1, h2]
  · rw [DirCall.apply, update_of_ne hn]
    simp [nameMap, Ne.symm hn]

theorem nameMap_removed {name : List UInt8} {e : Entry} {es es' : List Entry} (h : Removed name e es es') :
    nameMap es' = DirCall.apply (nameMap es) (.remove name) := by
  obtain ⟨l1, l2, rfl, rfl, he, hl1⟩ := h
  funext name'
  by_cases hn : name' = name
  · subst hn
    have h1 : l1.filter (fun x => decide (x.name = name')) = [] :=
      filter_eq_nil_iff.2 fun x hx => by simpa using hl1 x hx
    simp [nameMap, DirCall.apply, h1, he]
  · rw [DirCall.apply, update_of_ne hn]
    have : ¬e.name = name' := fun h => hn (h.symm.trans he)
    simp [nameMap, this]

theorem Layout.listing_eq {ib : Nat → Nat → Nat} (h : (s.inodes r).priv.i_block = ib (s.inodes r).priv.ino) :
    L.listing s r = L.entries ib (L.vol s) (s.inodes r).priv.ino (L.dirBlocks (s.inodes r).priv.i_size) :=
  flatMap_congr fun l _ => by rw [blk_of_eq (by exact h)]

theorem DirCall.Does.step {c : DirCall} (h : L.IsDir live r s) (hf : c.Fits L r s) (hdo : c.Does L.fs r s s') :
    L.IsDir live r s' ∧ nameMap (L.listing s' r) = c.apply (nameMap (L.listing s r)) := by
  obtain ⟨ib, hv, hown, hn, hr, hwf⟩ := h
  cases c with
  | add name ino type =>
    obtain ⟨hname, hnew, hino, hi, ht, hsize⟩ := hf
    obtain ⟨ib', htouch, hwf', l, off, hins⟩ :=
      run_of_wp (dirAdd_entries hv hown hn hr hwf hname hino hi ht hsize) hdo rfl
    rw [← htouch.ino] at hn hwf'
    have hr' : (s'.inodes r).priv.i_block = ib' (s'.inodes r).priv.ino := by rw [htouch.i_block, htouch.ino]
    refine ⟨⟨ib', htouch.valid, htouch.touched.owns, hn, hr', hwf'⟩, ?_⟩
    rw [listing_eq hr] at hnew ⊢
    rw [listing_eq hr', htouch.ino]
    exact nameMap_inserted hins hnew
  | remove name =>
    obtain ⟨htouch, hinodes, hwf', e, hrem⟩ := (run_of_wp (dirRemove_entries hv hown hn hr hwf name) hdo).2 rfl
    have hr' : (s'.inodes r).priv.i_block = ib (s'.inodes r).priv.ino := by rw [htouch.i_block, htouch.ino]
    refine ⟨⟨ib, htouch.valid, htouch.touched.owns, by rw [hinodes]; exact hn, hr', by rw [hinodes]; exact hwf'⟩, ?_⟩
    rw [listing_eq hr, listing_eq hr', hinodes]
    exact nameMap_removed hrem

theorem Layout.IsDir.find (h : L.IsDir live r s) (name : List UInt8) :
    (dirFind L.fs r name).run serve s = ((nameMap (L.listing s r) name).head?.map Prod.fst, s) := by
  obtain ⟨ib, -, hown, hn, hr, -⟩ := h
  obtain ⟨h1, h2⟩ := (wp_world_false _ _ _).1 (dirFind_entries (hown.dataPtrs hn) hr name)
  refine Prod.ext ?_ h1
  rw [h2, listing_eq hr, nameMap, head?_map, head?_filter, Option.map_map]
  rfl

/-- A directory is a finite map from names to inode numbers: in every run of additions and removals that succeed the
blocks stay well formed, and `ext2_dir_find` returns what was added last and not removed. -/
theorem dir_run_map {cs : List DirCall} (h : L.IsDir live r s)
    (hrun : Run (Guarded (DirCall.Fits L r) (DirCall.Does L.fs r)) s cs s') :
    L.IsDir live r s' ∧ nameMap (L.listing s' r) = cs.foldl DirCall.apply (nameMap (L.listing s r)) ∧
      ∀ name, (dirFind L.fs r name).run serve s' =
        ((cs.foldl DirCall.apply (nameMap (L.listing s r)) name).head?.map Prod.fst, s') := by
  obtain ⟨h1, h2⟩ := hrun.simulate DirCall.apply (fun s m => L.IsDir live r s ∧ nameMap (L.listing s r) = m)
    (fun s m c s' hR hf hdo => by
      obtain ⟨h1, rfl⟩ := hR
      exact hdo.step h1 hf) ⟨h, rfl⟩
  exact ⟨h1, h2, fun name => by rw [h1.find, h2]⟩

end Runs

/-! ## A small volume -/

namespace Sample

def fs : Fs where
  block_size := 1024
  inodes_per_group := 16
  blocks_per_group := 64
  inode_size := 128
  num_groups := 1
  inodes_count := 16
  blocks_count := 32
  first_data_block := 1
  ptrs_per_block := 256

def role (b : Nat) : Role :=
  match b with
  | 1 => .superblock
  | 2 => .groupDesc 0
  | 3 => .blockBitmap 0
  | 4 => .inodeBitmap 0
  | 5 => .inodeTable 0 0
  | 6 => .inodeTable 0 1
  | b => if b ≤ 1 then .other else .data

/-- The two free counts of the superblock. -/
def superblock : Bytes := Bytes.zero |>.put 4 12 21 |>.put 4 16 5

def layout : Layout where
  fs := fs
  block_bitmap _ := 3
  inode_bitmap _ := 4
  inode_table _ := 5
  super := superblock
  used_dirs _ := 1
  role := role
  block_size_cases := .inl rfl
  ptrs_eq := rfl
  first_le := by decide
  blocks_le := by decide
  blocks_lt := by decide
  bpg_pos := by decide
  bpg_le := by decide
  ipg_pos := by decide
  ipg_le := by decide
  inodes_eq := rfl
  inodes_lt := by decide
  inode_size_ge := by decide
  inode_size_dvd := by decide
  role_zero := by decide
  role_super := rfl
  role_bg g hg := by
    have : g = 0 := Nat.lt_one_iff.1 hg
    subst this
    rfl
  role_block_bitmap g hg := by
    have : g = 0 := Nat.lt_one_iff.1 hg
    subst this
    rfl
  role_inode_bitmap g hg := by
    have : g = 0 := Nat.lt_one_iff.1 hg
    subst this
    rfl
  role_inode_table g k hg hk := by
    have : g = 0 := Nat.lt_one_iff.1 hg
    subst this
    have hk : k * 1024 < 16 * 128 := hk
    have : k = 0 ∨ k = 1 := by omega
    rcases this with rfl | rfl <;> rfl
  inode_table_lt g k _ hk := by
    have hk : k * 1024 < 16 * 128 := hk
    omega

def rootRecord : Bytes :=
  Bytes.zero |>.put 2 0 (S_IFDIR ||| 0o755) |>.put 4 4 1024 |>.put 2 26 2 |>.put 4 28 2 |>.put 4 40 10

def fileRec : Bytes :=
  Bytes.zero |>.put 2 0 (S_IFREG ||| 0o644) |>.put 4 4 (14 * 1024) |>.put 2 26 2 |>.put 4 28 6 |>.put 4 88 7

def rootBlock : Bytes :=
  dotBlock 1024 2 2 |> De.setRecLen 12 12
    |> De.setInode 24 11 |> De.setRecLen 24 12 |> De.setNameLen 24 1 |> De.setFileType 24 1 |> De.setName 24 [102]
    |> De.setInode 36 11 |> De.setRecLen 36 988 |> De.setNameLen 36 1 |> De.setFileType 36 1 |> De.setName 36 [103]

def disk (b : Nat) : Bytes :=
  match b with
  | 1 => superblock
  | 2 => Bytes.zero |>.put 4 0 3 |>.put 4 4 4 |>.put 4 8 5 |>.put 2 12 21 |>.put 2 14 5 |>.put 2 16 1
  | 3 => Bytes.zero |>.put 2 0 0x3ff
  | 4 => Bytes.zero |>.put 2 0 0x7ff
  | 5 => Bytes.zero.copy 128 128 rootRecord
  | 6 => Bytes.zero.copy 128 256 fileRec
  | 7 => Bytes.zero |>.put 4 0 8 |>.put 4 4 9
  | 8 => fun _ => 65
  | 9 => fun _ => 66
  | 10 => rootBlock
  | _ => Bytes.zero

def st : St where
  disk := disk
  inodes r := if r = 0 then inodeOf 11 fileRec else inodeOf 2 rootRecord
  next := 2
  files _ := ⟨0, 0⟩
  free_blocks := 21
  free_inodes := 5
  ticks := 0
  crit := 0

/-- Which slot names a block. -/
def owner (b : Nat) : Option Slot :=
  match b with
  | 7 => some ((11, 12), [])
  | 8 => some ((11, 12), [0])
  | 9 => some ((11, 12), [1])
  | 10 => some ((2, 0), [])
  | _ => none

set_option maxRecDepth 100000

theorem blocks_eq : ∀ n, n < 17 → ∀ k, k < 14 → (layout.vol st).blocks n k ≠ 0 → n = 2 ∧ k = 0 ∨ n = 11 ∧ k = 12 := by
  decide

theorem entry_eq : ∀ i, i < 256 → entry (layout.vol st).data 7 i ≠ 0 → i = 0 ∨ i = 1 := by
  decide

theorem ibit_lt {n : Nat} (h : (layout.vol st).live n) : n < 17 := by
  have := (live_isIno h).2
  exact lt_succ_of_le this

theorem valid : layout.Valid st where
  super := rfl
  used_dirs g hg := by
    obtain rfl : g = 0 := lt_one_iff.1 hg
    decide
  block_bitmap g hg := by
    obtain rfl : g = 0 := lt_one_iff.1 hg
    decide
  inode_bitmap g hg := by
    obtain rfl : g = 0 := lt_one_iff.1 hg
    decide
  inode_table g hg := by
    obtain rfl : g = 0 := lt_one_iff.1 hg
    decide

theorem owns_st : Owns layout (layout.vol st).live (layout.vol st).blocks (layout.vol st) := by
  refine Owns.of_owner owner ?_ ?_ ?_ ?_ ?_ ?_
  · have h : ∀ b, b < 32 → layout.role b ≠ .data → layout.IsBlock b → (layout.vol st).used b = true := by decide
    exact fun b hb hr => h b hb.2 hr hb
  · intro n k hn hk h0
    rcases blocks_eq n (ibit_lt hn) k (by simp only [EXT2_IND_BLOCK] at hk; omega) h0 with ⟨rfl, rfl⟩ | ⟨rfl, rfl⟩ <;>
      decide
  · intro n hn
    by_contra h0
    rcases blocks_eq n (ibit_lt hn) 13 (by omega) h0 with ⟨-, h⟩ | ⟨-, h⟩ <;> cases h
  · intro n i hn h0 hi he
    have hi : i < 256 := hi
    rcases blocks_eq n (ibit_lt hn) 12 (by omega) h0 with ⟨-, h⟩ | ⟨rfl, -⟩
    · cases h
    · have h7 : (layout.vol st).blocks 11 EXT2_IND_BLOCK = 7 := by decide
      rw [h7] at he ⊢
      rcases entry_eq i hi he with rfl | rfl <;> decide
  · have h : ∀ b, b < 32 → layout.IsData b → ((layout.vol st).used b = true ↔ (owner b).isSome) := by decide
    exact fun b hb => h b hb.1.2 hb
  · intro b x hx
    unfold owner at hx
    split at hx <;> simp only [Option.some.injEq, reduceCtorEq] at hx <;> subst hx <;>
      exact ⟨⟨by simp only [Vol.live]; decide, by decide, by decide, by decide⟩, by decide⟩

theorem isDir : layout.IsDir (layout.vol st).live 1 st := by
  have hib : ∀ m k, (layout.vol st).live m → k ≤ EXT2_DIND_BLOCK →
      Function.update (layout.vol st).blocks 2 (st.inodes 1).priv.i_block m k = (layout.vol st).blocks m k := by
    intro m k _ hk
    by_cases e : m = 2
    · subst e
      have h : ∀ k, k < 14 → (st.inodes 1).priv.i_block k = (layout.vol st).blocks 2 k := by decide
      rw [update_self]
      exact h k (lt_succ_of_le hk)
    · rw [update_of_ne e]
  refine ⟨_, valid, owns_st.congr hib rfl rfl, by simp only [Vol.live]; decide,
    by rw [show (st.inodes 1).priv.ino = 2 from rfl, update_self], ?_⟩
  intro l hl _
  have hl : l < 1 := lt_of_lt_of_le hl (by decide)
  obtain rfl : l = 0 := lt_one_iff.1 hl
  exact ⟨recs 1024 rootBlock 1024 0, by decide⟩

/-- Removing `f` and adding `h` to the root directory. -/
theorem dir_run : ∃ s', Run (Guarded (DirCall.Fits layout 1) (DirCall.Does layout.fs 1)) st
      [.remove [102], .add [104] 12 1] s' ∧
    layout.IsDir (layout.vol st).live 1 s' ∧ (dirFind layout.fs 1 [104]).run serve s' = (some 12, s') := by
  have hrun : Run (Guarded (DirCall.Fits layout 1) (DirCall.Does layout.fs 1)) st [.remove [102], .add [104] 12 1]
      ((dirAdd fs 1 [104] 12 1).run serve ((dirRemove fs 1 [102]).run serve st).2).2 := by
    refine .cons ⟨trivial, Prod.ext (by decide) rfl⟩ (.cons ⟨?_, Prod.ext (by decide) rfl⟩ (.nil _))
    exact ⟨by decide, by decide, by decide, by decide, by decide, by decide⟩
  obtain ⟨h1, -, h3⟩ := dir_run_map isDir hrun
  refine ⟨_, hrun, h1, ?_⟩
  rw [h3]
  congr 1

end Sample

/-! ## A directory of almost 4 GiB -/

namespace Huge

def fs : Fs where
  block_size := 4096
  inodes_per_group := 32
  blocks_per_group := 64
  inode_size := 128
  num_groups := 1
  inodes_count := 32
  blocks_count := 16
  first_data_block := 0
  ptrs_per_block := 1024

def role (b : Nat) : Role :=
  match b with
  | 0 => .superblock
  | 1 => .groupDesc 0
  | 2 => .blockBitmap 0
  | 3 => .inodeBitmap 0
  | 4 => .inodeTable 0 0
  | _ => .data

def layout : Layout where
  fs := fs
  block_bitmap _ := 2
  inode_bitmap _ := 3
  inode_table _ := 4
  super := Bytes.zero
  used_dirs _ := 1
  role := role
  block_size_cases := .inr (.inr rfl)
  ptrs_eq := rfl
  first_le := by decide
  blocks_le := by decide
  blocks_lt := by decide
  bpg_pos := by decide
  bpg_le := by decide
  ipg_pos := by decide
  ipg_le := by decide
  inodes_eq := rfl
  inodes_lt := by decide
  inode_size_ge := by decide
  inode_size_dvd := by decide
  role_zero := by decide
  role_super := rfl
  role_bg g hg := by
    obtain rfl : g = 0 := Nat.lt_one_iff.1 hg
    rfl
  role_block_bitmap g hg := by
    obtain rfl : g = 0 := Nat.lt_one_iff.1 hg
    rfl
  role_inode_bitmap g hg := by
    obtain rfl : g = 0 := Nat.lt_one_iff.1 hg
    rfl
  role_inode_table g k hg hk := by
    obtain rfl : g = 0 := Nat.lt_one_iff.1 hg
    have hk : k * 4096 < 32 * 128 := hk
    obtain rfl : k = 0 := by omega
    rfl
  inode_table_lt g k _ hk := by
    have hk : k * 4096 < 32 * 128 := hk
    omega

/-- A directory without blocks whose size is one block below the limit. -/
def dirRec : Bytes := Bytes.zero |>.put 2 0 (S_IFDIR ||| 0o755) |>.put 4 4 (1048575 * 4096) |>.put 2 26 2

def disk (b : Nat) : Bytes :=
  match b with
  | 1 => Bytes.zero |>.put 4 0 2 |>.put 4 4 3 |>.put 4 8 4 |>.put 2 12 11 |>.put 2 14 21 |>.put 2 16 1
  | 2 => Bytes.zero |>.put 1 0 0x1f
  | 3 => Bytes.zero |>.put 2 0 0x7ff
  | 4 => Bytes.zero.copy 128 128 dirRec
  | _ => Bytes.zero

def st : St where
  disk := disk
  inodes _ := inodeOf 2 dirRec
  next := 1
  files _ := ⟨0, 0⟩
  free_blocks := 11
  free_inodes := 21
  ticks := 0
  crit := 0

set_option maxRecDepth 100000

theorem valid : layout.Valid st := by
  refine ⟨rfl, fun g hg => ?_, fun g hg => ?_, fun g hg => ?_, fun g hg => ?_⟩ <;>
    obtain rfl : g = 0 := lt_one_iff.1 hg <;> decide

theorem owns : Owns layout (layout.vol st).live (fun _ _ => 0) (layout.vol st) := by
  refine Owns.of_owner (fun _ => none) ?_ (fun _ _ _ _ h => absurd rfl h) (fun _ _ => rfl)
    (fun _ _ _ h => absurd rfl h) ?_ (by simp)
  · have h : ∀ b, b < 16 → layout.role b ≠ .data → (layout.vol st).used b = true := by decide
    exact fun b hb hr => h b hb.2 hr
  · have h : ∀ b, b < 16 → layout.role b = .data → (layout.vol st).used b = false := by decide
    intro b hb
    simp [h b hb.1.2 hb.2]

theorem ptr_eq (x : Slot) : ptr (fun _ _ => 0) (layout.vol st).data x = 0 := ptr_of_root_zero _ rfl _

theorem i_block_eq : (st.inodes 0).priv.i_block = fun _ => 0 := by
  funext k
  show (if k < EXT2_N_BLOCKS then Di.i_block dirRec k else 0) = 0
  split_ifs
  · simp (disch := omega) only [Di.i_block, dirRec, get_put_of_disjoint, get_zero]
  · rfl

theorem isDir : layout.IsDir (layout.vol st).live 0 st := by
  refine ⟨fun _ _ => 0, valid, owns, by simp only [Vol.live]; decide, i_block_eq, fun l _ h0 =>
    absurd (ptr_eq _) h0⟩

theorem run_dirAdd_of_full (fs : Fs) (r : Nat) (name : List UInt8) (ino type : Nat) {s : St}
    (h : (dirAddFrom fs r name ino type (blocksOf fs (s.inodes r).priv.i_size) 0).run serve s = (some false, s)) :
    (dirAdd fs r name ino type).run serve s =
      (dirExtend fs r name ino type (blocksOf fs (s.inodes r).priv.i_size)).run serve s := by
  simp [dirAdd, slabAlloc, inodeAt, serve, h]

theorem dirAddFrom_eq : (dirAddFrom fs 0 [102] 11 1 1048575 0).run serve st = (some false, st) := by
  have h := (wp_world_false _ _ _).1 (dirAddFrom_spec (owns.dataPtrs (show (layout.vol st).live 2 by
    simp only [Vol.live]; decide)) i_block_eq [102] 11 1 1048575 0)
  rcases h with ⟨-, ⟨hF, -⟩ | hlt, -⟩ | ⟨h1, h2, -⟩ | ⟨-, j, d, -, -, -, -, -, h0, -⟩
  · exact hF.elim
  · exact absurd hlt (by decide)
  · exact Prod.ext h1 h2
  · exact absurd (ptr_eq _) h0

/-- The size of a directory wraps around at 4 GiB: the name that was added is not
found, nor is any other. -/
theorem dirAdd_wraps : layout.IsDir (layout.vol st).live 0 st ∧ layout.listing st 0 = [] ∧
    ∃ s', (dirAdd fs 0 [102] 11 1).run serve st = (true, s') ∧ (dirFind fs 0 [102]).run serve s' = (none, s') := by
  have hblocks : blocksOf fs (st.inodes 0).priv.i_size = 1048575 := by decide
  have hext : (dirAdd fs 0 [102] 11 1).run serve st = (dirExtend fs 0 [102] 11 1 1048575).run serve st := by
    have h := run_dirAdd_of_full fs 0 [102] 11 1 (s := st)
    rw [hblocks] at h
    exact h dirAddFrom_eq
  have hok : ((dirExtend fs 0 [102] 11 1 1048575).run serve st).1 = true := by decide +kernel
  have hnone : ((dirFind fs 0 [102]).run serve ((dirExtend fs 0 [102] 11 1 1048575).run serve st).2).1 = none := by
    decide +kernel
  generalize (dirExtend fs 0 [102] 11 1 1048575).run serve st = res at hext hok hnone
  obtain ⟨a, s'⟩ := res
  obtain rfl : a = true := hok
  refine ⟨isDir, ?_, s', hext, Prod.ext hnone ?_⟩
  · rw [@listing_eq layout 0 st (fun _ _ => 0) i_block_eq]
    exact flatMap_eq_nil_iff.2 fun l _ => entriesIn_blk (ptr_eq _)
  · exact (wp_world_false _ _ _).1 (dirFind_same fs 0 [102])

end Huge

end Ext2
