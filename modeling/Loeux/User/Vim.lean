import Loeux.Lib.Stream
import Mathlib.Data.List.Nodup
/-!
# The editor

The lines of a file in fixed arrays, with a cursor, against a cursor in a list of
texts. Both arrays and each line have a limit, and not every function looks at it.
-/

namespace Vim

open List

/-! ## The editor of the source -/

/-- The allocator, by what is in use. It never fails: `sys_sbrk` moves the break without an
upper limit, and `malloc` asks for nothing else. -/
structure Heap where
  malloc : List Nat → Nat
  fresh : ∀ live, malloc live ∉ live

/-- A pointer with the bytes that count. -/
structure Line where
  ptr : Nat
  text : List UInt8

structure Editor where
  lines : List Line
  row : Nat
  col : Nat
  live : List Nat

def Editor.texts (e : Editor) : List (List UInt8) := e.lines.map Line.text

def Editor.ptrs (e : Editor) : List Nat := e.lines.map Line.ptr

variable (heap : Heap)

def addLine (e : Editor) (text : List UInt8) : Editor :=
  if e.lines.length < 1000 then
    { e with lines := e.lines ++ [⟨heap.malloc e.live, text.take 511⟩], live := heap.malloc e.live :: e.live }
  else e

/-- The loop over the content; `line` begins at `start`. -/
def splitLoop (e : Editor) (line : List UInt8) : List UInt8 → Editor
  | [] => addLine heap e line
  | c :: rest => if c = 10 then splitLoop (addLine heap e line) [] rest else splitLoop e (line ++ [c]) rest

/-- The `read`s of `load_file`: each delivers what is left, or fills the buffer. -/
def readLoop (content rest : List UInt8) : List UInt8 :=
  let n := min rest.length (65536 - content.length)
  if n = 0 then content
  else if 65535 ≤ (content ++ rest.take n).length then content ++ rest.take n
  else readLoop (content ++ rest.take n) (rest.drop n)
termination_by rest.length
decreasing_by grind

/-- A file that cannot be opened is new. `main` sets the cursor. -/
def loadFile (file : Option (List UInt8)) : Editor :=
  let e := match file with
    | none => addLine heap ⟨[], 0, 0, []⟩ []
    | some file =>
      let e := splitLoop heap ⟨[], 0, 0, []⟩ [] (readLoop [] file)
      if e.lines.length = 0 then addLine heap e [] else e
  { e with row := 0, col := 0 }

/-- What `save_file` leaves in the file. -/
def saveFile (e : Editor) : List UInt8 :=
  (range e.lines.length).flatMap fun i =>
    e.texts.getD i [] ++ if i < e.lines.length - 1 then [10] else []

def insertChar (c : UInt8) (e : Editor) : Option Editor := do
  let line ← e.lines[e.row]?
  if 511 ≤ line.text.length then some e
  else some { e with
    lines := e.lines.set e.row { line with text := line.text.take e.col ++ c :: line.text.drop e.col }
    col := e.col + 1 }

def deleteChar (e : Editor) : Option Editor := do
  let line ← e.lines[e.row]?
  if 0 < e.col then
    some { e with
      lines := e.lines.set e.row { line with text := line.text.eraseIdx (e.col - 1) }, col := e.col - 1 }
  else if 0 < e.row then
    let prev ← e.lines[e.row - 1]?
    if 511 ≤ prev.text.length + line.text.length then some e
    else some {
      lines := e.lines.take (e.row - 1) ++ { prev with text := prev.text ++ line.text } :: e.lines.drop (e.row + 1)
      row := e.row - 1
      col := prev.text.length
      live := e.live.erase line.ptr }
  else some e

/-- No answer where the arrays are left. -/
def insertNewline (e : Editor) : Option Editor := do
  let line ← e.lines[e.row]?
  let new := heap.malloc e.live
  -- the source shifts up to `lines[nlines]` without a look at `MAX_LINES`
  if e.lines.length < 1000 then
    some {
      lines := e.lines.take e.row ++ { line with text := line.text.take e.col } ::
        ⟨new, (line.text.drop e.col).take 511⟩ :: e.lines.drop (e.row + 1)
      row := e.row + 1
      col := 0
      live := new :: e.live }
  else none

/-- The cursor in another row, not beyond its end. -/
def toRow (e : Editor) (row : Nat) : Option Editor := do
  let line ← e.lines[row]?
  some { e with row := row, col := min e.col line.text.length }

def moveUp (e : Editor) : Option Editor := if 0 < e.row then toRow e (e.row - 1) else some e

def moveDown (e : Editor) : Option Editor := if e.row < e.lines.length - 1 then toRow e (e.row + 1) else some e

def moveLeft (e : Editor) : Option Editor := do
  if 0 < e.col then some { e with col := e.col - 1 }
  else if 0 < e.row then
    let line ← e.lines[e.row - 1]?
    some { e with row := e.row - 1, col := line.text.length }
  else some e

def moveRight (e : Editor) : Option Editor := do
  let line ← e.lines[e.row]?
  if e.col < line.text.length then some { e with col := e.col + 1 }
  else if e.row < e.lines.length - 1 then some { e with row := e.row + 1, col := 0 }
  else some e

inductive Key
  | up | down | right | left | save | newline | delete
  | char (c : UInt8)

@[simp] def Key.inserts : Key → Prop
  | newline | char _ => True
  | _ => False

def press (e : Editor) : Key → Option Editor
  | .up => moveUp e
  | .down => moveDown e
  | .right => moveRight e
  | .left => moveLeft e
  | .save => some e
  | .newline => insertNewline heap e
  | .delete => deleteChar e
  | .char c => insertChar c e

/-! ## A cursor in a text -/

/-- The texts above, the nearest first, and what is on both sides in the same row. -/
structure Cursor where
  above : List (List UInt8)
  left : List UInt8
  right : List UInt8
  below : List (List UInt8)

namespace Cursor

@[simp] def delete : Cursor → Cursor
  | ⟨a, _ :: l, r, b⟩ => ⟨a, l, r, b⟩
  | ⟨t :: a, [], r, b⟩ => ⟨a, t.reverse, r, b⟩
  | z => z

@[simp] def up : Cursor → Cursor
  | ⟨t :: a, l, r, b⟩ => ⟨a, (t.take l.length).reverse, t.drop l.length, (l.reverse ++ r) :: b⟩
  | z => z

@[simp] def down : Cursor → Cursor
  | ⟨a, l, r, t :: b⟩ => ⟨(l.reverse ++ r) :: a, (t.take l.length).reverse, t.drop l.length, b⟩
  | z => z

@[simp] def back : Cursor → Cursor
  | ⟨a, c :: l, r, b⟩ => ⟨a, l, c :: r, b⟩
  | ⟨t :: a, [], r, b⟩ => ⟨a, t.reverse, [], r :: b⟩
  | z => z

@[simp] def forth : Cursor → Cursor
  | ⟨a, l, c :: r, b⟩ => ⟨a, c :: l, r, b⟩
  | ⟨a, l, [], t :: b⟩ => ⟨l.reverse :: a, [], t, b⟩
  | z => z

@[simp] def step (z : Cursor) : Key → Cursor
  | .up => z.up
  | .down => z.down
  | .right => z.forth
  | .left => z.back
  | .save => z
  | .newline => ⟨z.left.reverse :: z.above, [], z.right, z.below⟩
  | .delete => z.delete
  | .char c => { z with left := c :: z.left }

/-- There is room for the line that the key makes, and a new line can be joined again. -/
@[simp] def Room (z : Cursor) : Key → Prop
  | .char _ => z.left.length + z.right.length < 511
  | .newline => z.above.length + z.below.length + 1 < 1000 ∧ z.left.length + z.right.length < 511
  | .delete => z.left = [] → ∀ t ∈ z.above.head?, t.length + z.right.length < 511
  | _ => True

end Cursor


/-! ## The cursor of the editor -/

variable {heap : Heap} {e : Editor}

/-- What holds of the lines alone. -/
def Sound (e : Editor) : Prop :=
  e.lines.length ≤ 1000 ∧ (∀ t ∈ e.texts, t.length < 512) ∧ e.ptrs.Nodup ∧ ∀ p ∈ e.ptrs, p ∈ e.live

structure Inv (e : Editor) : Prop where
  sound : Sound e
  row_lt : e.row < e.lines.length
  col_le : ∀ l ∈ e.lines[e.row]?, e.col ≤ l.text.length

def view (e : Editor) : Cursor :=
  ⟨(e.texts.take e.row).reverse, ((e.texts.getD e.row []).take e.col).reverse, (e.texts.getD e.row []).drop e.col,
    e.texts.drop (e.row + 1)⟩

/-- The key does to the text what it stands for, and what it inserts can be deleted again. -/
def Follows (e e' : Editor) (k : Key) : Prop :=
  view e' = (view e).step k ∧ (k.inserts → ∃ e'' ∈ deleteChar e', view e'' = view e)

/-- What comes of a key: the array is left, or what holds of the editor still does. -/
def Answers (heap : Heap) (e : Editor) (k : Key) : Prop :=
  (k = .newline ∧ 1000 ≤ e.lines.length ∧ ¬(view e).Room k) ∨
    ∃ e' ∈ press heap e k, Inv e' ∧ (Follows e e' k ↔ (view e).Room k)

/-- The editor whose cursor is between `l` and `r` in the line at `p`. -/
def focus (A : List Line) (p : Nat) (l r : List UInt8) (B : List Line) (live : List Nat) : Editor :=
  ⟨A ++ ⟨p, l.reverse ++ r⟩ :: B, A.length, l.length, live⟩

section Focus

variable {A B : List Line} {p q : Nat} {l r t : List UInt8} {v : List Nat} {c : UInt8}

@[simp] theorem view_focus : view (focus A p l r B v) = ⟨(A.map Line.text).reverse, l, r, B.map Line.text⟩ := by
  simp [view, focus, Editor.texts, drop_append]

theorem Inv.focus (h : Inv e) : ∃ A p l r B v, e = focus A p l r B v := by
  obtain ⟨lines, row, col, live⟩ := e
  have hrow : row < lines.length := h.row_lt
  have hcol : col ≤ lines[row].text.length := h.col_le _ (by simp [hrow])
  refine ⟨lines.take row, lines[row].ptr, (lines[row].text.take col).reverse, lines[row].text.drop col,
    lines.drop (row + 1), live, ?_⟩
  have hlines : lines.take row ++ lines[row] :: lines.drop (row + 1) = lines := by simp
  simp [Vim.focus, Nat.min_eq_left (Nat.le_of_lt hrow), hcol, hlines]

theorem Sound.inv (h : Sound (focus A p l r B v)) : Inv (focus A p l r B v) :=
  ⟨h, by simp [focus], by simp [focus]⟩

theorem insertChar_focus : insertChar c (focus A p l r B v) =
    some (if 511 ≤ l.length + r.length then focus A p l r B v else focus A p (c :: l) r B v) := by
  simp [insertChar, focus]
  split_ifs <;> simp

theorem deleteChar_cons : deleteChar (focus A p (c :: l) r B v) = some (focus A p l r B v) := by
  simp [deleteChar, focus, eraseIdx_append_of_length_le]

theorem deleteChar_nil : deleteChar (focus (A ++ [⟨q, t⟩]) p [] r B v) =
    some (if 511 ≤ t.length + r.length then focus (A ++ [⟨q, t⟩]) p [] r B v
      else focus A q t.reverse r B (v.erase p)) := by
  simp [deleteChar, focus]
  split_ifs <;> simp [drop_append, Nat.add_assoc]

theorem insertNewline_focus (hr : r.length < 512) : insertNewline heap (focus A p l r B v) =
    if A.length + (B.length + 1) < 1000 then some (focus (A ++ [⟨p, l.reverse⟩]) (heap.malloc v) [] r B (heap.malloc v :: v))
      else none := by
  have htake : r.take 511 = r := take_of_length_le (by omega)
  simp [insertNewline, focus, htake]

theorem moveUp_focus : moveUp (focus (A ++ [⟨q, t⟩]) p l r B v) =
    some (focus A q (t.take l.length).reverse (t.drop l.length) (⟨p, l.reverse ++ r⟩ :: B) v) := by
  simp [moveUp, toRow, focus]

theorem moveDown_focus : moveDown (focus A p l r (⟨q, t⟩ :: B) v) =
    some (focus (A ++ [⟨p, l.reverse ++ r⟩]) q (t.take l.length).reverse (t.drop l.length) B v) := by
  simp [moveDown, toRow, focus]

theorem moveLeft_cons : moveLeft (focus A p (c :: l) r B v) = some (focus A p l (c :: r) B v) := by
  simp [moveLeft, focus]

theorem moveLeft_nil : moveLeft (focus (A ++ [⟨q, t⟩]) p [] r B v) = some (focus A q t.reverse [] (⟨p, r⟩ :: B) v) := by
  simp [moveLeft, focus]

theorem moveRight_cons : moveRight (focus A p l (c :: r) B v) = some (focus A p (c :: l) r B v) := by
  simp [moveRight, focus]

theorem moveRight_nil : moveRight (focus A p l [] (⟨q, t⟩ :: B) v) = some (focus (A ++ [⟨p, l.reverse⟩]) q [] t B v) := by
  simp [moveRight, focus]

theorem sound_focus : Sound (focus A p l r B v) ↔
    A.length + B.length < 1000 ∧ l.length + r.length < 512 ∧ (∀ t ∈ (A ++ B).map Line.text, t.length < 512) ∧
      p ∉ (A ++ B).map Line.ptr ∧ ((A ++ B).map Line.ptr).Nodup ∧ p ∈ v ∧ ∀ x ∈ (A ++ B).map Line.ptr, x ∈ v := by
  simp only [Sound, focus, Editor.texts, Editor.ptrs, map_append, map_cons, length_append,
    length_cons, forall_mem_append, forall_mem_cons, nodup_middle, nodup_cons,
    length_reverse]
  grind

theorem Sound.join (h : Sound (focus (A ++ [⟨q, t⟩]) p [] r B v)) (hlen : t.length + r.length < 512) :
    Sound (focus A q t.reverse r B (v.erase p)) := by
  rw [sound_focus] at h ⊢
  grind

theorem Sound.cut (h : Sound (focus A p l r B v)) (hlen : A.length + (B.length + 1) < 1000) :
    Sound (focus (A ++ [⟨p, l.reverse⟩]) (heap.malloc v) [] r B (heap.malloc v :: v)) := by
  have hnew := heap.fresh v
  rw [sound_focus] at h ⊢
  grind

/-- The cursor is moved, or stays. -/
theorem Answers.move {k : Key} (h : Sound e) (hp : press heap e k = some (focus A p l r B v))
    (hl : (focus A p l r B v).lines = e.lines) (hv : v = e.live)
    (hz : view (focus A p l r B v) = (view e).step k) (hk : ¬k.inserts) (hroom : (view e).Room k) : Answers heap e k := by
  refine .inr ⟨_, hp, Sound.inv ?_, iff_of_true ⟨hz, fun hi => absurd hi hk⟩ hroom⟩
  unfold Sound Editor.texts Editor.ptrs at h ⊢
  rw [hl]
  exact hv ▸ h

theorem answers_focus (h : Sound (focus A p l r B v)) (k : Key) : Answers heap (focus A p l r B v) k := by
  have hs := sound_focus.1 h
  have hr : r.length < 512 := by omega
  cases k with
  | newline =>
    have hp := @insertNewline_focus heap A B p l r v hr
    split_ifs at hp with hlt
    · -- the halves of a full line are not joined again
      refine .inr ⟨_, hp, (h.cut hlt).inv, ?_⟩
      simp only [Follows, view_focus, deleteChar_nil]
      split_ifs <;> simp at * <;> omega
    · exact .inl ⟨rfl, by simp [focus]; omega, by simp; omega⟩
  | char c =>
    refine .inr ⟨_, insertChar_focus, ?_⟩
    split_ifs with hfull
    · -- the line is full, and the character is dropped
      exact ⟨h.inv, by simp [Follows, hfull]⟩
    · refine ⟨Sound.inv (sound_focus.2 ⟨hs.1, by simp; omega, hs.2.2⟩), ?_⟩
      simp [Follows, deleteChar_cons]
      omega
  | delete =>
    rcases l with _ | ⟨c, l⟩
    · rcases A.eq_nil_or_concat' with rfl | ⟨A, ⟨q, t⟩, rfl⟩
      · exact .move h (by simp [press, deleteChar, focus]) rfl rfl (by simp) id (by simp)
      · -- two lines become one, unless that would be too long
        refine .inr ⟨_, deleteChar_nil, ?_⟩
        split_ifs with hfull
        · exact ⟨h.inv, by simp [Follows, hfull]⟩
        · exact ⟨(h.join (by omega)).inv, by simp [Follows]; omega⟩
    · refine .inr ⟨_, deleteChar_cons, Sound.inv (sound_focus.2 ⟨hs.1, by simp at hs; omega, hs.2.2⟩), ?_⟩
      simp [Follows]
  | save => exact .move h rfl rfl rfl rfl id trivial
  | up =>
    rcases A.eq_nil_or_concat' with rfl | ⟨A, ⟨q, t⟩, rfl⟩
    · exact .move h (by simp [press, moveUp, focus]) rfl rfl (by simp) id trivial
    · exact .move h moveUp_focus (by simp [focus]) rfl (by simp) id trivial
  | down =>
    rcases B with _ | ⟨⟨q, t⟩, B⟩
    · exact .move h (by simp [press, moveDown, focus]) rfl rfl (by simp) id trivial
    · exact .move h moveDown_focus (by simp [focus]) rfl (by simp) id trivial
  | left =>
    rcases l with _ | ⟨c, l⟩
    · rcases A.eq_nil_or_concat' with rfl | ⟨A, ⟨q, t⟩, rfl⟩
      · exact .move h (by simp [press, moveLeft, focus]) rfl rfl (by simp) id trivial
      · exact .move h moveLeft_nil (by simp [focus]) rfl (by simp) id trivial
    · exact .move h moveLeft_cons (by simp [focus]) rfl (by simp) id trivial
  | right =>
    rcases r with _ | ⟨c, r⟩
    · rcases B with _ | ⟨⟨q, t⟩, B⟩
      · exact .move h (by simp [press, moveRight, focus]) rfl rfl (by simp) id trivial
      · exact .move h moveRight_nil (by simp [focus]) rfl (by simp) id trivial
    · exact .move h moveRight_cons (by simp [focus]) rfl (by simp) id trivial

end Focus

/-! ## Loading and saving -/

theorem saveFile_eq (e : Editor) : saveFile e = [10].intercalate e.texts := by
  have hlen : e.lines.length = e.texts.length := by simp [Editor.texts]
  unfold saveFile
  rw [hlen]
  induction e.texts with
  | nil => rfl
  | cons t ts ih =>
    rw [length_cons, range_succ_eq_map, flatMap_cons, flatMap_map]
    cases ts with
    | nil => simp
    | cons t' ts =>
      rw [intercalate_cons_cons, ← ih]
      simp

theorem readLoop_eq (file : List UInt8) : readLoop [] file = file.take 65536 := by
  have htake : file.take (min file.length 65536) = file.take 65536 := by
    rw [take_eq_take_iff]
    omega
  rw [readLoop]
  simp only [length_nil, Nat.sub_zero, nil_append, htake]
  split_ifs with h0 h1
  · rw [take_eq_nil_iff.2 (by simp at h0; simp [h0])]
  · rfl
  · rw [readLoop, if_pos (by simp; omega)]

theorem texts_addLine (t : List UInt8) (h : Sound e) :
    (addLine heap e t).texts = (e.texts ++ [t.take 511]).take 1000 := by
  have hfew := h.1
  have hlen : e.texts.length = e.lines.length := by simp [Editor.texts]
  unfold addLine
  split_ifs with hlt
  · rw [@take_of_length_le _ 1000 _ (by simp; omega)]
    simp [Editor.texts]
  · rw [take_append_of_le_length (by omega), take_of_length_le (by omega)]

theorem Sound.addLine (h : Sound e) (t : List UInt8) : Sound (addLine heap e t) := by
  have hnew := heap.fresh e.live
  unfold Vim.addLine
  split_ifs
  · unfold Sound Editor.texts Editor.ptrs at *
    grind
  · exact h

theorem take_take_append {α : Type} (k : Nat) (l m : List α) : (l.take k ++ m).take k = (l ++ m).take k := by
  rcases Nat.le_total l.length k with h | h
  · rw [take_of_length_le h]
  · rw [take_append_of_le_length h, take_append_of_le_length (by simp [h]), take_take, Nat.min_self]

theorem splitLoop_spec (h : Sound e) {line : List UInt8} (hline : 10 ∉ line) (content : List UInt8) :
    Sound (splitLoop heap e line content) ∧ (splitLoop heap e line content).texts =
      (e.texts ++ ((line ++ content).splitOn 10).map (·.take 511)).take 1000 := by
  induction content generalizing e line with
  | nil =>
    refine ⟨h.addLine line, ?_⟩
    rw [append_nil, splitOn_eq_singleton hline]
    exact texts_addLine line h
  | cons c rest ih =>
    -- the line goes on, or a newline ends it and what follows begins with an empty one
    unfold splitLoop
    split_ifs with hc
    · obtain ⟨hs, ht⟩ := @ih _ (h.addLine line) [] not_mem_nil
      refine ⟨hs, ht.trans ?_⟩
      have hsplit : (line ++ c :: rest).splitOn 10 = line :: rest.splitOn 10 :=
        splitOnP_append_cons_of_forall_mem (fun x hx => by grind) c (by simp [hc]) rest
      rw [texts_addLine line h, hsplit]
      rw [take_take_append, append_assoc]
      rfl
    · have := @ih _ h (line ++ [c]) (by simp [hline, Ne.symm hc])
      simpa using this

theorem loadFile_spec (file : List UInt8) : Inv (loadFile heap (some file)) ∧
    (loadFile heap (some file)).texts = (((file.take 65536).splitOn 10).map (·.take 511)).take 1000 := by
  have h0 : Sound ⟨[], 0, 0, []⟩ := by simp [Sound, Editor.texts, Editor.ptrs]
  obtain ⟨hs, ht⟩ := @splitLoop_spec heap _ h0 [] not_mem_nil (file.take 65536)
  have hpos : (splitLoop heap ⟨[], 0, 0, []⟩ [] (file.take 65536)).lines.length ≠ 0 := by
    intro hz
    have : (splitLoop heap ⟨[], 0, 0, []⟩ [] (file.take 65536)).texts = [] := by simp [Editor.texts, length_eq_zero_iff.1 hz]
    simp [ht, splitOn_ne_nil] at this
  unfold loadFile
  simp only [readLoop_eq, if_neg hpos]
  exact ⟨⟨hs, Nat.pos_of_ne_zero hpos, fun _ _ => Nat.zero_le _⟩, ht⟩

/-- How many bytes the lines take with a newline behind each. -/
@[simp] def size : List (List UInt8) → Nat
  | [] => 0
  | t :: ts => t.length + 1 + size ts

theorem length_intercalate {ts : List (List UInt8)} (h : ts ≠ []) : ([10].intercalate ts).length + 1 = size ts := by
  induction ts with
  | nil => exact absurd rfl h
  | cons t ts ih =>
    cases ts with
    | nil => simp
    | cons t' ts =>
      have := ih (by simp)
      simp [intercalate_cons_cons] at this ⊢
      omega

theorem size_take (k : Nat) (ts : List (List UInt8)) : size ((ts.map (·.take 511)).take k) ≤ size ts ∧
    (size ((ts.map (·.take 511)).take k) = size ts → ts.length ≤ k ∧ ∀ t ∈ ts, t.length < 512) := by
  induction ts generalizing k with
  | nil => simp
  | cons t ts ih =>
    cases k with
    | zero => simp only [take_zero, size]; omega
    | succ k =>
      obtain ⟨hle, heq⟩ := ih k
      simp only [map_cons, take_succ_cons, size, length_take, length_cons, forall_mem_cons]
      refine ⟨by omega, fun h => ?_⟩
      obtain ⟨hk, hts⟩ := heq (by omega)
      exact ⟨by omega, by omega, hts⟩

theorem saveFile_loadFile (file : List UInt8) : saveFile (loadFile heap (some file)) = file ↔
    file.length ≤ 65536 ∧ (file.splitOn 10).length ≤ 1000 ∧ ∀ t ∈ file.splitOn 10, t.length < 512 := by
  rw [saveFile_eq, (loadFile_spec file).2]
  constructor
  · -- nothing is added, so equal lengths mean that nothing was cut off
    intro h
    have hne := splitOn_ne_nil 10 (file.take 65536)
    have hfull := length_intercalate hne
    have hcut := @length_intercalate ((((file.take 65536).splitOn 10).map (·.take 511)).take 1000) (by simp)
    obtain ⟨hle, heq⟩ := size_take 1000 ((file.take 65536).splitOn 10)
    rw [intercalate_splitOn, length_take] at hfull
    rw [h] at hcut
    have hlen : file.length ≤ 65536 := by omega
    rw [take_of_length_le hlen] at heq hle hcut hfull
    exact ⟨hlen, heq (by omega)⟩
  · rintro ⟨hlen, hcount, hshort⟩
    have hmap : (file.splitOn 10).map (·.take 511) = file.splitOn 10 := by
      rw [map_congr_left fun t ht => take_of_length_le (Nat.le_of_lt_succ (hshort t ht)), map_id']
    rw [take_of_length_le hlen, hmap, take_of_length_le hcount, intercalate_splitOn]

theorem loadFile_inv : ∀ file, Inv (loadFile heap file)
  | some file => (loadFile_spec file).1
  | none => by
    have h0 : Sound ⟨[], 0, 0, []⟩ := by simp [Sound, Editor.texts, Editor.ptrs]
    exact ⟨h0.addLine [], by simp [loadFile, addLine], fun _ _ => Nat.zero_le _⟩

/-! ## Sequences of keys -/

theorem newline_room {e' : Editor} (h : e' ∈ press heap e .newline) : e.lines.length < 1000 := by
  by_contra hfull
  simp [press, insertNewline, hfull] at h

theorem Inv.answers (h : Inv e) (k : Key) : Answers heap e k := by
  obtain ⟨A, p, l, r, B, v, rfl⟩ := h.focus
  exact answers_focus h.sound k

/-- The editor after the first `n` keys. -/
abbrev run (heap : Heap) (file : Option (List UInt8)) (ks : List Key) (n : Nat) : Option Editor :=
  Lib.after (fun s k => s.bind fun e => press heap e k) (some (loadFile heap file)) ks n

def Served (heap : Heap) (s : Option Editor) (k : Key) : Prop :=
  ∃ e ∈ s, ∃ e' ∈ press heap e k, Inv e' ∧ Follows e e' k

def Roomy (s : Option Editor) (k : Key) : Prop := ∀ e ∈ s, (view e).Room k

theorem served_iff {s : Option Editor} (k : Key) (h : ∃ e ∈ s, Inv e) : Served heap s k ↔ Roomy s k := by
  obtain ⟨e, rfl, hi⟩ := h
  constructor
  · rintro ⟨_, ⟨⟩, e', he', -, hf⟩ _ ⟨⟩
    rcases @Inv.answers heap e hi k with ⟨rfl, hfull, -⟩ | ⟨_, he, -, hiff⟩
    · exact absurd (newline_room he') (Nat.not_lt.2 hfull)
    · obtain rfl := Option.some.inj (he'.symm.trans he)
      exact hiff.1 hf
  · intro hroom
    rcases @Inv.answers heap e hi k with ⟨-, -, hno⟩ | ⟨e', he', hi', hiff⟩
    · exact absurd (hroom e rfl) hno
    · exact ⟨e, rfl, e', he', hi', hiff.2 (hroom e rfl)⟩

/-- Every key does what it should, within the arrays, exactly if there is room for each. -/
theorem keys_iff (heap : Heap) (file : Option (List UInt8)) (ks : List Key) : Inv (loadFile heap file) ∧
    ((∀ n k, ks[n]? = some k → Served heap (run heap file ks n) k) ↔
      ∀ n k, ks[n]? = some k → Roomy (run heap file ks n) k) := by
  refine ⟨loadFile_inv file, Lib.forall_steps_iff (fun _ k h => served_iff k h) ?_ ⟨_, rfl, loadFile_inv file⟩⟩
  rintro s k - ⟨e, rfl, e', he', hi, -⟩
  exact ⟨e', he', hi⟩

/-- The state of the arrays, and what is saved from it. -/
def Saves (s : Option Editor) : Prop := ∃ e ∈ s, Inv e ∧ saveFile e = [10].intercalate e.texts

def RoomForLine (s : Option Editor) (k : Key) : Prop := ∀ e ∈ s, k = .newline → e.lines.length < 1000

theorem saves_iff {s : Option Editor} (k : Key) (h : Saves s) : Saves (s.bind fun e => press heap e k) ↔ RoomForLine s k := by
  obtain ⟨e, rfl, hi, -⟩ := h
  constructor
  · rintro ⟨e', he', -⟩ _ ⟨⟩ rfl
    exact newline_room he'
  · intro hroom
    rcases @Inv.answers heap e hi k with ⟨hk, hfull, -⟩ | ⟨e', he', hi', -⟩
    · exact absurd (hroom e rfl hk) (Nat.not_lt.2 hfull)
    · exact ⟨e', he', hi', saveFile_eq e'⟩

/-- A file is saved as it was, and then as it is shown, exactly if it is within the limits and stays so. -/
theorem file_iff (heap : Heap) (file : List UInt8) (ks : List Key) :
    (saveFile (loadFile heap (some file)) = file ∧ ∀ n, Saves (run heap (some file) ks n)) ↔
    (file.length ≤ 65536 ∧ (file.splitOn 10).length ≤ 1000 ∧ ∀ t ∈ file.splitOn 10, t.length < 512) ∧
      ∀ n k, ks[n]? = some k → RoomForLine (run heap (some file) ks n) k :=
  and_congr (saveFile_loadFile file)
    (Lib.forall_states_iff (fun _ k h => saves_iff k h) ⟨_, rfl, loadFile_inv _, saveFile_eq _⟩)

def above : Heap where
  malloc live := live.foldr (· + ·) 0 + 1
  fresh live h := by
    have : ∀ a ∈ live, a ≤ live.foldr (· + ·) 0 := by
      clear h
      induction live with grind
    exact absurd (this _ h) (Nat.not_succ_le_self _)

theorem long_line_cut : saveFile (loadFile above (some (replicate 512 97))) ≠ replicate 512 97 :=
  fun h => absurd ((saveFile_loadFile _).1 h).2.2 (by decide +kernel)

theorem thousand_lines_left : ¬∀ n k, [Key.newline][n]? = some k →
    Served above (run above (some (replicate 999 10)) [.newline] n) k := by
  intro h
  obtain ⟨_, ⟨⟩, e', he', -⟩ := h 0 .newline rfl
  have hlen := congrArg length (@loadFile_spec above (replicate 999 10)).2
  have hroom := newline_room he'
  simp only [Editor.texts, length_map] at hlen
  rw [hlen] at hroom
  exact absurd hroom (by decide +kernel)

end Vim
