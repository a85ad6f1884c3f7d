import Mathlib.Tactic.SplitIfs
import Mathlib.Tactic.Ring
/-!
# The kernel's drawing layer (`drivers/gpu/kgfx.c`)

A frame buffer twice as high as the screen, the window of it that is shown, and
the pending rectangle of rows and columns that the next flush transfers. Colours
are words of the buffer, which is addressed as the source addresses it.
-/

namespace Kgfx

def u32 (n : Nat) : Nat := n % 2 ^ 32

structure Gpu where
  width : Nat
  height : Nat
  fb_height : Nat
  backing : fb_height = height * 2
  width_lt : width < 2 ^ 32
  height_lt : fb_height < 2 ^ 32
  fb_size_lt : width * fb_height * 4 < 2 ^ 64

/-- A rectangle in the coordinates of the buffer. -/
structure Rect where
  x0 : Nat
  y0 : Nat
  x1 : Nat
  y1 : Nat
deriving Repr, DecidableEq

/-- The buffer from `gpu->fb` on and the static variables of `kgfx.c`. -/
structure Screen where
  fb : Nat → UInt32
  pan_y : Nat := 0
  dirty : Rect := ⟨0, 0, 0, 0⟩
  dirty_valid : Bool := false
  pan_changed : Bool := false

/-- The pixel in a row and a column of the buffer. -/
def px (g : Gpu) (fb : Nat → UInt32) (row col : Nat) : UInt32 := fb (row * g.width + col)

def store (fb : Nat → UInt32) (start n : Nat) (f : Nat → UInt32) : Nat → UInt32 :=
  fun i => if start ≤ i ∧ i < start + n then f (i - start) else fb i

def markDirtyLocked (s : Screen) (x y w h : Nat) : Screen :=
  if w = 0 ∨ h = 0 then s
  else
    let x1 := u32 (x + w)
    let y1 := u32 (y + h)
    if s.dirty_valid then
      { s with dirty := ⟨min s.dirty.x0 x, min s.dirty.y0 y, max s.dirty.x1 x1, max s.dirty.y1 y1⟩ }
    else { s with dirty := ⟨x, y, x1, y1⟩, dirty_valid := true }

def markDirtyScreen (s : Screen) (x y w h : Nat) : Screen := markDirtyLocked s x (u32 (y + s.pan_y)) w h

/-- The window does not move further down. -/
def wraps (g : Gpu) (s : Screen) (line_h : Nat) : Prop := u32 (s.pan_y + g.height + line_h) > g.fb_height

instance (g : Gpu) (s : Screen) (line_h : Nat) : Decidable (wraps g s line_h) := Nat.decLt _ _

/-- The first part of `kgfx_scroll_up`: the lower half is copied up, or the window moves. -/
def moveWindow (g : Gpu) (s : Screen) (line_h : Nat) : Screen :=
  if wraps g s line_h then
    { s with fb := store s.fb 0 (g.width * g.height) fun i => s.fb (g.width * g.height + i), pan_y := 0 }
  else { s with pan_y := u32 (s.pan_y + line_h) }

/-- The bottom band is filled two pixels at a time. -/
def fillBand (g : Gpu) (s : Screen) (line_h : Nat) (bg : UInt32) : Screen :=
  let band_y := u32 (s.pan_y + g.height - line_h)
  { s with fb := store s.fb (band_y * g.width) (g.width * line_h / 2 * 2) fun _ => bg }

/-- What the scroll marks. -/
def markBand (g : Gpu) (s : Screen) (line_h : Nat) : Screen :=
  if s.pan_y = 0 then { s with dirty := ⟨0, 0, g.width, g.height⟩, dirty_valid := true }
  else markDirtyLocked s 0 (u32 (s.pan_y + g.height - line_h)) g.width line_h

def scrollUp (g : Gpu) (s : Screen) (line_h : Nat) (bg : UInt32) : Screen :=
  if line_h = 0 ∨ line_h > g.height then s
  else { markBand g (fillBand g (moveWindow g s line_h) line_h bg) line_h with pan_changed := true }

/-- Rows `y` to `y + rows` of the screen: a run of `n` words from column `x` on in each. -/
def storeRows (g : Gpu) (pan x n y rows : Nat) (f : Nat → Nat → UInt32) (fb : Nat → UInt32) : Nat → UInt32 :=
  (List.range' y rows).foldl (fun fb row => store fb (u32 (row + pan) * g.width + x) n (f row)) fb

def fillRectNodirty (g : Gpu) (s : Screen) (x y w h : Nat) (color : UInt32) : Screen :=
  if w = 0 ∨ h = 0 then s
  else
    let x1 := min (u32 (x + w)) g.width
    let y1 := min (u32 (y + h)) g.height
    if x1 ≤ x ∨ y1 ≤ y then s
    else { s with fb := storeRows g s.pan_y x (x1 - x) y (y1 - y) (fun _ _ => color) s.fb }

/-- One row of a glyph, most significant bit first. -/
def glyphRow (bits : UInt8) (fg bg : UInt32) (i : Nat) : UInt32 := if bits.toNat.testBit (7 - i) then fg else bg

/-- `draw_char_raw`, over a font. -/
def drawCharRaw (font : UInt8 → Nat → UInt8) (g : Gpu) (s : Screen) (c : UInt8) (x y : Nat) (fg bg : UInt32) : Screen :=
  { s with fb := storeRows g s.pan_y x 8 y (min 16 (g.height - y)) (fun row => glyphRow (font c (row - y)) fg bg) s.fb }

def drawCharNodirty (font : UInt8 → Nat → UInt8) (g : Gpu) (s : Screen) (c : UInt8) (x y : Nat) (fg bg : UInt32) : Screen :=
  if g.width ≤ x ∨ g.height ≤ y then s else drawCharRaw font g s c x y fg bg

/-! ## Addresses -/

section Address

variable {g : Gpu} {row row' col col' n : Nat}

theorem address_lt (hr : row < n) (hc : col < g.width) : row * g.width + col < n * g.width := by
  calc row * g.width + col < row * g.width + g.width := by omega
    _ = (row + 1) * g.width := by ring
    _ ≤ n * g.width := Nat.mul_le_mul_right _ hr

theorem u32_of_lt (h : n < 2 ^ 32) : u32 n = n := Nat.mod_eq_of_lt h

variable {fb : Nat → UInt32}

theorem store_in {start i : Nat} {f : Nat → UInt32} (h : start ≤ i ∧ i < start + n) :
    store fb start n f i = f (i - start) := if_pos h

theorem store_out {start i : Nat} {f : Nat → UInt32} (h : ¬(start ≤ i ∧ i < start + n)) :
    store fb start n f i = fb i := if_neg h

theorem px_store_out {f : Nat → UInt32} {x : Nat} (hx : x + n ≤ g.width) (hc : col < g.width)
    (h : ¬(row = row' ∧ x ≤ col ∧ col < x + n)) : px g (store fb (row' * g.width + x) n f) row col = px g fb row col := by
  refine store_out ?_
  rintro ⟨hlo, hhi⟩
  rcases Nat.lt_trichotomy row row' with hlt | rfl | hgt
  · have := address_lt hlt hc
    omega
  · omega
  · have hnext : (row' + 1) * g.width ≤ row * g.width := Nat.mul_le_mul_right _ hgt
    rw [Nat.add_mul, Nat.one_mul] at hnext
    omega

end Address

/-! ## The pending rectangle -/

def Screen.join (s : Screen) (r : Rect) : Rect :=
  if s.dirty_valid then ⟨min s.dirty.x0 r.x0, min s.dirty.y0 r.y0, max s.dirty.x1 r.x1, max s.dirty.y1 r.y1⟩ else r

theorem markDirtyLocked_eq {w h : Nat} (hw : w ≠ 0) (hh : h ≠ 0) (s : Screen) (x y : Nat) :
    markDirtyLocked s x y w h = { s with dirty := s.join ⟨x, y, u32 (x + w), u32 (y + h)⟩, dirty_valid := true } := by
  unfold markDirtyLocked Screen.join
  rw [if_neg (by omega)]
  dsimp only
  split_ifs with hv
  · rw [hv]
  · rfl

@[simp] theorem markDirtyLocked_fb (s : Screen) (x y w h : Nat) : (markDirtyLocked s x y w h).fb = s.fb := by
  unfold markDirtyLocked
  split_ifs <;> rfl

@[simp] theorem markDirtyLocked_pan (s : Screen) (x y w h : Nat) : (markDirtyLocked s x y w h).pan_y = s.pan_y := by
  unfold markDirtyLocked
  split_ifs <;> rfl

/-! ## What drawing leaves alone -/

/-- The part of the buffer that a rectangle of the screen covers. -/
def Cell (pan x y w h row col : Nat) : Prop := x ≤ col ∧ col < x + w ∧ y + pan ≤ row ∧ row < y + pan + h

/-- Only pixels of the screen rectangle may differ, nothing else has changed. -/
structure Paints (g : Gpu) (s s' : Screen) (x y w h : Nat) : Prop where
  pan : s'.pan_y = s.pan_y
  dirty : s'.dirty = s.dirty
  valid : s'.dirty_valid = s.dirty_valid
  pixels : ∀ row col, col < g.width → ¬Cell s.pan_y x y w h row col → px g s'.fb row col = px g s.fb row col

section Paint

variable {g : Gpu} {s : Screen} {x y w h n rows : Nat}

theorem px_storeRows {pan : Nat} {f : Nat → Nat → UInt32} {fb : Nat → UInt32} (hx : x + n ≤ g.width)
    (hy : y + rows ≤ g.height) (hp : pan ≤ g.height) {row col : Nat} (hc : col < g.width)
    (h : ¬Cell pan x y n rows row col) : px g (storeRows g pan x n y rows f fb) row col = px g fb row col := by
  have hb := g.backing
  have hlt := g.height_lt
  induction rows generalizing y fb with
  | zero => rfl
  | succ rows ih =>
    rw [storeRows, List.range'_succ, List.foldl_cons]
    have hrest : px g (storeRows g pan x n (y + 1) rows f (store fb (u32 (y + pan) * g.width + x) n (f y))) row col = _ :=
      ih (by omega) fun hcell => h ⟨hcell.1, hcell.2.1, by have := hcell.2.2.1; omega, by have := hcell.2.2.2; omega⟩
    rw [storeRows] at hrest
    rw [hrest]
    refine px_store_out hx hc ?_
    rw [u32_of_lt (by omega)]
    rintro ⟨rfl, h1, h2⟩
    exact h ⟨h1, h2, le_refl _, by omega⟩

theorem Paints.refl : Paints g s s x y w h := ⟨rfl, rfl, rfl, fun _ _ _ _ => rfl⟩

theorem fillRect_paints (hp : s.pan_y ≤ g.height) (hx : x + w < 2 ^ 32) (hy : y + h < 2 ^ 32) (color : UInt32) :
    Paints g s (fillRectNodirty g s x y w h color) x y w h := by
  unfold fillRectNodirty
  dsimp only
  split_ifs with h0 h1
  · exact .refl
  · exact .refl
  · rw [u32_of_lt hx, u32_of_lt hy] at h1 ⊢
    refine ⟨rfl, rfl, rfl, fun row col hc hcell => px_storeRows (by omega) (by omega) hp hc ?_⟩
    rintro ⟨h2, h3, h4, h5⟩
    exact hcell ⟨h2, by omega, h4, by omega⟩

theorem drawChar_paints (font : UInt8 → Nat → UInt8) (hp : s.pan_y ≤ g.height) (hx : x + 8 ≤ g.width) (c : UInt8)
    (fg bg : UInt32) : Paints g s (drawCharNodirty font g s c x y fg bg) x y 8 16 := by
  unfold drawCharNodirty
  split_ifs with h0
  · exact .refl
  · refine ⟨rfl, rfl, rfl, fun row col hc hcell => px_storeRows hx (by omega) hp hc ?_⟩
    rintro ⟨h2, h3, h4, h5⟩
    exact hcell ⟨h2, h3, h4, by omega⟩

end Paint

end Kgfx
