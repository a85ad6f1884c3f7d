import Loeux.Drivers.Kgfx
/-!
# The terminal on the screen (`drivers/tty/gpu_tty.c`)

`gpu_tty_putc` with its escape sequences, the blinking cursor of `gpu_tty_tick`
and the flush, over the drawing layer. `shown` is what the device was last sent
of each pixel. The font is a parameter.
-/

namespace GpuTty

open Kgfx

def BLINK_INTERVAL : Nat := 100

def ANSI_FG_DEFAULT : UInt32 := 0xFFFFFFFF

def ANSI_BG_DEFAULT : UInt32 := 0xFF000000

def ansi_colors : List UInt32 :=
  [0xFF000000, 0xFFAA0000, 0xFF00AA00, 0xFFAA5500, 0xFF0000AA, 0xFFAA00AA, 0xFF00AAAA, 0xFFAAAAAA,
    0xFF555555, 0xFFFF5555, 0xFF55FF55, 0xFFFFFF55, 0xFF5555FF, 0xFFFF55FF, 0xFF55FFFF, 0xFFFFFFFF]

/-- `esc_state`. -/
inductive Esc
  | normal
  | esc
  | csi
deriving Repr, DecidableEq

structure State where
  screen : Screen
  shown : Nat → Nat → UInt32
  cur_x : Nat := 0
  cur_y : Nat := 0
  fg : UInt32 := ANSI_FG_DEFAULT
  bg : UInt32 := ANSI_BG_DEFAULT
  cursor_visible : Bool := true
  cursor_drawn : Bool := false
  blink_counter : Nat := 0
  esc_state : Esc := .normal
  esc_buf : List UInt8 := []

/-- A difference of `uint32_t`. -/
def sub32 (a b : Nat) : Nat := u32 (a + 2 ^ 32 - b)

/-- A sum or product of `int`. -/
def i32 (n : Int) : Int := n.bmod (2 ^ 32)

def State.fill (g : Gpu) (s : State) (x y w h : Nat) (color : UInt32) : State :=
  { s with screen := fillRectNodirty g s.screen x y w h color }

def State.mark (s : State) (x y w h : Nat) : State := { s with screen := markDirtyScreen s.screen x y w h }

def drawCursor (g : Gpu) (s : State) : State :=
  if s.cursor_drawn then s else { s.fill g s.cur_x (u32 (s.cur_y + 14)) 8 2 0xFFFFFFFF with cursor_drawn := true }

def eraseCursor (g : Gpu) (s : State) : State :=
  if s.cursor_drawn then { s.fill g s.cur_x (u32 (s.cur_y + 14)) 8 2 s.bg with cursor_drawn := false } else s

def advanceLine (g : Gpu) (s : State) : State :=
  if u32 (u32 (s.cur_y + 16) + 16) > g.height then
    { s with screen := scrollUp g s.screen 16 s.bg, cur_x := 0, cur_y := sub32 g.height 16 }
  else { s with cur_x := 0, cur_y := u32 (s.cur_y + 16) }

/-! ## Escape sequences -/

def isDigit (c : UInt8) : Bool := 48 ≤ c && c ≤ 57

def digit (v : Int) (c : UInt8) : Int := i32 (v * 10 + (c.toNat - 48))

/-- The loop of `parse_two`: `first` while no semicolon was read, `has` once a digit was. -/
def parseTwoFrom (da db : Int) (v : Int) (first has : Bool) (a : Int) : List UInt8 → Int × Int
  | [] => if first then (if has then v else a, db) else (a, if has then v else db)
  | c :: args =>
    if isDigit c then parseTwoFrom da db (digit v c) first true a args
    else if c = 59 then parseTwoFrom da db 0 false false (if first then (if has then v else da) else a) args
    else parseTwoFrom da db v first has a args

def parseTwo (args : List UInt8) (da db : Int) : Int × Int := parseTwoFrom da db 0 true false da args

/-- The mode of a `J` or `K`. -/
def modeOf (args : List UInt8) : Nat :=
  match args with
  | c :: _ => if isDigit c then c.toNat - 48 else 0
  | [] => 0

/-- Where an `H` or `f` moves the cursor. -/
def target (g : Gpu) (args : List UInt8) : Nat × Nat :=
  let p := parseTwo args 1 1
  let nx := u32 ((max p.2 1 - 1).toNat * 8)
  let ny := u32 ((max p.1 1 - 1).toNat * 16)
  (if u32 (nx + 8) > g.width then sub32 g.width 8 else nx, if u32 (ny + 16) > g.height then sub32 g.height 16 else ny)

def sgrOne (val : Int) (colors : UInt32 × UInt32) : UInt32 × UInt32 :=
  if val = 0 then (ANSI_FG_DEFAULT, ANSI_BG_DEFAULT)
  else if 30 ≤ val ∧ val ≤ 37 then (ansi_colors.getD (val - 30).toNat 0, colors.2)
  else if val = 39 then (ANSI_FG_DEFAULT, colors.2)
  else if 40 ≤ val ∧ val ≤ 47 then (colors.1, ansi_colors.getD (val - 40).toNat 0)
  else if val = 49 then (colors.1, ANSI_BG_DEFAULT)
  else if 90 ≤ val ∧ val ≤ 97 then (ansi_colors.getD (val - 90 + 8).toNat 0, colors.2)
  else if 100 ≤ val ∧ val ≤ 107 then (colors.1, ansi_colors.getD (val - 100 + 8).toNat 0)
  else colors

def sgrFrom (val : Int) (has : Bool) (colors : UInt32 × UInt32) : List UInt8 → UInt32 × UInt32
  | [] => if has then sgrOne val colors else colors
  | c :: args =>
    if isDigit c then sgrFrom (digit val c) true colors args
    else if c = 59 then sgrFrom 0 false (if has then sgrOne val colors else colors) args
    else sgrFrom val has colors args

def showCursor (g : Gpu) (s : State) : State := if s.cursor_visible then drawCursor g s else s

def eraseDisplay (g : Gpu) (s : State) : State :=
  showCursor g
    (({ s.fill g 0 0 g.width g.height s.bg with cur_x := 0, cur_y := 0, cursor_drawn := false }).mark 0 0 g.width g.height)

def moveCursor (g : Gpu) (s : State) (args : List UInt8) : State :=
  let s := (eraseCursor g s).mark s.cur_x (u32 (s.cur_y + 14)) 8 2
  let s := showCursor g { s with cur_x := (target g args).1, cur_y := (target g args).2 }
  s.mark (target g args).1 (target g args).2 8 16

def lineSpan (g : Gpu) (s : State) (args : List UInt8) : Nat × Nat :=
  if modeOf args = 1 then (0, u32 (s.cur_x + 8)) else if modeOf args = 2 then (0, g.width) else (s.cur_x, g.width)

def eraseLine (g : Gpu) (s : State) (args : List UInt8) : State :=
  let x0 := (lineSpan g s args).1
  let x1 := (lineSpan g s args).2
  if x1 > x0 then showCursor g (((eraseCursor g s).fill g x0 s.cur_y (x1 - x0) 16 s.bg).mark x0 s.cur_y (x1 - x0) 16)
  else s

def setVisible (g : Gpu) (s : State) (on : Bool) : State :=
  let s := if on then drawCursor g { s with cursor_visible := true } else { eraseCursor g s with cursor_visible := false }
  s.mark s.cur_x (u32 (s.cur_y + 14)) 8 2

def setColors (s : State) (args : List UInt8) : State :=
  let colors := sgrFrom 0 args.isEmpty (s.fg, s.bg) args
  { s with fg := colors.1, bg := colors.2 }

def handleCsi (g : Gpu) (s : State) (final : UInt8) (args : List UInt8) : State :=
  if final = 74 then if modeOf args = 2 then eraseDisplay g s else s
  else if final = 72 ∨ final = 102 then moveCursor g s args
  else if final = 75 then eraseLine g s args
  else if final = 108 ∨ final = 104 then if args.take 3 = [63, 50, 53] then setVisible g s (final = 104) else s
  else if final = 109 then setColors s args
  else s

/-! ## Characters -/

def place (font : UInt8 → Nat → UInt8) (g : Gpu) (s : State) (c : UInt8) : State :=
  if c = 13 then { s with cur_x := 0 }
  else if c = 10 then advanceLine g s
  else if c = 8 then if 8 ≤ s.cur_x then { s with cur_x := s.cur_x - 8 } else s
  else
    let s := if u32 (s.cur_x + 8) > g.width then advanceLine g s else s
    { s with screen := drawCharNodirty font g s.screen c s.cur_x s.cur_y s.fg s.bg, cur_x := u32 (s.cur_x + 8) }

/-- The cursor is drawn again, drawn before or not. -/
def redrawCursor (g : Gpu) (s : State) : State :=
  if s.cursor_visible then { s.fill g s.cur_x (u32 (s.cur_y + 14)) 8 2 0xFFFFFFFF with cursor_drawn := true } else s

/-- What is marked after a character: from where it was drawn to where the cursor is. -/
def markFrom (s : State) (draw_x draw_y : Nat) : State :=
  s.mark draw_x draw_y (sub32 (u32 (s.cur_x + 8)) draw_x) (sub32 (u32 (s.cur_y + 16)) draw_y)

def plain (font : UInt8 → Nat → UInt8) (g : Gpu) (s : State) (c : UInt8) : State :=
  markFrom (redrawCursor g (place font g (eraseCursor g s) c)) s.cur_x s.cur_y

/-- A character outside of an escape sequence. -/
def putPlain (font : UInt8 → Nat → UInt8) (g : Gpu) (s : State) (c : UInt8) : State :=
  if c = 27 then { s with esc_state := .esc } else plain font g s c

def isParam (c : UInt8) : Bool := isDigit c || c = 59 || c = 63

def putc (font : UInt8 → Nat → UInt8) (g : Gpu) (s : State) (c : UInt8) : State :=
  match s.esc_state with
  | .normal => putPlain font g s c
  | .esc => if c = 91 then { s with esc_state := .csi, esc_buf := [] } else putPlain font g { s with esc_state := .normal } c
  | .csi =>
    if isParam c then if s.esc_buf.length < 15 then { s with esc_buf := s.esc_buf ++ [c] } else s
    else { handleCsi g s c s.esc_buf with esc_state := .normal }

def tick (g : Gpu) (s : State) : State :=
  if u32 (s.blink_counter + 1) < BLINK_INTERVAL then { s with blink_counter := u32 (s.blink_counter + 1) }
  else
    let s := { s with blink_counter := 0, cursor_visible := !s.cursor_visible }
    let s := if s.cursor_visible then drawCursor g s else eraseCursor g s
    s.mark s.cur_x (u32 (s.cur_y + 14)) 8 2

/-- `virtio_gpu_present`. The device refuses a rectangle that leaves the resource. -/
def present (g : Gpu) (s : State) (x y w h : Nat) : State :=
  if w = 0 ∨ h = 0 then s
  else if x + w ≤ g.width ∧ y + h ≤ g.fb_height then
    { s with shown := fun row col => if x ≤ col ∧ col < x + w ∧ y ≤ row ∧ row < y + h then px g s.screen.fb row col else s.shown row col }
  else s

def flushNow (g : Gpu) (s : State) : State :=
  if s.screen.dirty_valid then
    let d := s.screen.dirty
    present g { s with screen := { s.screen with dirty_valid := false, pan_changed := false } }
      d.x0 d.y0 (sub32 d.x1 d.x0) (sub32 d.y1 d.y0)
  else s

inductive Event
  | putc (c : UInt8)
  | tick
  | flush
deriving Repr, DecidableEq

def next (font : UInt8 → Nat → UInt8) (g : Gpu) (s : State) : Event → State
  | .putc c => putc font g s c
  | .tick => tick g s
  | .flush => flushNow g s

/-! ## What the cursor's drawing keeps -/

section

variable {g : Gpu} {s : State}

@[simp] theorem eraseCursor_cur_x : (eraseCursor g s).cur_x = s.cur_x := by
  unfold eraseCursor
  split_ifs <;> rfl

@[simp] theorem eraseCursor_cur_y : (eraseCursor g s).cur_y = s.cur_y := by
  unfold eraseCursor
  split_ifs <;> rfl

@[simp] theorem eraseCursor_visible : (eraseCursor g s).cursor_visible = s.cursor_visible := by
  unfold eraseCursor
  split_ifs <;> rfl

@[simp] theorem drawCursor_cur_x : (drawCursor g s).cur_x = s.cur_x := by
  unfold drawCursor
  split_ifs <;> rfl

@[simp] theorem drawCursor_cur_y : (drawCursor g s).cur_y = s.cur_y := by
  unfold drawCursor
  split_ifs <;> rfl

@[simp] theorem redrawCursor_cur_x : (redrawCursor g s).cur_x = s.cur_x := by
  unfold redrawCursor
  split_ifs <;> rfl

@[simp] theorem redrawCursor_cur_y : (redrawCursor g s).cur_y = s.cur_y := by
  unfold redrawCursor
  split_ifs <;> rfl

end

end GpuTty
