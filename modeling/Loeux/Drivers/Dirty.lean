import Loeux.Drivers.GpuTty
import Loeux.Drivers.Scroll
import Loeux.Lib.Runs
/-!
# What is drawn reaches the screen

A pixel of the window that differs from what the device was sent has to lie in
the pending rectangle. `Owes D` allows in addition the pixels of `D`: drawing
adds a cell to `D`, and the mark that follows has to cover it. The marks after a
character are computed from the cursor before and after it, so they cover what
was drawn only under the condition `Safe`.
-/

namespace GpuTty

open Kgfx

section

variable {font : UInt8 → Nat → UInt8} {g : Gpu} {s s' : State}

def Rect.Has (r : Rect) (row col : Nat) : Prop := r.x0 ≤ col ∧ col < r.x1 ∧ r.y0 ≤ row ∧ row < r.y1

/-- The pixel will be transferred by the next flush. -/
def Pending (s : State) (row col : Nat) : Prop := s.screen.dirty_valid = true ∧ Rect.Has s.screen.dirty row col

/-- The pixels of the window whose value was not sent are pending or in `D`. -/
def Owes (g : Gpu) (D : Nat → Nat → Prop) (s : State) : Prop :=
  ∀ row col, s.screen.pan_y ≤ row → row < s.screen.pan_y + g.height → col < g.width →
    px g s.screen.fb row col ≠ s.shown row col → Pending s row col ∨ D row col

/-- The pending rectangle lies in the buffer. -/
def Bounded (g : Gpu) (s : State) : Prop :=
  s.screen.dirty_valid = true → s.screen.dirty.x0 ≤ s.screen.dirty.x1 ∧ s.screen.dirty.x1 ≤ g.width ∧
    s.screen.dirty.y0 ≤ s.screen.dirty.y1 ∧ s.screen.dirty.y1 ≤ g.fb_height

/-- Everything drawn is pending. -/
structure Covered (g : Gpu) (s : State) : Prop where
  owes : ∀ row col, s.screen.pan_y ≤ row → row < s.screen.pan_y + g.height → col < g.width →
    px g s.screen.fb row col ≠ s.shown row col → Pending s row col
  bounded : Bounded g s

/-- Just after a flush. -/
structure Flushed (g : Gpu) (s : State) : Prop where
  none_pending : s.screen.dirty_valid = false
  window : s.screen.pan_y + g.height ≤ g.fb_height
  shown : ∀ row col, s.screen.pan_y ≤ row → row < s.screen.pan_y + g.height → col < g.width →
    px g s.screen.fb row col = s.shown row col

/-! ## The condition -/

def OnScreen (g : Gpu) (s : State) : Prop := s.cur_x + 8 ≤ g.width ∧ s.cur_y + 16 ≤ g.height

def Holds (s : State) (x y w h : Nat) : Prop :=
  s.screen.dirty_valid = true ∧ s.screen.dirty.x0 ≤ x ∧ x + w ≤ s.screen.dirty.x1 ∧
    s.screen.dirty.y0 ≤ y + s.screen.pan_y ∧ y + s.screen.pan_y + h ≤ s.screen.dirty.y1

/-- A character outside of escape sequences. -/
def SafePlain (g : Gpu) (s : State) (c : UInt8) : Prop :=
  OnScreen g s ∧
    if c = 13 then s.cur_x = 0 ∨ Holds s 0 s.cur_y (s.cur_x + 8) 16
    else if c = 10 then
      if s.cur_y + 32 ≤ g.height then
        s.cur_x = 0 ∨ Holds s 0 s.cur_y (s.cur_x + 8) 16 ∧ (s.cur_x = 8 → Holds s 0 s.cur_y 16 32)
      else g.height < s.screen.pan_y + 16 ∨ s.cursor_drawn = false ∨
        s.screen.dirty_valid = true ∧ s.screen.dirty.y0 ≤ s.cur_y + 14 + s.screen.pan_y
    else if c = 8 then
      s.cur_x < 8 ∨ (s.cursor_drawn = false ∧ s.cursor_visible = false) ∨ Holds s (s.cur_x - 8) s.cur_y 16 16
    else s.cur_x + 16 ≤ g.width

instance : Decidable (OnScreen g s) := inferInstanceAs (Decidable (_ ∧ _))

instance (x y w h : Nat) : Decidable (Holds s x y w h) := inferInstanceAs (Decidable (_ ∧ _))

instance (c : UInt8) : Decidable (SafePlain g s c) := inferInstanceAs (Decidable (_ ∧ _))

/-- The end of an escape sequence. -/
def SafeCsi (g : Gpu) (s : State) (c : UInt8) : Prop :=
  if c = 72 ∨ c = 102 then OnScreen g s ∧ (target g s.esc_buf).1 + 8 ≤ g.width ∧ (target g s.esc_buf).2 + 16 ≤ g.height
  else if c = 75 ∨ c = 108 ∨ c = 104 then OnScreen g s
  else True

def SafePut (g : Gpu) (s : State) (c : UInt8) : Prop :=
  match s.esc_state with
  | .normal => c = 27 ∨ SafePlain g s c
  | .esc => c = 91 ∨ c = 27 ∨ SafePlain g s c
  | .csi => isParam c = true ∨ SafeCsi g s c

/-- Before the event the cursor is on the screen, and the marks that the event
makes will cover what it draws. -/
def Safe (g : Gpu) (s : State) : Event → Prop
  | .putc c => SafePut g s c
  | .tick => OnScreen g s
  | .flush => True

/-! ## Drawing and marking -/

/-- Between the parts of an event. -/
structure Open (g : Gpu) (D : Nat → Nat → Prop) (s : State) : Prop where
  owes : Owes g D s
  bounded : Bounded g s
  pan : s.screen.pan_y ≤ g.height

/-- Only pixels of `D` may have changed, and nothing was marked. -/
structure Draws (g : Gpu) (s s' : State) (D : Nat → Nat → Prop) : Prop where
  pan : s'.screen.pan_y = s.screen.pan_y
  dirty : s'.screen.dirty = s.screen.dirty
  valid : s'.screen.dirty_valid = s.screen.dirty_valid
  shown : s'.shown = s.shown
  pixels : ∀ row col, col < g.width → ¬D row col → px g s'.screen.fb row col = px g s.screen.fb row col

structure Marks (s s' : State) : Prop where
  fb : s'.screen.fb = s.screen.fb
  pan : s'.screen.pan_y = s.screen.pan_y
  shown : s'.shown = s.shown
  grown : ∀ row col, Pending s row col → Pending s' row col

variable {D D' : Nat → Nat → Prop} {x y w h : Nat}

theorem Open.covered (h : Open g (fun _ _ => False) s) : Covered g s :=
  ⟨fun row col h1 h2 h3 h4 => (h.owes row col h1 h2 h3 h4).resolve_right id, h.bounded⟩

theorem Open.draw (ho : Open g D s) (h : Draws g s s' D') : Open g (fun row col => D row col ∨ D' row col) s' := by
  refine ⟨fun row col h1 h2 hc hne => ?_, ?_, h.pan ▸ ho.pan⟩
  · rw [h.pan] at h1 h2
    by_cases hD : D' row col
    · exact .inr (.inr hD)
    · rw [h.pixels row col hc hD, h.shown] at hne
      unfold Pending
      rw [h.dirty, h.valid]
      exact (ho.owes row col h1 h2 hc hne).imp_right .inl
  · unfold Bounded
    rw [h.dirty, h.valid]
    exact ho.bounded

theorem Draws.refl : Draws g s s D := ⟨rfl, rfl, rfl, rfl, fun _ _ _ _ => rfl⟩

theorem Draws.of_paints {sc : Screen} (hp : Paints g s.screen sc x y w h) (hs : s'.screen = sc) (hw : s'.shown = s.shown) :
    Draws g s s' (Cell s.screen.pan_y x y w h) := by
  subst hs
  exact ⟨hp.pan, hp.dirty, hp.valid, hw, hp.pixels⟩

theorem Open.close (ho : Open g D s) (hm : Marks s s') (hb : Bounded g s')
    (hD : ∀ row col, Cell s.screen.pan_y 0 0 g.width g.height row col → D row col → Pending s' row col) :
    Open g (fun _ _ => False) s' := by
  refine ⟨fun row col h1 h2 hc hne => .inl ?_, hb, hm.pan ▸ ho.pan⟩
  rw [hm.fb, hm.shown] at hne
  rw [hm.pan] at h1 h2
  refine (ho.owes row col h1 h2 hc hne).elim (hm.grown row col) (hD row col ⟨Nat.zero_le _, ?_, ?_, ?_⟩) <;> omega

theorem Marks.refl : Marks s s := ⟨rfl, rfl, rfl, fun _ _ h => h⟩

theorem mark_zero (h0 : w = 0 ∨ h = 0) : s.mark x y w h = s := by
  unfold State.mark markDirtyScreen markDirtyLocked
  rw [if_pos h0]

theorem mark_marks (s : State) (x y w h : Nat) : Marks s (s.mark x y w h) := by
  refine ⟨markDirtyLocked_fb _ _ _ _ _, markDirtyLocked_pan _ _ _ _ _, rfl, fun row col hp => ?_⟩
  by_cases h0 : w = 0 ∨ h = 0
  · rw [mark_zero h0]
    exact hp
  · obtain ⟨hv, h1, h2, h3, h4⟩ := hp
    rw [State.mark, markDirtyScreen, markDirtyLocked_eq (by omega) (by omega), Pending, Rect.Has, Screen.join, if_pos hv]
    dsimp only
    exact ⟨rfl, by omega, by omega, by omega, by omega⟩

section

variable (hp : s.screen.pan_y ≤ g.height)

include hp

theorem mark_inside (hb : Bounded g s) (hx : x + w ≤ g.width) (hy : y + h ≤ g.height) :
    Bounded g (s.mark x y w h) ∧ ∀ row col, Cell s.screen.pan_y x y w h row col → Pending (s.mark x y w h) row col := by
  have := g.backing
  have := g.height_lt
  have := g.width_lt
  by_cases h0 : w = 0 ∨ h = 0
  · rw [mark_zero h0]
    exact ⟨hb, fun row col ⟨h1, h2, h3, h4⟩ => by omega⟩
  · unfold Bounded Pending Rect.Has
    rw [State.mark, markDirtyScreen, markDirtyLocked_eq (by omega) (by omega), u32_of_lt (n := y + s.screen.pan_y) (by omega),
      u32_of_lt (n := x + w) (by omega), u32_of_lt (n := y + s.screen.pan_y + h) (by omega), Screen.join]
    split_ifs with hv
    · obtain ⟨h1, h2, h3, h4⟩ := hb hv
      dsimp only
      refine ⟨fun _ => ⟨by omega, by omega, by omega, by omega⟩, ?_⟩
      rintro row col ⟨h5, h6, h7, h8⟩
      exact ⟨rfl, by omega, by omega, by omega, by omega⟩
    · dsimp only
      refine ⟨fun _ => ⟨by omega, hx, by omega, by omega⟩, ?_⟩
      rintro row col ⟨h5, h6, h7, h8⟩
      exact ⟨rfl, h5, h6, h7, h8⟩

/-! ## The cursor -/

omit hp in
/-- The two rows of pixels where the cursor stands. -/
def Strip (s : State) : Nat → Nat → Prop := Cell s.screen.pan_y s.cur_x (s.cur_y + 14) 8 2

theorem fill_draws (hx : x + w < 2 ^ 32) (hy : y + h < 2 ^ 32) (color : UInt32) :
    Draws g s (s.fill g x y w h color) (Cell s.screen.pan_y x y w h) :=
  .of_paints (fillRect_paints hp hx hy color) rfl rfl

omit hp in
theorem OnScreen.lt (h : OnScreen g s) : s.cur_x + 8 < 2 ^ 32 ∧ s.cur_y + 16 < 2 ^ 32 := by
  have := g.backing
  have := g.height_lt
  have := g.width_lt
  obtain ⟨h1, h2⟩ := h
  omega

theorem strip_draws (hx : s.cur_x + 8 < 2 ^ 32) (hy : s.cur_y + 16 < 2 ^ 32)
    (color : UInt32) (hs : s'.screen = fillRectNodirty g s.screen s.cur_x (u32 (s.cur_y + 14)) 8 2 color)
    (hw : s'.shown = s.shown) : Draws g s s' (Strip s) := by
  rw [u32_of_lt (by omega)] at hs
  exact .of_paints (fillRect_paints hp hx (by omega) color) hs hw

theorem eraseCursor_draws (hc : OnScreen g s) :
    Draws g s (eraseCursor g s) fun row col => s.cursor_drawn = true ∧ Strip s row col := by
  unfold eraseCursor
  split_ifs with hd
  · have hdraws : Draws g s { s.fill g s.cur_x (u32 (s.cur_y + 14)) 8 2 s.bg with cursor_drawn := false } (Strip s) :=
      strip_draws hp hc.lt.1 hc.lt.2 s.bg rfl rfl
    exact ⟨hdraws.pan, hdraws.dirty, hdraws.valid, hdraws.shown, fun row col hcol h => hdraws.pixels row col hcol fun hs => h ⟨hd, hs⟩⟩
  · exact .refl

theorem drawCursor_draws (hx : s.cur_x + 8 < 2 ^ 32) (hy : s.cur_y + 16 < 2 ^ 32) :
    Draws g s (drawCursor g s) (Strip s) := by
  unfold drawCursor
  split_ifs
  · exact .refl
  · exact strip_draws hp hx hy _ rfl rfl

theorem showCursor_draws (hx : s.cur_x + 8 < 2 ^ 32) (hy : s.cur_y + 16 < 2 ^ 32) :
    Draws g s (showCursor g s) (Strip s) := by
  unfold showCursor
  split_ifs
  · exact drawCursor_draws hp hx hy
  · exact .refl

theorem redrawCursor_draws (hx : s.cur_x + 8 < 2 ^ 32) (hy : s.cur_y + 16 < 2 ^ 32) :
    Draws g s (redrawCursor g s) fun row col => s.cursor_visible = true ∧ Strip s row col := by
  unfold redrawCursor
  split_ifs with hv
  · have hdraws : Draws g s { s.fill g s.cur_x (u32 (s.cur_y + 14)) 8 2 0xFFFFFFFF with cursor_drawn := true } (Strip s) :=
      strip_draws hp hx hy 0xFFFFFFFF rfl rfl
    exact ⟨hdraws.pan, hdraws.dirty, hdraws.valid, hdraws.shown, fun row col hcol h => hdraws.pixels row col hcol fun hs => h ⟨hv, hs⟩⟩
  · exact .refl

end

theorem cell_mono {pan x' y' w' h' row col : Nat} (hx : x' ≤ x) (hw : x + w ≤ x' + w') (hy : y' ≤ y) (hh : y + h ≤ y' + h')
    (hc : Cell pan x y w h row col) : Cell pan x' y' w' h' row col := by
  obtain ⟨h1, h2, h3, h4⟩ := hc
  exact ⟨by omega, by omega, by omega, by omega⟩

section

variable (ho : Open g (fun _ _ => False) s)

include ho

theorem Open.drawn_marked (hd : Draws g s s' D) (hx : x + w ≤ g.width)
    (hy : y + h ≤ g.height) (hD : ∀ row col, D row col → Cell s.screen.pan_y x y w h row col) :
    Open g (fun _ _ => False) (s'.mark x y w h) := by
  have ho' := ho.draw hd
  obtain ⟨hb, hcell⟩ := mark_inside ho'.pan ho'.bounded hx hy
  refine ho'.close (mark_marks _ _ _ _ _) hb ?_
  rintro row col - (⟨⟨⟩⟩ | hrc)
  exact hcell row col (hd.pan ▸ hD row col hrc)

theorem Open.drawn_pending (hd : Draws g s s' D)
    (hD : ∀ row col, Cell s.screen.pan_y 0 0 g.width g.height row col → D row col → Pending s row col) :
    Open g (fun _ _ => False) s' := by
  have ho' := ho.draw hd
  refine ho'.close .refl ho'.bounded ?_
  rintro row col hin (⟨⟨⟩⟩ | hrc)
  unfold Pending
  rw [hd.valid, hd.dirty]
  exact hD row col (hd.pan ▸ hin) hrc

/-! ## The blink, the escape sequences and the flush -/

omit ho in
theorem Draws.trans {s'' : State} (h : Draws g s s' D) (h' : Draws g s' s'' D') :
    Draws g s s'' fun row col => D row col ∨ D' row col :=
  ⟨h'.pan.trans h.pan, h'.dirty.trans h.dirty, h'.valid.trans h.valid, h'.shown.trans h.shown, fun row col hc hn => by
    rw [h'.pixels row col hc fun hd => hn (.inr hd), h.pixels row col hc fun hd => hn (.inl hd)]⟩

omit ho in
theorem Draws.mono (h : Draws g s s' D) (hD : ∀ row col, D row col → D' row col) : Draws g s s' D' :=
  ⟨h.pan, h.dirty, h.valid, h.shown, fun row col hc hn => h.pixels row col hc fun hd => hn (hD row col hd)⟩

theorem Open.strip (hc : OnScreen g s) (hd : Draws g s s' (Strip s))
    (hx : s'.cur_x = s.cur_x) (hy : s'.cur_y = s.cur_y) :
    Open g (fun _ _ => False) (s'.mark s'.cur_x (u32 (s'.cur_y + 14)) 8 2) := by
  have hlt := hc.lt
  obtain ⟨h1, h2⟩ := hc
  rw [hx, hy, u32_of_lt (by omega)]
  exact ho.drawn_marked hd h1 (by omega) fun _ _ h => h

theorem tick_open (hc : OnScreen g s) : Open g (fun _ _ => False) (tick g s) := by
  unfold tick
  split_ifs with h1
  · exact ⟨ho.owes, ho.bounded, ho.pan⟩
  · have hblink : Open g (fun _ _ => False) { s with blink_counter := 0, cursor_visible := !s.cursor_visible } :=
      ⟨ho.owes, ho.bounded, ho.pan⟩
    dsimp only
    split_ifs with h2
    · exact hblink.strip hc (drawCursor_draws ho.pan hc.lt.1 hc.lt.2) drawCursor_cur_x drawCursor_cur_y
    · exact hblink.strip hc ((eraseCursor_draws hblink.pan hc).mono fun _ _ h => h.2) eraseCursor_cur_x eraseCursor_cur_y

theorem setVisible_open (hc : OnScreen g s) (on : Bool) : Open g (fun _ _ => False) (setVisible g s on) := by
  unfold setVisible
  dsimp only
  split_ifs
  · have hon : Open g (fun _ _ => False) { s with cursor_visible := true } := ⟨ho.owes, ho.bounded, ho.pan⟩
    exact hon.strip hc (drawCursor_draws ho.pan hc.lt.1 hc.lt.2) drawCursor_cur_x drawCursor_cur_y
  · refine Open.strip ho hc ?_ eraseCursor_cur_x eraseCursor_cur_y
    have hd := eraseCursor_draws ho.pan hc
    exact ⟨hd.pan, hd.dirty, hd.valid, hd.shown, fun row col hcol h => hd.pixels row col hcol fun hs => h hs.2⟩

theorem moveCursor_open (hc : OnScreen g s) {args : List UInt8}
    (hx : (target g args).1 + 8 ≤ g.width) (hy : (target g args).2 + 16 ≤ g.height) :
    Open g (fun _ _ => False) (moveCursor g s args) := by
  have := g.backing
  have := g.height_lt
  have := g.width_lt
  have hfirst := Open.strip ho hc ((eraseCursor_draws ho.pan hc).mono fun _ _ h => h.2) eraseCursor_cur_x eraseCursor_cur_y
  rw [eraseCursor_cur_x, eraseCursor_cur_y] at hfirst
  unfold moveCursor
  dsimp only
  generalize (eraseCursor g s).mark s.cur_x (u32 (s.cur_y + 14)) 8 2 = t at hfirst ⊢
  have hmoved : Open g (fun _ _ => False) { t with cur_x := (target g args).1, cur_y := (target g args).2 } :=
    ⟨hfirst.owes, hfirst.bounded, hfirst.pan⟩
  refine hmoved.drawn_marked (showCursor_draws hmoved.pan (by dsimp only; omega) (by dsimp only; omega)) hx hy ?_
  intro row col hs
  exact cell_mono (le_refl _) (le_refl _) (by dsimp only; omega) (by dsimp only; omega) hs

theorem eraseDisplay_open : Open g (fun _ _ => False) (eraseDisplay g s) := by
  have := g.backing
  have := g.height_lt
  have := g.width_lt
  have hfill : Draws g s { s.fill g 0 0 g.width g.height s.bg with cur_x := 0, cur_y := 0, cursor_drawn := false }
      (Cell s.screen.pan_y 0 0 g.width g.height) :=
    .of_paints (fillRect_paints ho.pan (by omega) (by omega) s.bg) rfl rfl
  have ho' := ho.draw hfill
  obtain ⟨-, hcell⟩ := mark_inside ho'.pan ho'.bounded (x := 0) (y := 0) (w := g.width) (h := g.height) (by omega) (by omega)
  have hopen := ho.drawn_marked hfill (x := 0) (y := 0) (w := g.width) (h := g.height) (by omega) (by omega) fun _ _ h => h
  refine hopen.drawn_pending (showCursor_draws hopen.pan (show 0 + 8 < 2 ^ 32 by decide) (show 0 + 16 < 2 ^ 32 by decide)) ?_
  intro row col hin _
  refine hcell row col ?_
  rw [(mark_marks _ _ _ _ _).pan] at hin
  exact hin

omit ho in
theorem lineSpan_spec (hc : OnScreen g s) (args : List UInt8) :
    (lineSpan g s args).1 ≤ s.cur_x ∧ s.cur_x + 8 ≤ (lineSpan g s args).2 ∧ (lineSpan g s args).2 ≤ g.width := by
  have hlt := hc.lt
  obtain ⟨h1, -⟩ := hc
  unfold lineSpan
  rw [u32_of_lt hlt.1]
  split_ifs <;> dsimp only <;> omega

theorem eraseLine_open (hc : OnScreen g s) (args : List UInt8) : Open g (fun _ _ => False) (eraseLine g s args) := by
  have := g.backing
  have := g.height_lt
  have := g.width_lt
  obtain ⟨hx0, hx1, hxw⟩ := lineSpan_spec hc args
  have hlt := hc.lt
  unfold eraseLine
  dsimp only
  rw [if_pos (by omega)]
  generalize (lineSpan g s args).1 = x0, (lineSpan g s args).2 = x1 at hx0 hx1 hxw ⊢
  have hy := hc.2
  have herase := eraseCursor_draws ho.pan hc
  have hfill : Draws g (eraseCursor g s) ((eraseCursor g s).fill g x0 s.cur_y (x1 - x0) 16 s.bg)
      (Cell (eraseCursor g s).screen.pan_y x0 s.cur_y (x1 - x0) 16) :=
    fill_draws (herase.pan ▸ ho.pan) (by omega) (by omega) s.bg
  have hdrawn := herase.trans hfill
  have ho' := ho.draw hdrawn
  obtain ⟨-, hcell⟩ := mark_inside ho'.pan ho'.bounded (x := x0) (y := s.cur_y) (w := x1 - x0) (h := 16) (by omega) (by omega)
  have hopen := ho.drawn_marked hdrawn (x := x0) (y := s.cur_y) (w := x1 - x0) (h := 16) (by omega) (by omega) (by
    rintro row col (⟨-, hs⟩ | hf)
    · exact cell_mono hx0 (by omega) (by omega) (by omega) hs
    · exact herase.pan ▸ hf)
  have hcx : (((eraseCursor g s).fill g x0 s.cur_y (x1 - x0) 16 s.bg).mark x0 s.cur_y (x1 - x0) 16).cur_x = s.cur_x :=
    eraseCursor_cur_x
  have hcy : (((eraseCursor g s).fill g x0 s.cur_y (x1 - x0) 16 s.bg).mark x0 s.cur_y (x1 - x0) 16).cur_y = s.cur_y :=
    eraseCursor_cur_y
  refine hopen.drawn_pending (showCursor_draws hopen.pan (by omega) (by omega)) ?_
  intro row col _ hs
  refine hcell row col ?_
  unfold Strip at hs
  rw [(mark_marks _ _ _ _ _).pan, hcx, hcy] at hs
  exact cell_mono hx0 (by omega) (by omega) (by omega) hs

omit ho in
theorem sub32_of_le {a b : Nat} (hab : b ≤ a) (ha : a < 2 ^ 32) : sub32 a b = a - b := by
  unfold sub32 u32
  omega

theorem flushNow_open : Open g (fun _ _ => False) (flushNow g s) := by
  have hw := g.width_lt
  have hh := g.height_lt
  unfold flushNow
  split_ifs with hv
  · obtain ⟨h1, h2, h3, h4⟩ := ho.bounded hv
    dsimp only
    rw [sub32_of_le h1 (by omega), sub32_of_le h3 (by omega)]
    unfold present
    split_ifs with h0 hin
    · refine ⟨fun row col hr1 hr2 hc hne => ?_, (fun hv' => nomatch hv'), ho.pan⟩
      obtain ⟨-, h5, h6, h7, h8⟩ := (ho.owes row col hr1 hr2 hc hne).resolve_right id
      omega
    · refine ⟨fun row col hr1 hr2 hc hne => ?_, (fun hv' => nomatch hv'), ho.pan⟩
      dsimp only at hne
      split_ifs at hne with hrect
      · exact absurd rfl hne
      · obtain ⟨-, h5, h6, h7, h8⟩ := (ho.owes row col hr1 hr2 hc hne).resolve_right id
        exact absurd ⟨h5, by omega, h7, by omega⟩ hrect
    · exact absurd ⟨by omega, by omega⟩ hin
  · exact ho

/-! ## Characters -/

omit ho in
theorem moved_draws (hp : s.screen.pan_y ≤ g.height) (hc : OnScreen g s) {nx ny : Nat} (hx : nx + 8 < 2 ^ 32) (hy : ny + 16 < 2 ^ 32) :
    Draws g s (redrawCursor g { eraseCursor g s with cur_x := nx, cur_y := ny }) fun row col =>
      (s.cursor_drawn = true ∧ Strip s row col) ∨ (s.cursor_visible = true ∧ Cell s.screen.pan_y nx (ny + 14) 8 2 row col) := by
  have herase := eraseCursor_draws hp hc
  have hredraw := redrawCursor_draws (g := g) (s := { eraseCursor g s with cur_x := nx, cur_y := ny }) (herase.pan ▸ hp) hx hy
  have hfrom : Draws g (eraseCursor g s) (redrawCursor g { eraseCursor g s with cur_x := nx, cur_y := ny }) _ :=
    ⟨hredraw.pan, hredraw.dirty, hredraw.valid, hredraw.shown, hredraw.pixels⟩
  refine (herase.trans hfrom).mono ?_
  rintro row col (hd | ⟨hv, hs⟩)
  · exact .inl hd
  · exact .inr ⟨eraseCursor_visible ▸ hv, herase.pan ▸ hs⟩

omit ho in
theorem markFrom_eq {dx dy : Nat} (hdx : dx < 2 ^ 32) (hx : s.cur_x + 8 < 2 ^ 32) (hdy : dy < s.cur_y + 16)
    (hy : s.cur_y + 16 + s.screen.pan_y < 2 ^ 32) :
    markFrom s dx dy = if dx = s.cur_x + 8 then s
      else { s with screen := { s.screen with
        dirty := s.screen.join ⟨dx, dy + s.screen.pan_y, s.cur_x + 8, s.cur_y + 16 + s.screen.pan_y⟩, dirty_valid := true } } := by
  have hw : u32 (dx + sub32 (u32 (s.cur_x + 8)) dx) = s.cur_x + 8 := by
    unfold sub32 u32
    omega
  have hh : u32 (u32 (dy + s.screen.pan_y) + sub32 (u32 (s.cur_y + 16)) dy) = s.cur_y + 16 + s.screen.pan_y := by
    unfold sub32 u32
    omega
  have hw0 : sub32 (u32 (s.cur_x + 8)) dx = 0 ↔ dx = s.cur_x + 8 := by
    unfold sub32 u32
    omega
  have hh0 : sub32 (u32 (s.cur_y + 16)) dy ≠ 0 := by
    unfold sub32 u32
    omega
  unfold markFrom
  split_ifs with h8
  · exact mark_zero (.inl (hw0.2 h8))
  · rw [State.mark, markDirtyScreen, markDirtyLocked_eq (fun h => h8 (hw0.1 h)) hh0, hw, hh, u32_of_lt (by omega)]

omit ho in
def moved (g : Gpu) (s : State) (nx ny : Nat) : State := redrawCursor g { eraseCursor g s with cur_x := nx, cur_y := ny }

theorem moved_down_open (hc : OnScreen g s) {ny : Nat} (hy : s.cur_y ≤ ny) (hny : ny + 16 ≤ g.height) :
    Open g (fun _ _ => False) (markFrom (moved g s s.cur_x ny) s.cur_x s.cur_y) := by
  have := g.backing
  have := g.height_lt
  have hlt := hc.lt
  have hx : (moved g s s.cur_x ny).cur_x = s.cur_x := redrawCursor_cur_x
  have hyy : (moved g s s.cur_x ny).cur_y = ny := redrawCursor_cur_y
  unfold markFrom
  rw [hx, hyy, u32_of_lt hlt.1, u32_of_lt (by omega), sub32_of_le (by omega) hlt.1, sub32_of_le (by omega) (by omega)]
  refine ho.drawn_marked (moved_draws ho.pan hc hlt.1 (by omega)) (by have := hc.1; omega) (by omega) ?_
  rintro row col (⟨-, hs⟩ | ⟨-, hs⟩)
  · exact cell_mono (le_refl _) (by omega) (by omega) (by omega) hs
  · exact cell_mono (le_refl _) (by omega) (by omega) (by omega) hs

omit ho in
theorem markFrom_valid (dx dy : Nat) (hdx : dx < 2 ^ 32) (hx : s.cur_x + 8 < 2 ^ 32) (hdy : dy < s.cur_y + 16)
    (hy : s.cur_y + 16 + s.screen.pan_y < 2 ^ 32) (hv : s.screen.dirty_valid = true) :
    (markFrom s dx dy).screen.dirty_valid = true ∧ (markFrom s dx dy).screen.dirty =
      if dx = s.cur_x + 8 then s.screen.dirty
      else ⟨min s.screen.dirty.x0 dx, min s.screen.dirty.y0 (dy + s.screen.pan_y), max s.screen.dirty.x1 (s.cur_x + 8),
        max s.screen.dirty.y1 (s.cur_y + 16 + s.screen.pan_y)⟩ := by
  rw [markFrom_eq hdx hx hdy hy]
  split_ifs
  · exact ⟨hv, rfl⟩
  · exact ⟨rfl, if_pos hv⟩

theorem moved_left_open (hc : OnScreen g s) {nx ny : Nat} (hx : nx ≤ s.cur_x)
    (hy : s.cur_y ≤ ny) (hny : ny + 16 ≤ g.height) (hh : Holds s nx s.cur_y (s.cur_x + 8 - nx) 16)
    (h8 : nx + 8 = s.cur_x → Holds s nx s.cur_y 16 (ny + 16 - s.cur_y)) :
    Open g (fun _ _ => False) (markFrom (moved g s nx ny) s.cur_x s.cur_y) := by
  have := g.backing
  have := g.height_lt
  have hlt := hc.lt
  have hp := ho.pan
  have hdraws : Draws g s (moved g s nx ny) _ := moved_draws ho.pan hc (by omega) (by omega)
  have hcx : (moved g s nx ny).cur_x = nx := redrawCursor_cur_x
  have hcy : (moved g s nx ny).cur_y = ny := redrawCursor_cur_y
  obtain ⟨hv, h1, h2, h3, h4⟩ := hh
  obtain ⟨hb1, hb2, hb3, hb4⟩ := ho.bounded hv
  have hmark := markFrom_valid (s := moved g s nx ny) s.cur_x s.cur_y (by omega) (by omega) (by omega)
    (by rw [hcy, hdraws.pan]; omega) (hdraws.valid.trans hv)
  rw [hcx, hcy, hdraws.dirty, hdraws.pan] at hmark
  have hmarks : Marks (moved g s nx ny) (markFrom (moved g s nx ny) s.cur_x s.cur_y) := mark_marks _ _ _ _ _
  refine (ho.draw hdraws).close hmarks ?_ ?_
  · intro _
    rw [hmark.2]
    split_ifs
    · exact ⟨hb1, hb2, hb3, hb4⟩
    · dsimp only
      omega
  · rintro row col - (⟨⟨⟩⟩ | hD)
    refine ⟨hmark.1, ?_⟩
    rw [hmark.2]
    -- both places of the cursor lie between the new column and the end of the old cell
    have hcell : nx ≤ col ∧ col < s.cur_x + 8 ∧ s.cur_y + s.screen.pan_y ≤ row ∧ row < ny + 16 + s.screen.pan_y := by
      rcases hD with ⟨-, h5, h6, h7, h8⟩ | ⟨-, h5, h6, h7, h8⟩ <;> omega
    unfold Rect.Has
    split_ifs with h
    · obtain ⟨-, h5, h6, h7, h8⟩ := h8 h.symm
      omega
    · dsimp only
      omega

omit ho in
theorem drawn_draws (font : UInt8 → Nat → UInt8) (hp : s.screen.pan_y ≤ g.height) (hx : s.cur_x + 8 ≤ g.width) (c : UInt8) (fg bg : UInt32) (nx : Nat) :
    Draws g s { s with screen := drawCharNodirty font g s.screen c s.cur_x s.cur_y fg bg, cur_x := nx }
      (Cell s.screen.pan_y s.cur_x s.cur_y 8 16) :=
  .of_paints (drawChar_paints font hp hx c fg bg) rfl rfl

variable {c : UInt8}

theorem print_open (hc : OnScreen g s) (hx : s.cur_x + 16 ≤ g.width)
    (h13 : c ≠ 13) (h10 : c ≠ 10) (h8 : c ≠ 8) : Open g (fun _ _ => False) (plain font g s c) := by
  have := g.backing
  have := g.height_lt
  have := g.width_lt
  have hlt := hc.lt
  have hy := hc.2
  have herase := eraseCursor_draws ho.pan hc
  have hcx : (eraseCursor g s).cur_x = s.cur_x := eraseCursor_cur_x
  have hcy : (eraseCursor g s).cur_y = s.cur_y := eraseCursor_cur_y
  unfold plain place
  rw [if_neg h13, if_neg h10, if_neg h8, if_neg (by rw [hcx, u32_of_lt hlt.1]; omega)]
  dsimp only
  generalize eraseCursor g s = t at herase hcx hcy ⊢
  rw [u32_of_lt (by omega)]
  have hglyph := drawn_draws font (herase.pan ▸ ho.pan) (by omega) c t.fg t.bg (t.cur_x + 8)
  generalize ht' : ({ t with screen := drawCharNodirty font g t.screen c t.cur_x t.cur_y t.fg t.bg, cur_x := t.cur_x + 8 } : State) = t'
    at hglyph ⊢
  have hcx' : t'.cur_x = s.cur_x + 8 := by rw [← ht', hcx]
  have hcy' : t'.cur_y = s.cur_y := by rw [← ht', hcy]
  have hdrawn := herase.trans hglyph
  have hall := hdrawn.trans (redrawCursor_draws (hdrawn.pan ▸ ho.pan) (by omega) (by omega))
  unfold markFrom
  rw [redrawCursor_cur_x, redrawCursor_cur_y, hcx', hcy', u32_of_lt (by omega), u32_of_lt (by omega),
    sub32_of_le (by omega) (by omega), sub32_of_le (by omega) (by omega)]
  refine ho.drawn_marked hall (by omega) (by omega) ?_
  rintro row col ((⟨-, hs⟩ | hs) | ⟨-, hs⟩)
  · exact cell_mono (le_refl _) (by omega) (by omega) (by omega) hs
  · rw [herase.pan] at hs
    exact cell_mono (by omega) (by omega) (by omega) (by omega) hs
  · unfold Strip at hs
    rw [hdrawn.pan] at hs
    exact cell_mono (by omega) (by omega) (by omega) (by omega) hs

/-! ## Scrolling by a line -/

omit ho in
theorem wraps_iff {sc : Screen} (hp : sc.pan_y ≤ g.height) (h16 : g.height % 16 = 0) :
    wraps g sc 16 ↔ g.height < sc.pan_y + 16 := by
  have := g.backing
  have := g.height_lt
  unfold wraps
  rw [u32_of_lt (by omega)]
  omega

omit ho in
theorem scrolled_back (hH : 16 ≤ g.height) {sc : Screen} (bg : UInt32) (hw : wraps g sc 16) :
    (scrollUp g sc 16 bg).pan_y = 0 ∧ (scrollUp g sc 16 bg).dirty_valid = true ∧
      (scrollUp g sc 16 bg).dirty = ⟨0, 0, g.width, g.height⟩ := by
  have hpan : (fillBand g (moveWindow g sc 16) 16 bg).pan_y = 0 := by
    show (moveWindow g sc 16).pan_y = 0
    rw [moveWindow, if_pos hw]
  rw [scrollUp, if_neg (by omega), markBand, if_pos hpan]
  exact ⟨hpan, rfl, rfl⟩

omit ho in
theorem scrolled_down (hH : 16 ≤ g.height) (hW : 0 < g.width) {sc : Screen} (bg : UInt32) (hn : ¬wraps g sc 16)
    (hp : sc.pan_y + 16 ≤ g.height) :
    (scrollUp g sc 16 bg).pan_y = sc.pan_y + 16 ∧ (scrollUp g sc 16 bg).dirty_valid = true ∧
      (scrollUp g sc 16 bg).dirty = sc.join ⟨0, sc.pan_y + g.height, g.width, sc.pan_y + g.height + 16⟩ ∧
      ∀ row col, row < sc.pan_y + g.height → sc.pan_y + 16 ≤ row → col < g.width →
        px g (scrollUp g sc 16 bg).fb row col = px g sc.fb row col := by
  have := g.backing
  have := g.height_lt
  have := g.width_lt
  have hmove : moveWindow g sc 16 = { sc with pan_y := sc.pan_y + 16 } := by
    rw [moveWindow, if_neg hn, u32_of_lt (by omega)]
  have hpan : (fillBand g (moveWindow g sc 16) 16 bg).pan_y = sc.pan_y + 16 := by
    rw [hmove]
    rfl
  have hmark : markBand g (fillBand g (moveWindow g sc 16) 16 bg) 16 =
      markDirtyLocked (fillBand g (moveWindow g sc 16) 16 bg) 0 (sc.pan_y + g.height) g.width 16 := by
    rw [markBand, if_neg (by omega), hpan, show sc.pan_y + 16 + g.height - 16 = sc.pan_y + g.height by omega, u32_of_lt (by omega)]
  refine ⟨by rw [scrollUp_pan (by omega) hH, hmove], ?_, ?_, fun row col hlt hle hc => ?_⟩
  · rw [scrollUp, if_neg (by omega), hmark, markDirtyLocked_eq (by omega) (by omega)]
  · rw [scrollUp, if_neg (by omega), hmark, markDirtyLocked_eq (by omega) (by omega), u32_of_lt (by omega), u32_of_lt (by omega),
      Nat.zero_add, hmove]
    rfl
  · have habove : px g (fillBand g { sc with pan_y := sc.pan_y + 16 } 16 bg).fb (sc.pan_y + 16 + (row - (sc.pan_y + 16))) col =
        px g sc.fb (sc.pan_y + 16 + (row - (sc.pan_y + 16))) col := px_above hp (by omega) hc
    rw [show sc.pan_y + 16 + (row - (sc.pan_y + 16)) = row by omega] at habove
    rw [scrollUp_fb (by omega) hH, hmove]
    exact habove

omit ho in
/-- The pending rectangle is as wide as the screen and reaches its last line. -/
structure Wide (g : Gpu) (s : State) : Prop where
  valid : s.screen.dirty_valid = true
  x0 : s.screen.dirty.x0 = 0
  x1 : s.screen.dirty.x1 = g.width
  y0 : s.screen.dirty.y0 + 16 ≤ s.screen.pan_y + g.height
  y1 : s.screen.pan_y + g.height ≤ s.screen.dirty.y1

omit ho in
/-- A scroll leaves a wide rectangle. Unless the window moved back, what was owed is
owed still, and what was pending is pending. -/
theorem scrolled_open (ho : Open g D s) (hH : 16 ≤ g.height) (hW : 0 < g.width) (h16 : g.height % 16 = 0) (bg : UInt32)
    (hs : s'.screen = scrollUp g s.screen 16 bg) (hw : s'.shown = s.shown) :
    Wide g s' ∧ Open g (fun row col => s.screen.pan_y + 16 ≤ g.height ∧ D row col) s' ∧
      (s.screen.pan_y + 16 ≤ g.height → s'.screen.pan_y = s.screen.pan_y + 16 ∧
        (s.screen.dirty_valid = true → s'.screen.dirty.y0 ≤ s.screen.dirty.y0)) := by
  have hback := g.backing
  have hwrap := wraps_iff ho.pan h16
  by_cases hfar : g.height < s.screen.pan_y + 16
  · obtain ⟨hpan, hv, hd⟩ := scrolled_back hH bg (hwrap.2 hfar)
    rw [← hs] at hpan hv hd
    have hx0 : s'.screen.dirty.x0 = 0 := by rw [hd]
    have hx1 : s'.screen.dirty.x1 = g.width := by rw [hd]
    have hy0 : s'.screen.dirty.y0 = 0 := by rw [hd]
    have hy1 : s'.screen.dirty.y1 = g.height := by rw [hd]
    refine ⟨⟨hv, hx0, hx1, by omega, by omega⟩, ⟨fun row col h1 h2 hc _ => .inl ⟨hv, ?_⟩, fun _ => ?_, by omega⟩, by omega⟩
    · exact ⟨by omega, by omega, by omega, by omega⟩
    · exact ⟨by omega, by omega, by omega, by omega⟩
  · obtain ⟨hpan, hv, hd, hpx⟩ := scrolled_down hH hW bg (fun h => hfar (hwrap.1 h)) (by omega)
    rw [← hs] at hpan hv hd hpx
    have hrect : s'.screen.dirty.x0 = 0 ∧ s'.screen.dirty.x1 = g.width ∧ s'.screen.dirty.y0 ≤ s.screen.pan_y + g.height ∧
        s.screen.pan_y + g.height + 16 ≤ s'.screen.dirty.y1 ∧ s'.screen.dirty.y1 ≤ g.fb_height ∧
        (s.screen.dirty_valid = true → s'.screen.dirty.y0 ≤ s.screen.dirty.y0 ∧ s.screen.dirty.y1 ≤ s'.screen.dirty.y1) := by
      rw [hd, Screen.join]
      split_ifs with hv0
      · obtain ⟨h1, h2, h3, h4⟩ := ho.bounded hv0
        dsimp only
        exact ⟨by omega, by omega, by omega, by omega, by omega, fun _ => ⟨by omega, by omega⟩⟩
      · dsimp only
        exact ⟨rfl, rfl, le_refl _, le_refl _, by omega, fun h => absurd h hv0⟩
    obtain ⟨hx0, hx1, hy0, hy1, hfb, hgrown⟩ := hrect
    refine ⟨⟨hv, hx0, hx1, by omega, by omega⟩, ⟨fun row col h1 h2 hc hne => ?_, fun _ => ?_, by omega⟩, fun _ => ⟨hpan, fun h => (hgrown h).1⟩⟩
    · by_cases hold : row < s.screen.pan_y + g.height
      · rw [hpx row col hold (by omega) hc, hw] at hne
        rcases ho.owes row col (by omega) (by omega) hc hne with ⟨hv0, h3, h4, h5, h6⟩ | hD
        · obtain ⟨hg0, hg1⟩ := hgrown hv0
          exact .inl ⟨hv, by omega, by omega, by omega, by omega⟩
        · exact .inr ⟨by omega, hD⟩
      · exact .inl ⟨hv, by omega, by omega, by omega, by omega⟩
    · exact ⟨by omega, by omega, by omega, hfb⟩

theorem scroll_open (hc : OnScreen g s) (h16 : g.height % 16 = 0) (hlast : ¬s.cur_y + 32 ≤ g.height)
    (hsafe : g.height < s.screen.pan_y + 16 ∨ s.cursor_drawn = false ∨
      s.screen.dirty_valid = true ∧ s.screen.dirty.y0 ≤ s.cur_y + 14 + s.screen.pan_y) :
    Open g (fun _ _ => False) (markFrom (redrawCursor g (advanceLine g (eraseCursor g s))) s.cur_x s.cur_y) := by
  have := g.backing
  have := g.height_lt
  have := g.width_lt
  have hlt := hc.lt
  obtain ⟨hx, hy⟩ := id hc
  have herase := eraseCursor_draws ho.pan hc
  have hp := ho.pan
  have hscroll : u32 (u32 ((eraseCursor g s).cur_y + 16) + 16) > g.height := by
    rw [eraseCursor_cur_y, u32_of_lt (n := s.cur_y + 16) (by omega), u32_of_lt (by omega)]
    omega
  rw [advanceLine, if_pos hscroll, sub32_of_le (by omega) (by omega)]
  generalize ht : ({ eraseCursor g s with screen := scrollUp g (eraseCursor g s).screen 16 (eraseCursor g s).bg, cur_x := 0, cur_y := g.height - 16 } : State) = t
  have hcx : t.cur_x = 0 := by rw [← ht]
  have hcy : t.cur_y = g.height - 16 := by rw [← ht]
  obtain ⟨hwide, howes, hkept⟩ := scrolled_open (ho.draw herase) (by omega) (by omega) h16 (eraseCursor g s).bg
    (show t.screen = _ by rw [← ht]) (show t.shown = _ by rw [← ht])
  rw [herase.pan, herase.valid, herase.dirty] at hkept
  rw [herase.pan] at howes
  -- the erased cursor is above the new line; it was pending, or the whole window is
  have hclean : Open g (fun _ _ => False) t := by
    refine howes.close .refl howes.bounded ?_
    rintro row col - ⟨hnear, ⟨⟨⟩⟩ | ⟨hdrawn, h1, h2, h3, h4⟩⟩
    rcases hsafe with hfar | hnot | ⟨hv, hy0⟩
    · omega
    · rw [hnot] at hdrawn
      cases hdrawn
    · obtain ⟨hpan, hy⟩ := hkept hnear
      have := hy hv
      have := hwide.x0
      have := hwide.x1
      have := hwide.y1
      exact ⟨hwide.valid, by omega, by omega, by omega, by omega⟩
  have hredraw := redrawCursor_draws hclean.pan (s := t) (by omega) (by omega)
  have hshown := hclean.drawn_pending hredraw (by
    rintro row col - ⟨-, h1, h2, h3, h4⟩
    have := hwide.x0
    have := hwide.x1
    have := hwide.y0
    have := hwide.y1
    exact ⟨hwide.valid, by omega, by omega, by omega, by omega⟩)
  have hmarks : Marks (redrawCursor g t) (markFrom (redrawCursor g t) s.cur_x s.cur_y) := mark_marks _ _ _ _ _
  refine hshown.close hmarks ?_ fun _ _ _ h => h.elim
  have hpan := hclean.pan
  have hmark := markFrom_valid (s := redrawCursor g t) s.cur_x s.cur_y (by omega) (by rw [redrawCursor_cur_x]; omega)
    (by rw [redrawCursor_cur_y]; omega) (by rw [redrawCursor_cur_y, hredraw.pan]; omega) (hredraw.valid.trans hwide.valid)
  rw [redrawCursor_cur_x, redrawCursor_cur_y, hredraw.dirty, hredraw.pan] at hmark
  obtain ⟨h1, h2, h3, h4⟩ := hclean.bounded hwide.valid
  intro _
  rw [hmark.2]
  split_ifs
  · exact ⟨h1, h2, h3, h4⟩
  · dsimp only
    omega

/-! ## Every event -/

theorem backspace_open (hc : OnScreen g s) (h8 : c = 8)
    (hs : s.cur_x < 8 ∨ (s.cursor_drawn = false ∧ s.cursor_visible = false) ∨ Holds s (s.cur_x - 8) s.cur_y 16 16) :
    Open g (fun _ _ => False) (plain font g s c) := by
  subst h8
  have := g.backing
  have := g.height_lt
  have hp := ho.pan
  have hy := hc.2
  have hlt := hc.lt
  by_cases hx : 8 ≤ s.cur_x
  · have hplain : plain font g s 8 = markFrom (moved g s (s.cur_x - 8) s.cur_y) s.cur_x s.cur_y := by
      rw [plain, place, if_neg (by decide), if_neg (by decide), if_pos rfl, eraseCursor_cur_x, if_pos hx, moved,
        ← eraseCursor_cur_y (g := g) (s := s)]
    rw [hplain]
    rcases hs with h0 | ⟨hnot, hnone⟩ | hh
    · omega
    · -- nothing is drawn and nothing marked
      have hdraws : Draws g s (moved g s (s.cur_x - 8) s.cur_y) _ := moved_draws ho.pan hc (by omega) (by omega)
      have hsame := ho.drawn_pending hdraws (by
        rintro row col - (⟨hd, -⟩ | ⟨hv, -⟩)
        · rw [hnot] at hd
          cases hd
        · rw [hnone] at hv
          cases hv)
      have hcx : (moved g s (s.cur_x - 8) s.cur_y).cur_x = s.cur_x - 8 := redrawCursor_cur_x
      have hcy : (moved g s (s.cur_x - 8) s.cur_y).cur_y = s.cur_y := redrawCursor_cur_y
      rw [markFrom_eq (by omega) (by omega) (by omega) (by rw [hcy, hdraws.pan]; omega), if_pos (by omega)]
      exact hsame
    · refine moved_left_open ho hc (Nat.sub_le _ _) (le_refl _) hy ?_ fun _ => ?_
      · rwa [show s.cur_x + 8 - (s.cur_x - 8) = 16 by omega]
      · rwa [show s.cur_y + 16 - s.cur_y = 16 by omega]
  · have hplain : plain font g s 8 = markFrom (moved g s s.cur_x s.cur_y) s.cur_x s.cur_y := by
      rw [plain, place, if_neg (by decide), if_neg (by decide), if_pos rfl, eraseCursor_cur_x, if_neg hx, moved,
        ← eraseCursor_cur_y (g := g) (s := s), ← eraseCursor_cur_x (g := g) (s := s)]
    rw [hplain]
    exact moved_down_open ho hc (le_refl _) hy

theorem plain_open (h16 : g.height % 16 = 0) (hs : SafePlain g s c) : Open g (fun _ _ => False) (plain font g s c) := by
  obtain ⟨hc, hs⟩ := hs
  obtain ⟨hx, hy⟩ := id hc
  have hlt := hc.lt
  split_ifs at hs with h13 h10 hrow h8
  · -- carriage return
    have hplain : plain font g s c = markFrom (moved g s 0 s.cur_y) s.cur_x s.cur_y := by
      rw [plain, place, if_pos h13, moved, ← eraseCursor_cur_y (g := g) (s := s)]
    rw [hplain]
    rcases hs with h0 | hh
    · have := moved_down_open ho hc (le_refl s.cur_y) hy
      rwa [h0] at this ⊢
    · refine moved_left_open ho hc (Nat.zero_le _) (le_refl _) hy hh fun h8 => ?_
      rw [← h8] at hh
      rwa [show s.cur_y + 16 - s.cur_y = 16 by omega]
  · -- line feed
    have hnear : ¬u32 (u32 (s.cur_y + 16) + 16) > g.height := by
      have := g.backing
      have := g.height_lt
      rw [u32_of_lt hlt.2, u32_of_lt (by omega)]
      omega
    have hplain : plain font g s c = markFrom (moved g s 0 (s.cur_y + 16)) s.cur_x s.cur_y := by
      rw [plain, place, if_neg h13, if_pos h10, advanceLine, eraseCursor_cur_y, if_neg hnear, u32_of_lt hlt.2, moved]
    rw [hplain]
    rcases hs with h0 | ⟨hh, h8⟩
    · have := moved_down_open ho hc (Nat.le_add_right s.cur_y 16) hrow
      rwa [h0] at this ⊢
    · refine moved_left_open ho hc (Nat.zero_le _) (Nat.le_add_right _ _) hrow hh fun h => ?_
      rw [show s.cur_y + 16 + 16 - s.cur_y = 32 by omega]
      exact h8 h.symm
  · -- line feed on the last line
    have hplain : plain font g s c = markFrom (redrawCursor g (advanceLine g (eraseCursor g s))) s.cur_x s.cur_y := by
      rw [plain, place, if_neg h13, if_pos h10]
    rw [hplain]
    exact scroll_open ho hc h16 hrow hs
  · exact backspace_open ho hc h8 hs
  · exact print_open ho hc hs h13 h10 h8

theorem handleCsi_open (hs : SafeCsi g s c) : Open g (fun _ _ => False) (handleCsi g s c s.esc_buf) := by
  unfold SafeCsi at hs
  unfold handleCsi
  split_ifs with hJ h2 hH hK hlh h25 hm
  · exact eraseDisplay_open ho
  · exact ho
  · rw [if_pos hH] at hs
    exact moveCursor_open ho hs.1 hs.2.1 hs.2.2
  · rw [if_neg hH, if_pos (.inl hK)] at hs
    exact eraseLine_open ho hs _
  · rw [if_neg hH, if_pos (.inr hlh)] at hs
    exact setVisible_open ho hs _
  · exact ho
  · exact ⟨ho.owes, ho.bounded, ho.pan⟩
  · exact ho

theorem putPlain_open (h16 : g.height % 16 = 0) (hs : c = 27 ∨ SafePlain g s c) :
    Open g (fun _ _ => False) (putPlain font g s c) := by
  unfold putPlain
  split_ifs with h27
  · exact ⟨ho.owes, ho.bounded, ho.pan⟩
  · exact plain_open ho h16 (hs.resolve_left h27)

theorem putc_open (h16 : g.height % 16 = 0) (hs : SafePut g s c) : Open g (fun _ _ => False) (putc font g s c) := by
  unfold SafePut at hs
  unfold putc
  cases hesc : s.esc_state with
  | normal =>
    rw [hesc] at hs
    exact putPlain_open ho h16 hs
  | esc =>
    rw [hesc] at hs
    dsimp only at hs ⊢
    split_ifs with h91
    · exact ⟨ho.owes, ho.bounded, ho.pan⟩
    · have ho' : Open g (fun _ _ => False) { s with esc_state := .normal } := ⟨ho.owes, ho.bounded, ho.pan⟩
      exact putPlain_open ho' h16 (hs.resolve_left h91)
  | csi =>
    rw [hesc] at hs
    dsimp only at hs ⊢
    split_ifs with hparam hroom
    · exact ⟨ho.owes, ho.bounded, ho.pan⟩
    · exact ho
    · have hcsi := handleCsi_open ho (hs.resolve_left hparam)
      exact ⟨hcsi.owes, hcsi.bounded, hcsi.pan⟩

theorem next_open (h16 : g.height % 16 = 0) {e : Event} (hs : Safe g s e) :
    Open g (fun _ _ => False) (next font g s e) := by
  cases e with
  | putc c => exact putc_open ho h16 hs
  | tick => exact tick_open ho hs
  | flush => exact flushNow_open ho

end

theorem Flushed.opens (h : Flushed g s) : Open g (fun _ _ => False) s := by
  have := g.backing
  refine ⟨fun row col h1 h2 hc hne => absurd (h.shown row col h1 h2 hc) hne, fun hv => ?_, by have := h.window; omega⟩
  rw [h.none_pending] at hv
  cases hv

/-- In every run of characters, blinks and flushes whose events are all safe,
everything drawn is pending in every state. -/
theorem drawn_is_pending (h16 : g.height % 16 = 0) {es : List Event} (h0 : Flushed g s)
    (hr : Lib.Run (Lib.Guarded (Safe g) fun s e s' => s' = next font g s e) s es s') : Covered g s' := by
  refine (hr.inv (Open g fun _ _ => False) ?_ h0.opens).covered
  rintro s e s' ho hs rfl
  exact next_open ho h16 hs

end

namespace DirtySample

/-- A screen of four by two characters, a blank font and a black picture. -/
def gpu : Gpu := ⟨32, 32, 64, rfl, by decide, by decide, by decide⟩

def blank : UInt8 → Nat → UInt8 := fun _ _ => 0

def start : State := { screen := { fb := fun _ => ANSI_BG_DEFAULT }, shown := fun _ _ => ANSI_BG_DEFAULT }

theorem start_flushed : Flushed gpu start := ⟨rfl, by decide, fun _ _ _ _ _ => rfl⟩

def printed : State := next blank gpu (next blank gpu start (.putc 65)) .flush

/-- A backspace after a flush moves the cursor and marks nothing. -/
theorem backspace_not_pending : Flushed gpu start ∧ ¬Covered gpu (next blank gpu printed (.putc 8)) := by
  refine ⟨start_flushed, fun h => ?_⟩
  have hpending := h.owes 14 0 (by decide +kernel) (by decide +kernel) (by decide) (by decide +kernel)
  exact absurd hpending.1 (by decide +kernel)

/-- A character, a carriage return and a line feed before the flush are pending until then. -/
theorem line_is_pending : gpu.height % 16 = 0 ∧ Flushed gpu start ∧
    ∃ s', Lib.Run (Lib.Guarded (Safe gpu) fun s e s' => s' = next blank gpu s e) start
      [.putc 65, .putc 13, .putc 10, .flush] s' ∧ Covered gpu s' := by
  have hr : Lib.Run (Lib.Guarded (Safe gpu) fun s e s' => s' = next blank gpu s e) start [.putc 65, .putc 13, .putc 10, .flush]
      (next blank gpu (next blank gpu (next blank gpu (next blank gpu start (.putc 65)) (.putc 13)) (.putc 10)) .flush) := by
    have h1 : SafePlain gpu start 65 := by decide +kernel
    have h2 : SafePlain gpu (next blank gpu start (.putc 65)) 13 := by decide +kernel
    have h3 : SafePlain gpu (next blank gpu (next blank gpu start (.putc 65)) (.putc 13)) 10 := by decide +kernel
    exact .cons ⟨.inr h1, rfl⟩ (.cons ⟨.inr h2, rfl⟩ (.cons ⟨.inr h3, rfl⟩ (.cons ⟨trivial, rfl⟩ (.nil _))))
  exact ⟨by decide, start_flushed, _, hr, drawn_is_pending (by decide) start_flushed hr⟩

end DirtySample

end GpuTty
