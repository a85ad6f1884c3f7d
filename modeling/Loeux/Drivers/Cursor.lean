import Mathlib
import Loeux.Drivers.GpuTty
import Loeux.Lib.Stream
/-!
# The cursor of the terminal stays on the screen

A cursor address is multiplied by the size of a cell in 32 bits. The last cell of
that range passes the comparison with the screen, since its right or lower edge
is 0 there, so the streams that keep the cursor on the screen are those without
such an address.
-/

namespace GpuTty

open Kgfx Nat

/-- A screen of whole cells. -/
structure Cells (g : Gpu) : Prop where
  width_dvd : 8 ∣ g.width
  height_dvd : 16 ∣ g.height
  width_ge : 8 ≤ g.width
  height_ge : 16 ≤ g.height

/-- The cursor is at a cell of the screen, or right of the last one of its line. -/
structure Within (g : Gpu) (s : State) : Prop where
  x_le : s.cur_x ≤ g.width
  y_le : s.cur_y + 16 ≤ g.height
  x_cell : 8 ∣ s.cur_x
  y_cell : 16 ∣ s.cur_y
  esc_len : s.esc_buf.length ≤ 15

/-- The byte ends a cursor address whose column or row is the last one of 32 bits.
A screen that is as wide as that has the column. -/
def Overshoots (g : Gpu) (s : State) (c : UInt8) : Prop :=
  s.esc_state = .csi ∧ (c = 72 ∨ c = 102) ∧
    (2 ^ 29 ∣ max (parseTwo s.esc_buf 1 1).2 1 ∧ g.width + 8 < 2 ^ 32 ∨ 2 ^ 28 ∣ max (parseTwo s.esc_buf 1 1).1 1)

instance (g : Gpu) (s : State) (c : UInt8) : Decidable (Overshoots g s c) := by
  unfold Overshoots
  infer_instance

/-- The state after a stream. -/
def puts (font : UInt8 → Nat → UInt8) (g : Gpu) (s : State) (bytes : List UInt8) : State := bytes.foldl (putc font g) s

section

variable {font : UInt8 → Nat → UInt8} {g : Gpu} {s s' : State} {c : UInt8} {args : List UInt8}

structure Keeps (s s' : State) : Prop where
  x : s'.cur_x = s.cur_x
  y : s'.cur_y = s.cur_y
  buf : s'.esc_buf = s.esc_buf

theorem Keeps.refl : Keeps s s := ⟨rfl, rfl, rfl⟩

theorem Keeps.trans {s'' : State} (h : Keeps s s') (h' : Keeps s' s'') : Keeps s s'' :=
  ⟨h'.x.trans h.x, h'.y.trans h.y, h'.buf.trans h.buf⟩

theorem Keeps.within_iff (h : Keeps s s') : Within g s' ↔ Within g s := by
  constructor
  · rintro ⟨h1, h2, h3, h4, h5⟩
    rw [h.x] at h1 h3
    rw [h.y] at h2 h4
    rw [h.buf] at h5
    exact ⟨h1, h2, h3, h4, h5⟩
  · rintro ⟨h1, h2, h3, h4, h5⟩
    exact ⟨h.x ▸ h1, h.y ▸ h2, h.x ▸ h3, h.y ▸ h4, h.buf ▸ h5⟩

theorem eraseCursor_keeps : Keeps s (eraseCursor g s) :=
  ⟨eraseCursor_cur_x, eraseCursor_cur_y, by unfold eraseCursor; split_ifs <;> rfl⟩

theorem drawCursor_keeps : Keeps s (drawCursor g s) :=
  ⟨drawCursor_cur_x, drawCursor_cur_y, by unfold drawCursor; split_ifs <;> rfl⟩

theorem redrawCursor_keeps : Keeps s (redrawCursor g s) :=
  ⟨redrawCursor_cur_x, redrawCursor_cur_y, by unfold redrawCursor; split_ifs <;> rfl⟩

theorem showCursor_keeps : Keeps s (showCursor g s) := by
  unfold showCursor
  split_ifs
  · exact drawCursor_keeps
  · exact .refl

theorem mark_keeps (x y w h : Nat) : Keeps s (s.mark x y w h) := ⟨rfl, rfl, rfl⟩

theorem fill_keeps (x y w h : Nat) (color : UInt32) : Keeps s (s.fill g x y w h color) := ⟨rfl, rfl, rfl⟩

theorem eraseLine_keeps : Keeps s (eraseLine g s args) := by
  unfold eraseLine
  dsimp only
  split_ifs
  · exact eraseCursor_keeps.trans ((fill_keeps _ _ _ _ _).trans ((mark_keeps _ _ _ _).trans showCursor_keeps))
  · exact .refl

theorem visible_keeps (on : Bool) : Keeps s { s with cursor_visible := on } := ⟨rfl, rfl, rfl⟩

theorem setVisible_keeps (on : Bool) : Keeps s (setVisible g s on) := by
  unfold setVisible
  dsimp only
  split_ifs
  · exact (visible_keeps true).trans (drawCursor_keeps.trans (mark_keeps _ _ _ _))
  · exact eraseCursor_keeps.trans ((visible_keeps false).trans (mark_keeps _ _ _ _))

/-! ## A new line and a character -/

theorem Within.moved (h : Within g s) (hbuf : s'.esc_buf = s.esc_buf) (hx : s'.cur_x ≤ g.width) (hy : s'.cur_y + 16 ≤ g.height)
    (hx8 : 8 ∣ s'.cur_x) (hy16 : 16 ∣ s'.cur_y) : Within g s' :=
  ⟨hx, hy, hx8, hy16, hbuf ▸ h.esc_len⟩

theorem advanceLine_within (hg : Cells g) (h : Within g s) : Within g (advanceLine g s) := by
  have hy := h.y_le
  have hh := g.height_lt
  have hb := g.backing
  have hge := hg.height_ge
  unfold advanceLine
  split_ifs with hlast
  · have hrow : sub32 g.height 16 = g.height - 16 := by
      unfold sub32 u32
      omega
    refine h.moved rfl (Nat.zero_le _) ?_ (by simp) ?_
    · show sub32 g.height 16 + 16 ≤ g.height
      omega
    · show 16 ∣ sub32 g.height 16
      rw [hrow]
      exact Nat.dvd_sub hg.height_dvd (dvd_refl 16)
  · have hrow : u32 (s.cur_y + 16) = s.cur_y + 16 := by
      unfold u32
      omega
    unfold u32 at hlast
    refine h.moved rfl (Nat.zero_le _) ?_ (by simp) ?_
    · show u32 (s.cur_y + 16) + 16 ≤ g.height
      omega
    · show 16 ∣ u32 (s.cur_y + 16)
      rw [hrow]
      exact Nat.dvd_add h.y_cell (dvd_refl 16)

theorem advanceLine_cur_x : (advanceLine g s).cur_x = 0 := by
  unfold advanceLine
  split_ifs <;> rfl

/-- A drawn character. On a line of the widest screen the cursor comes back to column 0. -/
theorem drawn_within (h : Within g s) (hx : u32 (s.cur_x + 8) ≤ g.width) (sc : Screen) :
    Within g { s with screen := sc, cur_x := u32 (s.cur_x + 8) } := by
  refine h.moved rfl hx h.y_le ?_ h.y_cell
  show 8 ∣ (s.cur_x + 8) % 2 ^ 32
  exact (dvd_mod_iff (by decide)).2 (Nat.dvd_add h.x_cell (dvd_refl 8))

theorem place_within (hg : Cells g) (h : Within g s) : Within g (place font g s c) := by
  unfold place
  split_ifs with h1 h2 h3 h4 hfull
  · exact h.moved rfl (Nat.zero_le _) h.y_le (by simp) h.y_cell
  · exact advanceLine_within hg h
  · exact h.moved rfl ((sub_le _ _).trans h.x_le) h.y_le (Nat.dvd_sub h.x_cell (dvd_refl 8)) h.y_cell
  · exact h
  · refine drawn_within (advanceLine_within hg h) ?_ _
    rw [advanceLine_cur_x]
    exact hg.width_ge
  · exact drawn_within h (by omega) _

theorem plain_within (hg : Cells g) (h : Within g s) : Within g (plain font g s c) := by
  have hplaced : Within g (place font g (eraseCursor g s) c) := place_within hg (eraseCursor_keeps.within_iff.2 h)
  unfold plain markFrom
  exact (redrawCursor_keeps.trans (mark_keeps _ _ _ _)).within_iff.2 hplaced

theorem state_keeps (e : Esc) : Keeps s { s with esc_state := e } := ⟨rfl, rfl, rfl⟩

theorem putPlain_within (hg : Cells g) (h : Within g s) : Within g (putPlain font g s c) := by
  unfold putPlain
  split_ifs
  · exact (state_keeps .esc).within_iff.2 h
  · exact plain_within hg h

/-! ## Cursor addresses -/

/-- The place of cell `n` in 32 bits, cut at the edge of the screen. -/
def clip (cell edge : Nat) (n : Int) : Nat :=
  if u32 (u32 ((max n 1 - 1).toNat * cell) + cell) > edge then sub32 edge cell else u32 ((max n 1 - 1).toNat * cell)

theorem target_eq : target g args = (clip 8 g.width (parseTwo args 1 1).2, clip 16 g.height (parseTwo args 1 1).1) := rfl

/-- What is cut is on the screen, unless the cell is the last one of 32 bits: its
far edge is 0 there and passes. -/
theorem clip_spec {cell bits edge : Nat} (hcell : cell * 2 ^ bits = 2 ^ 32) (hdvd : cell ∣ edge) (hge : cell ≤ edge)
    (hlt : edge < 2 ^ 32) (n : Int) :
    cell ∣ clip cell edge n ∧ (((2 ^ bits : Nat) : Int) ∣ max n 1 → clip cell edge n + cell = 2 ^ 32) ∧
      (¬((2 ^ bits : Nat) : Int) ∣ max n 1 → clip cell edge n + cell ≤ edge) := by
  obtain ⟨k, hk⟩ : ∃ k : Nat, max n 1 = (k + 1 : Nat) := ⟨(max n 1 - 1).toNat, by omega⟩
  have hkn : (max n 1 - 1).toNat = k := by omega
  have hat : u32 (k * cell) = cell * (k % 2 ^ bits) := by
    unfold u32
    rw [← hcell, Nat.mul_comm k, mul_mod_mul_left]
  have hdvd_iff : ((2 ^ bits : Nat) : Int) ∣ max n 1 ↔ k % 2 ^ bits + 1 = 2 ^ bits := by
    have hpos : 0 < 2 ^ bits := Nat.two_pow_pos bits
    have hkm : k % 2 ^ bits < 2 ^ bits := mod_lt _ hpos
    have hsucc : (k + 1) % 2 ^ bits = (k % 2 ^ bits + 1) % 2 ^ bits := by rw [mod_add_mod]
    rw [hk, Int.natCast_dvd_natCast, dvd_iff_mod_eq_zero, hsucc]
    refine ⟨fun h => ?_, fun h => by rw [h, mod_self]⟩
    by_contra hne
    rw [mod_eq_of_lt (by omega)] at h
    omega
  have hsum : cell * (k % 2 ^ bits) + cell = cell * (k % 2 ^ bits + 1) := by ring
  have hcut : sub32 edge cell = edge - cell := by
    unfold sub32 u32
    omega
  unfold clip
  rw [hkn, hat, hsum]
  rcases Nat.lt_or_ge (k % 2 ^ bits + 1) (2 ^ bits) with hlast | hlast
  · have hfit : cell * (k % 2 ^ bits + 1) < 2 ^ 32 := hcell ▸ Nat.mul_lt_mul_of_pos_left hlast (Nat.pos_of_mul_pos_right (by rw [hcell]; decide))
    have hu : u32 (cell * (k % 2 ^ bits + 1)) = cell * (k % 2 ^ bits + 1) := mod_eq_of_lt hfit
    rw [hu]
    refine ⟨?_, fun h => absurd (hdvd_iff.1 h) (by omega), fun _ => ?_⟩
    · split_ifs
      · rw [hcut]
        exact Nat.dvd_sub hdvd (dvd_refl _)
      · exact Nat.dvd_mul_right _ _
    · split_ifs with hover
      · omega
      · omega
  · have hlast' : k % 2 ^ bits + 1 = 2 ^ bits := by
      have := mod_lt k (Nat.two_pow_pos bits)
      omega
    have hu : u32 (cell * (k % 2 ^ bits + 1)) = 0 := by
      unfold u32
      rw [hlast', hcell, mod_self]
    rw [hu, if_neg (Nat.not_lt_zero _)]
    refine ⟨Nat.dvd_mul_right _ _, fun _ => ?_, fun h => absurd (hdvd_iff.2 hlast') h⟩
    rw [hsum, hlast', hcell]

theorem moveCursor_within_iff (hg : Cells g) (h : Within g s) : Within g (moveCursor g s args) ↔
      ¬(2 ^ 29 ∣ max (parseTwo args 1 1).2 1 ∧ g.width + 8 < 2 ^ 32 ∨ 2 ^ 28 ∣ max (parseTwo args 1 1).1 1) := by
  have hw := g.width_lt
  have hh := g.height_lt
  have hb := g.backing
  obtain ⟨hx8, hxlast, hxfit⟩ := clip_spec (by decide : 8 * 2 ^ 29 = 2 ^ 32) hg.width_dvd hg.width_ge hw (parseTwo args 1 1).2
  obtain ⟨hy16, hylast, hyfit⟩ := clip_spec (by decide : 16 * 2 ^ 28 = 2 ^ 32) hg.height_dvd hg.height_ge (by omega) (parseTwo args 1 1).1
  -- where the cursor and the parameters are afterwards
  have hmoved : Keeps { (eraseCursor g s).mark s.cur_x (u32 (s.cur_y + 14)) 8 2 with
      cur_x := (target g args).1, cur_y := (target g args).2 } (moveCursor g s args) :=
    showCursor_keeps.trans (mark_keeps _ _ _ _)
  rw [hmoved.within_iff, target_eq]
  constructor
  · rintro ⟨h1, h2, -, -, -⟩ (⟨hd, hlt⟩ | hd)
    · have := hxlast hd
      dsimp only at h1
      omega
    · have := hylast hd
      dsimp only at h2
      omega
  · intro hn
    refine (eraseCursor_keeps.within_iff.2 h).moved rfl ?_ ?_ hx8 hy16
    · show clip 8 g.width (parseTwo args 1 1).2 ≤ g.width
      by_cases hd : (2 ^ 29 : Int) ∣ max (parseTwo args 1 1).2 1
      · have := hxlast hd
        have := fun hlt => hn (.inl ⟨hd, hlt⟩)
        omega
      · have := hxfit hd
        omega
    · exact hyfit fun hd => hn (.inr hd)

/-! ## A byte and a stream -/

theorem eraseDisplay_within (hg : Cells g) (h : Within g s) : Within g (eraseDisplay g s) := by
  have hge := hg.height_ge
  unfold eraseDisplay
  rw [showCursor_keeps.within_iff, (mark_keeps _ _ _ _).within_iff]
  exact h.moved rfl (Nat.zero_le _) (by show 0 + 16 ≤ g.height; omega) (by simp) (by simp)

theorem colors_keeps : Keeps s (setColors s args) := ⟨rfl, rfl, rfl⟩

theorem handleCsi_within (hg : Cells g) (h : Within g s) (hc : ¬(c = 72 ∨ c = 102)) : Within g (handleCsi g s c args) := by
  unfold handleCsi
  rw [if_neg hc]
  split_ifs
  · exact eraseDisplay_within hg h
  · exact h
  · exact eraseLine_keeps.within_iff.2 h
  · exact (setVisible_keeps _).within_iff.2 h
  · exact h
  · exact colors_keeps.within_iff.2 h
  · exact h

theorem handleCsi_address (hc : c = 72 ∨ c = 102) : handleCsi g s c args = moveCursor g s args := by
  unfold handleCsi
  rw [if_pos hc, if_neg]
  rcases hc with rfl | rfl <;> decide

theorem isParam_address (hc : c = 72 ∨ c = 102) : isParam c = false := by
  rcases hc with rfl | rfl <;> decide

theorem putc_within_iff (hg : Cells g) (h : Within g s) : Within g (putc font g s c) ↔ ¬Overshoots g s c := by
  unfold putc Overshoots
  cases hstate : s.esc_state with
  | normal =>
    exact ⟨fun _ hn => Esc.noConfusion hn.1, fun _ => putPlain_within hg h⟩
  | esc =>
    refine ⟨fun _ hn => Esc.noConfusion hn.1, fun _ => ?_⟩
    dsimp only
    split_ifs
    · exact ⟨h.x_le, h.y_le, h.x_cell, h.y_cell, Nat.zero_le _⟩
    · exact putPlain_within hg ((state_keeps .normal).within_iff.2 h)
  | csi =>
    dsimp only
    by_cases hc : c = 72 ∨ c = 102
    · rw [if_neg (by simp [isParam_address hc]), (state_keeps .normal).within_iff, handleCsi_address hc,
        moveCursor_within_iff hg h]
      simp only [hc, true_and]
    · refine ⟨fun _ hn => hc hn.2.1, fun _ => ?_⟩
      split_ifs with hparam hlen
      · refine ⟨h.x_le, h.y_le, h.x_cell, h.y_cell, ?_⟩
        simp only [List.length_append, List.length_singleton]
        omega
      · exact h
      · exact (state_keeps .normal).within_iff.2 (handleCsi_within hg h hc)

/-- On every screen of whole cells and for every stream, the cursor is on the
screen after each byte if and only if no byte ends a cursor address whose column
or row is the last one of 32 bits. -/
theorem cursor_on_screen_iff (hg : Cells g) (h : Within g s) (bytes : List UInt8) :
    (∀ n, Within g (puts font g s (bytes.take n))) ↔
      ∀ n c, bytes[n]? = some c → ¬Overshoots g (puts font g s (bytes.take n)) c :=
  Lib.forall_states_iff (fun _ _ hw => putc_within_iff hg hw) h

end

namespace CursorSample

theorem gpu_backing : 64 = 32 * 2 := rfl

theorem gpu_width : 32 < 2 ^ 32 := by decide

theorem gpu_height : 64 < 2 ^ 32 := by decide

theorem gpu_size : 32 * 64 * 4 < 2 ^ 64 := by decide

def gpu : Gpu := ⟨32, 32, 64, gpu_backing, gpu_width, gpu_height, gpu_size⟩

def blank : UInt8 → Nat → UInt8 := fun _ _ => 0

def start : State := { screen := { fb := fun _ => ANSI_BG_DEFAULT }, shown := fun _ _ => ANSI_BG_DEFAULT }

theorem gpu_cells : Cells gpu := ⟨by decide, by decide, by decide, by decide⟩

theorem start_within : Within gpu start := ⟨by decide, by decide, by decide, by decide, by decide⟩

def farColumn : List UInt8 := [27, 91, 49, 59, 53, 51, 54, 56, 55, 48, 57, 49, 50, 72]

/-- The address of column `2 ^ 29` puts the cursor at `2 ^ 32 - 8`. -/
theorem far_column_leaves : Cells gpu ∧ Within gpu start ∧ (puts blank gpu start farColumn).cur_x = 4294967288 ∧
    ¬Within gpu (puts blank gpu start farColumn) := by
  have hx : (puts blank gpu start farColumn).cur_x = 4294967288 := by decide +kernel
  refine ⟨gpu_cells, start_within, hx, fun h => ?_⟩
  have hle := h.x_le
  rw [hx] at hle
  exact absurd hle (by decide)

def beyond : List UInt8 := [27, 91, 57, 57, 59, 57, 57, 72, 65]

/-- An address outside of the screen is cut and the character drawn in the last cell. -/
theorem cut_address_within : Cells gpu ∧ Within gpu start ∧ ∀ n, Within gpu (puts blank gpu start (beyond.take n)) := by
  have hcalm : ∀ n (h : n < 9), ¬Overshoots gpu (puts blank gpu start (beyond.take n)) (beyond.get ⟨n, h⟩) := by decide +kernel
  refine ⟨gpu_cells, start_within, (cursor_on_screen_iff gpu_cells start_within _).2 fun n c hc => ?_⟩
  obtain ⟨hlt, rfl⟩ := List.getElem?_eq_some_iff.1 hc
  exact hcalm n hlt

end CursorSample

end GpuTty
