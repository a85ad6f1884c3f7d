import Loeux.Drivers.Kgfx
/-!
# Scrolling

`kgfx_scroll_up` moves the window down, or at the end of the buffer copies the
lower half to the upper one and moves the window back. The copy is not shifted,
and the band is filled in pairs of pixels, so one scroll moves the picture up
only in the cases of `Shifts`.
-/

namespace Kgfx

/-- One call moves the visible window up by `line_h` rows, keeps the window inside
the buffer and writes nothing behind it. -/
structure MovesUp (g : Gpu) (s : Screen) (line_h : Nat) (bg : UInt32) : Prop where
  window : ∀ r c, r < g.height → c < g.width →
    px g (scrollUp g s line_h bg).fb ((scrollUp g s line_h bg).pan_y + r) c =
      if r + line_h < g.height then px g s.fb (s.pan_y + r + line_h) c else bg
  inside : (scrollUp g s line_h bg).pan_y + g.height ≤ g.fb_height
  outside : ∀ i, g.width * g.fb_height ≤ i → (scrollUp g s line_h bg).fb i = s.fb i

def topRow (g : Gpu) (s : Screen) (line_h : Nat) : Nat := if wraps g s line_h then g.height else u32 (s.pan_y + line_h)

/-- The rows that become visible are those that should, and the last pixel of the
band needs no fill or has its colour already. -/
structure Shifts (g : Gpu) (s : Screen) (line_h : Nat) (bg : UInt32) : Prop where
  top : topRow g s line_h ≤ g.height
  rows : ∀ r c, r + line_h < g.height → c < g.width →
    px g s.fb (topRow g s line_h + r) c = px g s.fb (s.pan_y + r + line_h) c
  last : g.width * line_h % 2 = 0 ∨ s.fb ((topRow g s line_h + g.height) * g.width - 1) = bg

section

variable {g : Gpu} {s : Screen} {line_h : Nat} {bg : UInt32}

theorem scrollUp_fb (hl : 1 ≤ line_h) (hh : line_h ≤ g.height) :
    (scrollUp g s line_h bg).fb = (fillBand g (moveWindow g s line_h) line_h bg).fb := by
  rw [scrollUp, if_neg (by omega)]
  show (markBand _ _ _).fb = _
  unfold markBand
  split_ifs <;> simp

theorem scrollUp_pan (hl : 1 ≤ line_h) (hh : line_h ≤ g.height) :
    (scrollUp g s line_h bg).pan_y = (moveWindow g s line_h).pan_y := by
  rw [scrollUp, if_neg (by omega)]
  show (markBand _ _ _).pan_y = _
  unfold markBand
  split_ifs <;> simp [fillBand]

theorem px_moveWindow {r c : Nat} (hr : r < g.height) (hc : c < g.width) :
    px g (moveWindow g s line_h).fb ((moveWindow g s line_h).pan_y + r) c = px g s.fb (topRow g s line_h + r) c := by
  unfold moveWindow topRow
  split_ifs with hw
  · have hlt : r * g.width + c < g.height * g.width := address_lt hr hc
    simp only [px]
    rw [Nat.zero_add, store_in ⟨Nat.zero_le _, by rw [Nat.zero_add, Nat.mul_comm g.width]; exact hlt⟩]
    congr 1
    rw [Nat.sub_zero, Nat.add_mul, Nat.mul_comm g.width, Nat.add_assoc]
  · rfl

theorem moveWindow_pan_le (h : topRow g s line_h ≤ g.height) : (moveWindow g s line_h).pan_y ≤ g.height := by
  unfold topRow at h
  unfold moveWindow
  split_ifs at h ⊢ with hw
  · exact Nat.zero_le _
  · exact h

theorem topRow_le (h : (moveWindow g s line_h).pan_y + g.height ≤ g.fb_height) : topRow g s line_h ≤ g.height := by
  have := g.backing
  unfold moveWindow at h
  unfold topRow
  split_ifs at h ⊢ with hw
  · exact le_refl _
  · have h' : u32 (s.pan_y + line_h) + g.height ≤ g.fb_height := h
    omega

theorem moveWindow_outside {i : Nat} (hi : g.width * g.fb_height ≤ i) : (moveWindow g s line_h).fb i = s.fb i := by
  have hle : g.width * g.height ≤ g.width * g.fb_height := Nat.mul_le_mul_left _ (by have := g.backing; omega)
  unfold moveWindow
  split_ifs with hw
  · dsimp only
    rw [store_out (by omega)]
  · rfl

theorem fillBand_fb {t : Screen} (ht : t.pan_y ≤ g.height) : (fillBand g t line_h bg).fb =
      store t.fb ((t.pan_y + g.height - line_h) * g.width) (g.width * line_h / 2 * 2) fun _ => bg := by
  have := g.backing
  have := g.height_lt
  rw [fillBand, u32_of_lt (by omega)]

theorem px_above {t : Screen} (ht : t.pan_y ≤ g.height) {r c : Nat} (hr : r + line_h < g.height) (hc : c < g.width) :
    px g (fillBand g t line_h bg).fb (t.pan_y + r) c = px g t.fb (t.pan_y + r) c := by
  have hlt : (t.pan_y + r) * g.width + c < (t.pan_y + g.height - line_h) * g.width := address_lt (by omega) hc
  rw [fillBand_fb ht, px, store_out (by omega)]
  rfl

theorem px_band {t : Screen} (ht : t.pan_y ≤ g.height) {r c : Nat} (hl : line_h ≤ g.height) (hr : r < g.height)
    (hr' : ¬r + line_h < g.height) (hc : c < g.width) :
    px g (fillBand g t line_h bg).fb (t.pan_y + r) c =
      if g.width * line_h % 2 = 1 ∧ r + 1 = g.height ∧ c + 1 = g.width then px g t.fb (t.pan_y + r) c else bg := by
  obtain ⟨j, rfl⟩ : ∃ j, r = g.height - line_h + j := ⟨r - (g.height - line_h), by omega⟩
  have hrow : (t.pan_y + (g.height - line_h + j)) * g.width + c =
      (t.pan_y + g.height - line_h) * g.width + (j * g.width + c) := by
    rw [show t.pan_y + (g.height - line_h + j) = t.pan_y + g.height - line_h + j by omega]
    ring
  have hlt : j * g.width + c < g.width * line_h := by
    rw [Nat.mul_comm g.width]
    exact address_lt (by omega) hc
  have hlast : j * g.width + c + 1 = g.width * line_h ↔ j + 1 = line_h ∧ c + 1 = g.width := by
    constructor
    · intro h
      have hle : line_h * g.width ≤ (j + 1) * g.width := by
        rw [Nat.add_mul, Nat.one_mul, Nat.mul_comm line_h]
        omega
      have hj : line_h ≤ j + 1 := Nat.le_of_mul_le_mul_right hle (by omega)
      obtain rfl : line_h = j + 1 := by omega
      rw [Nat.mul_add, Nat.mul_one, Nat.mul_comm g.width j] at h
      exact ⟨rfl, by omega⟩
    · rintro ⟨rfl, h⟩
      rw [Nat.add_assoc, h]
      ring
  rw [fillBand_fb ht, px, hrow]
  split_ifs with hodd
  · rw [store_out (by omega), px, hrow]
  · rw [store_in ⟨by omega, ?_⟩]
    omega

theorem px_last (hh : 0 < g.height) (hw : 0 < g.width) (fb : Nat → UInt32) (top : Nat) :
    px g fb (top + (g.height - 1)) (g.width - 1) = fb ((top + g.height) * g.width - 1) := by
  have hrow : (top + g.height) * g.width = (top + (g.height - 1)) * g.width + g.width := by
    rw [show top + g.height = top + (g.height - 1) + 1 by omega]
    ring
  rw [px, hrow, Nat.add_sub_assoc hw]

theorem fillBand_outside {t : Screen} (ht : t.pan_y ≤ g.height) (hh : line_h ≤ g.height) {i : Nat}
    (hi : g.width * g.fb_height ≤ i) : (fillBand g t line_h bg).fb i = t.fb i := by
  have hend : (t.pan_y + g.height - line_h) * g.width + g.width * line_h ≤ g.width * g.fb_height := by
    calc (t.pan_y + g.height - line_h) * g.width + g.width * line_h = g.width * (t.pan_y + g.height - line_h + line_h) := by ring
      _ ≤ g.width * g.fb_height := Nat.mul_le_mul_left _ (by have := g.backing; omega)
  rw [fillBand_fb ht, store_out (by omega)]

/-- One scroll moves the picture up exactly when the rows that become visible are
the ones below, and the band is filled to its last pixel. -/
theorem moves_up_iff (g : Gpu) (s : Screen) (line_h : Nat) (bg : UInt32) (hl : 1 ≤ line_h) (hh : line_h ≤ g.height) :
    MovesUp g s line_h bg ↔ Shifts g s line_h bg := by
  constructor
  · rintro ⟨hwin, hin, -⟩
    rw [scrollUp_pan hl hh] at hin hwin
    rw [scrollUp_fb hl hh] at hwin
    have htop := topRow_le hin
    have hpan := moveWindow_pan_le htop
    refine ⟨htop, fun r c hr hc => ?_, ?_⟩
    · have h := hwin r c (by omega) hc
      rw [px_above hpan hr hc, px_moveWindow (by omega) hc, if_pos hr] at h
      exact h
    · by_cases hodd : g.width * line_h % 2 = 1
      · have hw : 0 < g.width := by
          rcases Nat.eq_zero_or_pos g.width with h0 | h0
          · rw [h0, Nat.zero_mul] at hodd
            cases hodd
          · exact h0
        have h := hwin (g.height - 1) (g.width - 1) (by omega) (by omega)
        rw [px_band hpan hh (by omega) (by omega) (by omega), if_pos ⟨hodd, by omega, by omega⟩,
          px_moveWindow (by omega) (by omega), if_neg (by omega),
          px_last (by omega) hw] at h
        exact .inr h
      · exact .inl (by omega)
  · rintro ⟨htop, hrows, hlast⟩
    have hpan := moveWindow_pan_le htop
    have hbacking := g.backing
    refine ⟨fun r c hr hc => ?_, ?_, fun i hi => ?_⟩
    · rw [scrollUp_fb hl hh, scrollUp_pan hl hh]
      by_cases habove : r + line_h < g.height
      · rw [if_pos habove, px_above hpan habove hc, px_moveWindow hr hc, hrows r c habove hc]
      · rw [if_neg habove, px_band hpan hh hr habove hc]
        split_ifs with hodd
        · obtain ⟨hodd, hr1, hc1⟩ := hodd
          obtain rfl : r = g.height - 1 := by omega
          obtain rfl : c = g.width - 1 := by omega
          rw [px_moveWindow hr hc, px_last (by omega) (by omega)]
          exact hlast.resolve_left (by omega)
        · rfl
    · rw [scrollUp_pan hl hh]
      omega
    · rw [scrollUp_fb hl hh, fillBand_outside hpan hh hi, moveWindow_outside hi]

end

namespace ScrollSample

def gpu : Gpu := ⟨2, 2, 4, rfl, by decide, by decide, by decide⟩

def fresh : Screen := { fb := fun i => UInt32.ofNat i }

/-- The third scroll wraps: the row of colour 7 stays at the top. -/
theorem wrap_not_shifted : ¬MovesUp gpu (scrollUp gpu (scrollUp gpu fresh 1 7) 1 8) 1 9 := by
  intro h
  exact absurd (h.window 0 0 (by decide) (by decide)) (by decide +kernel)

theorem first_moves_up : (1 ≤ 1 ∧ 1 ≤ gpu.height) ∧ MovesUp gpu fresh 1 7 := by
  refine ⟨by decide, (moves_up_iff gpu fresh 1 7 (by decide) (by decide)).2 ⟨by decide, fun r c _ _ => ?_, .inl (by decide)⟩⟩
  show px gpu fresh.fb (1 + r) c = px gpu fresh.fb (0 + r + 1) c
  rw [Nat.zero_add, Nat.add_comm]

end ScrollSample

end Kgfx
