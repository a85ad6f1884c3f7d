import Loeux.Lib.Ring
import Loeux.Lib.Stream
import Mathlib.Tactic.Push
/-!
# Key events (`drivers/keyboard.c`)

`handle_key` with the two keymaps and the character buffer. Beside the device
stands which keys are held, as the history of the events says, and `character`
is what a key types with the modifiers that are held.
-/

open Function

namespace Keyboard

def KEY_LEFTSHIFT : UInt16 := 42

def KEY_RIGHTSHIFT : UInt16 := 54

def KEY_LEFTCTRL : UInt16 := 29

def KEY_RIGHTCTRL : UInt16 := 97

def KEY_UP : UInt16 := 103

def KEY_DOWN : UInt16 := 108

def KEY_LEFT : UInt16 := 105

def KEY_RIGHT : UInt16 := 106

def INPUT_CHAR_BUF_SIZE : Nat := 256

def keymapLo : List UInt8 :=
  [0, 27, 49, 50, 51, 52, 53, 54, 55, 56, 57, 48, 45, 61, 8, 9, 113, 119, 101, 114, 116, 121, 117, 105, 111, 112, 91, 93, 10, 0,
    97, 115, 100, 102, 103, 104, 106, 107, 108, 59, 39, 96, 0, 92, 122, 120, 99, 118, 98, 110, 109, 44, 46, 47, 0, 0, 0, 32]

def keymapHi : List UInt8 :=
  [0, 0, 33, 64, 35, 36, 37, 94, 38, 42, 40, 41, 95, 43, 0, 0, 81, 87, 69, 82, 84, 89, 85, 73, 79, 80, 123, 125, 0, 0,
    65, 83, 68, 70, 71, 72, 74, 75, 76, 58, 34, 126, 0, 124, 90, 88, 67, 86, 66, 78, 77, 60, 62, 63]

def keymap_lo (code : UInt16) : UInt8 := keymapLo.getD code.toNat 0

def keymap_hi (code : UInt16) : UInt8 := keymapHi.getD code.toNat 0

structure Device where
  shift : Bool := false
  ctrl : Bool := false
  chars : Lib.Ring UInt8 INPUT_CHAR_BUF_SIZE := ⟨fun _ => 0, 0, 0, by decide, by decide⟩

def Device.push (d : Device) (c : UInt8) : Device := { d with chars := d.chars.push c }

def Device.pushN (d : Device) (cs : List UInt8) : Device := { d with chars := d.chars.pushAll cs }

def Device.pop (d : Device) : Device :=
  match d.chars.pop with
  | none => d
  | some (_, chars) => { d with chars := chars }

def isLower (c : UInt8) : Bool := 97 ≤ c && c ≤ 122

def typeKey (d : Device) (code : UInt16) : Device :=
  let c := if d.shift then keymap_hi code else keymap_lo code
  if d.ctrl ∧ isLower c then d.push (c - 97 + 1)
  else if c ≠ 0 then d.push c
  else d

def handleKey (d : Device) (code : UInt16) (value : UInt32) : Device :=
  if code = KEY_LEFTSHIFT ∨ code = KEY_RIGHTSHIFT then { d with shift := value = 1 }
  else if code = KEY_LEFTCTRL ∨ code = KEY_RIGHTCTRL then { d with ctrl := value = 1 }
  else if value ≠ 1 then d
  else if code = KEY_UP then d.pushN [27, 91, 65]
  else if code = KEY_DOWN then d.pushN [27, 91, 66]
  else if code = KEY_LEFT then d.pushN [27, 91, 68]
  else if code = KEY_RIGHT then d.pushN [27, 91, 67]
  else if 128 ≤ code then d
  else typeKey d code

/-! ## The keys -/

inductive Value
  | release
  | press
  | again
deriving Repr, DecidableEq

def Value.code : Value → UInt32
  | .release => 0
  | .press => 1
  | .again => 2

inductive Event
  | key (code : UInt16) (value : Value)
  | pop
deriving Repr, DecidableEq

/-- The device and which keys are held. -/
structure State where
  dev : Device := {}
  held : UInt16 → Bool := fun _ => false

def next (s : State) : Event → State
  | .key code value => ⟨handleKey s.dev code value.code, Function.update s.held code (value ≠ .release)⟩
  | .pop => { s with dev := s.dev.pop }

def State.shiftHeld (s : State) : Bool := s.held KEY_LEFTSHIFT || s.held KEY_RIGHTSHIFT

def State.ctrlHeld (s : State) : Bool := s.held KEY_LEFTCTRL || s.held KEY_RIGHTCTRL

/-- What a key types: with ctrl a letter types its control code, with or without
shift, and a key that shift does not change types the same. -/
def character (shift ctrl : Bool) (code : UInt16) : UInt8 :=
  if ctrl ∧ isLower (keymap_lo code) then keymap_lo code - 97 + 1
  else if shift ∧ keymap_hi code ≠ 0 then keymap_hi code
  else keymap_lo code

/-- The flags are those of the keys that are held. -/
structure Flags (s : State) : Prop where
  shift : s.dev.shift = s.shiftHeld
  ctrl : s.dev.ctrl = s.ctrlHeld

/-- The flags follow the event, and a character key that is pressed while there is
room types its character. -/
structure Follows (s : State) (e : Event) : Prop where
  flags : Flags (next s e)
  typed : ∀ code, e = .key code .press → keymap_lo code ≠ 0 → ¬s.dev.chars.Full →
    (next s e).dev.chars.items = s.dev.chars.items ++ [character s.shiftHeld s.ctrlHeld code]

/-- An event of one of the two keys sets the flag to whether it is a press. -/
def Alone (s : State) (other : UInt16) (value : Value) : Prop := value = .press ∨ value = .release ∧ s.held other = false

/-- No modifier repeats, none is released while its twin is held, and no character
key is pressed with shift that has no entry in `keymap_hi` or is a letter with ctrl. -/
def Calm (s : State) : Event → Prop
  | .key code value =>
    (code = KEY_LEFTSHIFT → Alone s KEY_RIGHTSHIFT value) ∧ (code = KEY_RIGHTSHIFT → Alone s KEY_LEFTSHIFT value) ∧
      (code = KEY_LEFTCTRL → Alone s KEY_RIGHTCTRL value) ∧ (code = KEY_RIGHTCTRL → Alone s KEY_LEFTCTRL value) ∧
      (value = .press → keymap_lo code ≠ 0 → ¬s.dev.chars.Full → s.shiftHeld →
        keymap_hi code ≠ 0 ∧ ¬(s.ctrlHeld ∧ isLower (keymap_lo code)))
  | .pop => True

instance (s : State) (other : UInt16) (value : Value) : Decidable (Alone s other value) := inferInstanceAs (Decidable (_ ∨ _))

instance (s : State) : DecidablePred (Calm s)
  | .key _ _ => inferInstanceAs (Decidable (_ ∧ _))
  | .pop => isTrue trivial

/-! ## The flags -/

section

variable {s : State} {d : Device} {code : UInt16} {value : Value}

@[simp] theorem push_shift (c : UInt8) : (d.push c).shift = d.shift := rfl

@[simp] theorem push_ctrl (c : UInt8) : (d.push c).ctrl = d.ctrl := rfl

@[simp] theorem pushN_shift (cs : List UInt8) : (d.pushN cs).shift = d.shift := rfl

@[simp] theorem pushN_ctrl (cs : List UInt8) : (d.pushN cs).ctrl = d.ctrl := rfl

theorem pop_shift : d.pop.shift = d.shift := by
  unfold Device.pop
  split <;> rfl

theorem pop_ctrl : d.pop.ctrl = d.ctrl := by
  unfold Device.pop
  split <;> rfl

theorem typeKey_flags : (typeKey d code).shift = d.shift ∧ (typeKey d code).ctrl = d.ctrl := by
  unfold typeKey
  dsimp only
  generalize (if d.shift then keymap_hi code else keymap_lo code) = c
  split
  · exact ⟨rfl, rfl⟩
  · split <;> exact ⟨rfl, rfl⟩

theorem handleKey_flags (v : UInt32) (hs : ¬(code = KEY_LEFTSHIFT ∨ code = KEY_RIGHTSHIFT))
    (hc : ¬(code = KEY_LEFTCTRL ∨ code = KEY_RIGHTCTRL)) :
    (handleKey d code v).shift = d.shift ∧ (handleKey d code v).ctrl = d.ctrl := by
  unfold handleKey
  rw [if_neg hs, if_neg hc]
  repeat' split
  all_goals first | exact ⟨rfl, rfl⟩ | exact typeKey_flags

theorem twin_iff (s : State) (other : UInt16) (value : Value) :
    decide (value.code = 1) = (decide (value ≠ .release) || s.held other) ↔ Alone s other value := by
  unfold Alone
  cases value <;> cases s.held other <;> decide

theorem flags_iff (h : Flags s) : Flags (next s (.key code value)) ↔
      (code = KEY_LEFTSHIFT → Alone s KEY_RIGHTSHIFT value) ∧ (code = KEY_RIGHTSHIFT → Alone s KEY_LEFTSHIFT value) ∧
        (code = KEY_LEFTCTRL → Alone s KEY_RIGHTCTRL value) ∧ (code = KEY_RIGHTCTRL → Alone s KEY_LEFTCTRL value) := by
  have hflags : Flags (next s (.key code value)) ↔ (handleKey s.dev code value.code).shift =
        (update s.held code (value ≠ .release) KEY_LEFTSHIFT || update s.held code (value ≠ .release) KEY_RIGHTSHIFT) ∧
      (handleKey s.dev code value.code).ctrl =
        (update s.held code (value ≠ .release) KEY_LEFTCTRL || update s.held code (value ≠ .release) KEY_RIGHTCTRL) :=
    ⟨fun h => ⟨h.shift, h.ctrl⟩, fun h => ⟨h.1, h.2⟩⟩
  have hs := h.shift
  have hc := h.ctrl
  unfold State.shiftHeld at hs
  unfold State.ctrlHeld at hc
  rw [hflags]
  by_cases h1 : code = KEY_LEFTSHIFT
  · subst h1
    simp [handleKey, ← twin_iff, hc, KEY_LEFTSHIFT, KEY_RIGHTSHIFT, KEY_LEFTCTRL, KEY_RIGHTCTRL]
  by_cases h2 : code = KEY_RIGHTSHIFT
  · subst h2
    simp [handleKey, ← twin_iff, hc, KEY_LEFTSHIFT, KEY_RIGHTSHIFT, KEY_LEFTCTRL, KEY_RIGHTCTRL, Bool.or_comm]
  by_cases h3 : code = KEY_LEFTCTRL
  · subst h3
    simp [handleKey, ← twin_iff, hs, KEY_LEFTSHIFT, KEY_RIGHTSHIFT, KEY_LEFTCTRL, KEY_RIGHTCTRL]
  by_cases h4 : code = KEY_RIGHTCTRL
  · subst h4
    simp [handleKey, ← twin_iff, hs, KEY_LEFTSHIFT, KEY_RIGHTSHIFT, KEY_LEFTCTRL, KEY_RIGHTCTRL, Bool.or_comm]
  -- another key changes neither the flags nor what is held of the four
  obtain ⟨hshift, hctrl⟩ := handleKey_flags (d := s.dev) value.code (by tauto) (by tauto)
  rw [hshift, hctrl, update_of_ne (Ne.symm h1), update_of_ne (Ne.symm h2), update_of_ne (Ne.symm h3),
    update_of_ne (Ne.symm h4)]
  simp only [h1, h2, h3, h4, false_implies, and_self, iff_true]
  exact ⟨hs, hc⟩

/-! ## The characters -/

theorem keymap_letters : ∀ n < 58, isLower (keymapHi.getD n 0) = false ∧
    (isLower (keymapLo.getD n 0) → keymapHi.getD n 0 ≠ 0 ∧ keymapHi.getD n 0 ≠ keymapLo.getD n 0 - 97 + 1) := by decide

theorem code_lt (h : keymap_lo code ≠ 0) : code.toNat < 58 := by
  by_contra hge
  exact h (by rw [keymap_lo, List.getD_eq_getElem?_getD, List.getElem?_eq_none (by simpa [keymapLo] using hge)]; rfl)

theorem handleKey_press (h : keymap_lo code ≠ 0) : handleKey d code 1 = typeKey d code := by
  have hne : ∀ k : UInt16, keymap_lo k = 0 → code ≠ k := fun k hk e => h (e ▸ hk)
  have hlt := code_lt h
  have h128 : ¬128 ≤ code := by
    rw [UInt16.le_iff_toNat_le]
    exact Nat.not_le.2 (Nat.lt_trans hlt (by decide))
  unfold handleKey
  rw [if_neg (by rintro (e | e) <;> exact hne _ (by decide) e), if_neg (by rintro (e | e) <;> exact hne _ (by decide) e),
    if_neg (by simp), if_neg (hne _ (by decide)), if_neg (hne _ (by decide)), if_neg (hne _ (by decide)),
    if_neg (hne _ (by decide)), if_neg h128]

theorem typed_iff (h : Flags s) (hlo : keymap_lo code ≠ 0) (hroom : ¬s.dev.chars.Full) :
    (next s (.key code .press)).dev.chars.items = s.dev.chars.items ++ [character s.shiftHeld s.ctrlHeld code] ↔
      (s.shiftHeld → keymap_hi code ≠ 0 ∧ ¬(s.ctrlHeld ∧ isLower (keymap_lo code))) := by
  have hpush : ∀ c, (s.dev.push c).chars.items = s.dev.chars.items ++ [c] := fun c => Lib.Ring.items_push hroom c
  obtain ⟨hhi, hletter⟩ := keymap_letters _ (code_lt hlo)
  show (handleKey s.dev code 1).chars.items = _ ↔ _
  rw [handleKey_press hlo]
  unfold typeKey character
  rw [h.shift, h.ctrl]
  change isLower (keymap_hi code) = false at hhi
  change isLower (keymap_lo code) → keymap_hi code ≠ 0 ∧ keymap_hi code ≠ keymap_lo code - 97 + 1 at hletter
  cases s.shiftHeld with
  | false =>
    by_cases hc : s.ctrlHeld ∧ isLower (keymap_lo code)
    · simp [hc.1, hc.2, hpush]
    · simp [hc, hlo, hpush]
  | true =>
    by_cases hc : s.ctrlHeld ∧ isLower (keymap_lo code)
    · have := hletter hc.2
      simp [hc.1, hc.2, hhi, hpush, this.1, this.2]
    · by_cases hz : keymap_hi code = 0
      · simp [hc, hz, show isLower 0 = false by decide]
      · simp [hc, hz, hhi, hpush]

theorem follows_iff (h : Flags s) (e : Event) : Follows s e ↔ Calm s e := by
  cases e with
  | pop =>
    refine ⟨fun _ => trivial, fun _ => ⟨⟨pop_shift.trans h.shift, pop_ctrl.trans h.ctrl⟩, fun _ he => nomatch he⟩⟩
  | key code value =>
    constructor
    · intro hf
      obtain ⟨h1, h2, h3, h4⟩ := (flags_iff h).1 hf.flags
      refine ⟨h1, h2, h3, h4, ?_⟩
      rintro rfl hlo hroom
      exact (typed_iff h hlo hroom).1 (hf.typed code rfl hlo hroom)
    · rintro ⟨h1, h2, h3, h4, h5⟩
      refine ⟨(flags_iff h).2 ⟨h1, h2, h3, h4⟩, ?_⟩
      rintro code' ⟨⟩ hlo hroom
      exact (typed_iff h hlo hroom).2 (h5 rfl hlo hroom)

/-- From every state whose flags are right and for every sequence of events and
readers: the flags and the characters follow each event if and only if each event
is calm. -/
theorem modifiers_follow_iff (h : Flags s) (es : List Event) :
    (∀ n e, es[n]? = some e → Follows (Lib.after next s es n) e) ↔ ∀ n e, es[n]? = some e → Calm (Lib.after next s es n) e :=
  Lib.forall_steps_iff (fun _ e hf => follows_iff hf e) (fun _ _ _ hf => hf.flags) h

end

namespace KeySample

theorem start_flags : Flags {} := ⟨rfl, rfl⟩

/-- Both shift keys are pressed and one of them released: the flag is clear while
the other is held. -/
theorem twin_release_clears : Flags {} ∧
    ¬∀ n e, ([.key KEY_LEFTSHIFT .press, .key KEY_RIGHTSHIFT .press, .key KEY_LEFTSHIFT .release] : List Event)[n]? = some e →
      Follows (Lib.after next {} [.key KEY_LEFTSHIFT .press, .key KEY_RIGHTSHIFT .press, .key KEY_LEFTSHIFT .release] n) e := by
  refine ⟨start_flags, fun h => ?_⟩
  have hflag := (h 2 _ rfl).flags.shift
  exact absurd hflag (by decide)

def chord : List Event :=
  [.key KEY_LEFTSHIFT .press, .key 30 .press, .key KEY_LEFTSHIFT .release, .key KEY_RIGHTCTRL .press, .key 30 .press]

theorem chord_follows : Flags {} ∧ ∀ n e, chord[n]? = some e → Follows (Lib.after next {} chord n) e := by
  have hcalm : ∀ n (h : n < 5), Calm (Lib.after next {} chord n) (chord.get ⟨n, h⟩) := by decide +kernel
  refine ⟨start_flags, (modifiers_follow_iff start_flags chord).2 fun n e he => ?_⟩
  obtain ⟨hlt, rfl⟩ := List.getElem?_eq_some_iff.1 he
  exact hcalm n hlt

end KeySample

end Keyboard
