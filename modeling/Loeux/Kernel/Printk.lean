import Mathlib.Data.Nat.Digits.Lemmas
/-!
# Formatted output of the kernel (`kernel/printk.c`)

`vsprintf` takes an `int` as unsigned before `number` looks at its sign, and the signs that
the flags `+` and space ask for go to unsigned conversions as well.
-/
open List

namespace Printk

abbrev Text := List Char

abbrev Args := List (BitVec 64)

structure Flags where
  zeropad : Bool := false
  sign : Bool := false
  plus : Bool := false
  space : Bool := false
  left : Bool := false
  special : Bool := false
  small : Bool := false

/-- The loop at `repeat`. -/
def flagLoop : Text → Flags → Flags × Text
  | '-' :: fmt, f => flagLoop fmt { f with left := true }
  | '+' :: fmt, f => flagLoop fmt { f with plus := true }
  | ' ' :: fmt, f => flagLoop fmt { f with space := true }
  | '#' :: fmt, f => flagLoop fmt { f with special := true }
  | '0' :: fmt, f => flagLoop fmt { f with zeropad := true }
  | fmt, f => (f, fmt)

def skipAtoi : Text → Nat → Nat × Text
  | c :: s, i => if c.isDigit then skipAtoi s (i * 10 + (c.toNat - 48)) else (i, c :: s)
  | [], i => (i, [])

/-- `while (size-- > 0) *str++ = c` -/
def fill (c : Char) (size : Int) : Text × Int := (replicate size.toNat c, min size 0 - 1)

/-- A character of `digits`. -/
def digit (small : Bool) (d : Nat) : Char :=
  (if small then "0123456789abcdefghijklmnopqrstuvwxyz" else "0123456789ABCDEFGHIJKLMNOPQRSTUVWXYZ").toList.getD d ' '

/-- The loop that fills `tmp`, the last digit first. -/
def digitLoop (small : Bool) (base : Nat) : Nat → Nat → Text
  | 0, _ => []
  | k + 1, n => if n = 0 then [] else digit small (n % base) :: digitLoop small base k (n / base)

def number (num : BitVec 64) (base : Nat) (size precision : Int) (type : Flags) : Text :=
  let zeropad := type.zeropad && !type.left
  let negative := type.sign && decide (num.toInt < 0)
  let sign := if negative then ['-'] else if type.plus then ['+'] else if type.space then [' '] else []
  let num := if negative then -num else num
  let special := if type.special then
      if base = 8 then ['0'] else if base = 16 then ['0', digit type.small 33] else []
    else []
  let tmp := if num = 0 then ['0'] else digitLoop type.small base 64 num.toNat
  let precision : Int := max tmp.length precision
  let size := size - sign.length - special.length - precision
  -- a loop that fills leaves `size` negative, so that the later ones do nothing
  let (spaces, size) := if zeropad || type.left then ([], size) else fill ' ' size
  let (zeros, size) := if type.left then ([], size) else fill (if zeropad then '0' else ' ') size
  spaces ++ sign ++ special ++ zeros ++ replicate (precision - tmp.length).toNat '0' ++ tmp.reverse ++ (fill ' ' size).1

section
variable (str : BitVec 64 → Text)

/-- The text of a conversion for its argument; `str` is the string at an address. -/
def convert (c : Char) (f : Flags) (width precision : Int) (long : Bool) (a : BitVec 64) : Text :=
  let v := if long then a else (a.setWidth 32).setWidth 64
  let pad := fun s : Text => if f.left then s ++ replicate (width - s.length).toNat ' '
    else replicate (width - s.length).toNat ' ' ++ s
  match c with
  | 'c' => pad [Char.ofNat (a.setWidth 8).toNat]
  | 's' => pad (if precision < 0 then str a else (str a).take precision.toNat)
  | 'o' => number v 8 width precision f
  | 'p' => if width = -1 then number a 16 16 precision { f with zeropad := true } else number a 16 width precision f
  | 'x' => number v 16 width precision { f with small := true }
  | 'X' => number v 16 width precision f
  | 'd' | 'i' => number v 10 width precision { f with sign := true }
  | _ => number v 10 width precision f

/-- The field width and what it changes. -/
def fieldWidth (f : Flags) (fmt : Text) (args : Args) : Int × Flags × Text × Args :=
  match fmt with
  | '*' :: fmt =>
    let w := ((args.headD 0).setWidth 32).toInt
    (w.natAbs, { f with left := f.left || decide (w < 0) }, fmt, args.tail)
  | c :: _ => if c.isDigit then ((skipAtoi fmt 0).1, f, (skipAtoi fmt 0).2, args) else (-1, f, fmt, args)
  | [] => (-1, f, [], args)

def precisionOf (fmt : Text) (args : Args) : Int × Text × Args :=
  match fmt with
  | '.' :: '*' :: fmt => (max 0 ((args.headD 0).setWidth 32).toInt, fmt, args.tail)
  | '.' :: fmt => ((skipAtoi fmt 0).1, (skipAtoi fmt 0).2, args)
  | fmt => (-1, fmt, args)

def qualifier (fmt : Text) : Option Char × Text :=
  match fmt with
  | c :: s => if c ∈ ['h', 'l', 'L', 'Z'] then (some c, s) else (none, fmt)
  | [] => (none, [])

/-- A directive after its `%`: its text, and what is left of format and arguments. `%n`
stores a number and has no text. -/
def directive (fmt : Text) (args : Args) : Text × Text × Args :=
  let (f, fmt) := flagLoop fmt {}
  let (width, f, fmt, args) := fieldWidth f fmt args
  let (precision, fmt, args) := precisionOf fmt args
  let (q, fmt) := qualifier fmt
  match fmt with
  | [] => (['%'], [], args)
  | '%' :: fmt => (['%'], fmt, args)
  | 'n' :: fmt => ([], fmt, args.tail)
  | c :: fmt =>
    if c ∈ "csopxXdiu".toList then
      (convert str c f width precision (decide (q = some 'l')) (args.headD 0), fmt, args.tail)
    else (['%', c], fmt, args)

/-- The loop over the format, which every round makes shorter. -/
def vsprintfLoop : Nat → Text → Args → Text
  | k + 1, '%' :: fmt, args =>
    let (text, fmt, args) := directive str fmt args
    text ++ vsprintfLoop k fmt args
  | k + 1, c :: fmt, args => c :: vsprintfLoop k fmt args
  | _, _, _ => []

def vsprintf (fmt : Text) (args : Args) : Text := vsprintfLoop str fmt.length fmt args

end

/-! ## The C standard -/

inductive Conv
  | d | i | u | x | X | o
  deriving DecidableEq

namespace Conv

def letter : Conv → Char
  | d => 'd'
  | i => 'i'
  | u => 'u'
  | x => 'x'
  | X => 'X'
  | o => 'o'

def base : Conv → Nat
  | d | i | u => 10
  | x | X => 16
  | o => 8

def signed : Conv → Bool
  | d | i => true
  | _ => false

end Conv

/-- A directive without precision and without `#`; width 0 is none, and the source reads the
width into an `int`. -/
structure Directive where
  flags : Text
  width : Nat
  long : Bool
  conv : Conv
  flags_ok : ∀ c ∈ flags, c ∈ ['-', '0', '+', ' ']
  width_lt : width < 2 ^ 31

namespace Directive

variable (d : Directive)

def digits (conv : Conv) (n : Nat) : Text := (Nat.digits conv.base n).reverse.map fun k =>
  if conv = .X then k.digitChar.toUpper else k.digitChar

/-- What stands after the width. -/
def tail : Text := (if d.long then ['l'] else []) ++ [d.conv.letter]

def text : Text := '%' :: (d.flags ++ (digits .u d.width ++ d.tail))

/-- The argument as a value of the C type. -/
def value (a : BitVec 64) : Int :=
  match d.conv.signed, d.long with
  | true, true => a.toInt
  | true, false => (a.setWidth 32).toInt
  | false, true => a.toNat
  | false, false => (a.setWidth 32).toNat

/-- A field: `-` pads on the right, `0` between sign and digits. -/
def field (flags sign digits : Text) (width : Int) : Text :=
  let pad := (width - sign.length - digits.length).toNat
  if '-' ∈ flags then sign ++ digits ++ replicate pad ' '
  else if '0' ∈ flags then sign ++ replicate pad '0' ++ digits
  else replicate pad ' ' ++ sign ++ digits

def digitsOrZero (conv : Conv) (n : Nat) : Text := if n = 0 then ['0'] else digits conv n

def signOf (flags : Text) (negative : Bool) : Text :=
  if negative then ['-'] else if '+' ∈ flags then ['+'] else if ' ' ∈ flags then [' '] else []

/-- What the directive prints; `+` and space are for signed conversions. -/
def standard (a : BitVec 64) : Text :=
  field d.flags (if d.conv.signed then signOf d.flags (d.value a < 0) else [])
    (digitsOrZero d.conv (d.value a).natAbs) d.width

/-- No negative `int`, and no sign for an unsigned number, unless it is a space that counts
as padding. -/
def Right (a : BitVec 64) : Prop :=
  if d.conv.signed then d.long ∨ 0 ≤ d.value a
  else '+' ∉ d.flags ∧ (' ' ∈ d.flags → '-' ∉ d.flags ∧ '0' ∉ d.flags ∧
    (digitsOrZero d.conv (d.value a).natAbs).length < d.width)

/-! ## The scan -/

def flagsOf (fl : Text) : Flags :=
  { zeropad := fl.contains '0', plus := fl.contains '+', space := fl.contains ' ', left := fl.contains '-' }

theorem flagLoop_flags {fl s : Text} (hfl : ∀ c ∈ fl, c ∈ ['-', '0', '+', ' '])
    (hs : ∀ f, flagLoop s f = (f, s)) (f : Flags) : flagLoop (fl ++ s) f = ({ f with
        zeropad := f.zeropad || fl.contains '0'
        plus := f.plus || fl.contains '+'
        space := f.space || fl.contains ' '
        left := f.left || fl.contains '-' }, s) := by
  induction fl generalizing f with
  | nil => simp [hs]
  | cons c fl ih =>
    have ih := ih fun x hx => hfl x (mem_cons_of_mem c hx)
    have hc := hfl c mem_cons_self
    simp only [mem_cons, not_mem_nil, or_false] at hc
    rcases hc with rfl | rfl | rfl | rfl <;> simp [flagLoop, ih]

theorem skipAtoi_digits {ds : List Nat} {s : Text} (hds : ∀ k ∈ ds, k < 10)
    (hs : ∀ i, skipAtoi s i = (i, s)) (i : Nat) :
    skipAtoi (ds.map Nat.digitChar ++ s) i = (ds.foldl (fun n k => n * 10 + k) i, s) := by
  induction ds generalizing i with
  | nil => exact hs i
  | cons k ds ih =>
    have hk := hds k mem_cons_self
    have hd : (Nat.digitChar k).isDigit ∧ (Nat.digitChar k).toNat - 48 = k := by
      interval_cases k <;> decide
    simp [skipAtoi, hd, ih fun x hx => hds x (mem_cons_of_mem k hx)]

theorem foldl_digits (w : Nat) : (Nat.digits 10 w).reverse.foldl (fun n k => n * 10 + k) 0 = w := by
  rw [foldl_reverse]
  conv_rhs => rw [← Nat.ofDigits_digits 10 w, Nat.ofDigits_eq_foldr]
  simp [mul_comm, add_comm]

/-- `field_width` after the scan. -/
def widthRead : Int := if d.width = 0 then -1 else d.width

theorem scan_width (f : Flags) (args : Args) :
    (∀ g, flagLoop (digits .u d.width ++ d.tail) g = (g, digits .u d.width ++ d.tail)) ∧
      fieldWidth f (digits .u d.width ++ d.tail) args = (d.widthRead, f, d.tail, args) := by
  have htail : ∀ i, skipAtoi d.tail i = (i, d.tail) := by
    intro i
    obtain ⟨_, _, _ | _, _ | _⟩ := d <;> rfl
  by_cases hw : d.width = 0
  · simp only [hw, digits, widthRead, Nat.digits_zero]
    obtain ⟨_, _, _ | _, _ | _⟩ := d <;> exact ⟨fun _ => rfl, rfl⟩
  · have hlt : ∀ k ∈ (Nat.digits 10 d.width).reverse, k < 10 := fun k hk =>
      Nat.digits_lt_base (by decide) (mem_reverse.1 hk)
    have hskip := skipAtoi_digits hlt htail 0
    rw [foldl_digits] at hskip
    have hlast : ∀ k ds, (Nat.digits 10 d.width).reverse = k :: ds → k ≠ 0 := by
      intro k ds h
      have hlast := Nat.getLast_digit_ne_zero 10 hw
      simpa [reverse_eq_iff.1 h] using hlast
    rw [show digits .u d.width = map Nat.digitChar (Nat.digits 10 d.width).reverse from rfl]
    revert hlt hskip hlast
    cases (Nat.digits 10 d.width).reverse with
    | nil =>
      intro _ hskip
      simp only [map_nil, nil_append, htail, Prod.mk.injEq, and_true] at hskip
      exact absurd hskip.symm hw
    | cons k ds =>
      intro hlt hskip hlast
      have hk := hlt k mem_cons_self
      have hk0 := hlast k ds rfl
      simp only [map_cons, cons_append] at hskip ⊢
      refine ⟨fun g => ?_, ?_⟩
      · interval_cases k <;> first | contradiction | rfl
      · have hread : ∀ s, fieldWidth f (k.digitChar :: s) args =
            (((skipAtoi (k.digitChar :: s) 0).1 : Int), f, (skipAtoi (k.digitChar :: s) 0).2, args) := by
          intro s
          interval_cases k <;> rfl
        rw [hread, hskip, widthRead, if_neg hw]

def convFlags (c : Conv) (fl : Text) : Flags := { flagsOf fl with sign := c.signed, small := c = .x }

/-- The argument as `number` gets it. -/
def widened (a : BitVec 64) : BitVec 64 := if d.long then a else (a.setWidth 32).setWidth 64

theorem vsprintf_text (str : BitVec 64 → Text) (a : BitVec 64) : vsprintf str d.text [a] =
    number (d.widened a) d.conv.base d.widthRead (-1) (convFlags d.conv d.flags) := by
  obtain ⟨hflag, hwidth⟩ := d.scan_width (flagsOf d.flags) [a]
  have hdir : directive str (d.flags ++ (digits .u d.width ++ d.tail)) [a] =
      (number (d.widened a) d.conv.base d.widthRead (-1) (convFlags d.conv d.flags), [], []) := by
    have hfl := flagLoop_flags d.flags_ok hflag {}
    simp only [Bool.false_or] at hfl
    change flagLoop _ _ = (flagsOf d.flags, _) at hfl
    simp only [directive, hfl, hwidth]
    generalize d.widthRead = w
    obtain ⟨_, _, _ | _, _ | _⟩ := d <;> rfl
  have hloop : ∀ k fmt, vsprintfLoop str (k + 1) ('%' :: fmt) [a] = (directive str fmt [a]).1 ++
      vsprintfLoop str k (directive str fmt [a]).2.1 (directive str fmt [a]).2.2 := fun _ _ => rfl
  have hnil : ∀ k, vsprintfLoop str k [] [] = [] := by
    intro k
    cases k <;> rfl
  change vsprintfLoop str (_ + 1) ('%' :: (d.flags ++ (digits .u d.width ++ d.tail))) [a] = _
  rw [hloop, hdir, hnil, append_nil]

/-! ## The number -/

theorem digitLoop_eq (small : Bool) {base : Nat} (hb : 1 < base) {k n : Nat} (hn : n < 2 ^ k) :
    digitLoop small base k n = (Nat.digits base n).map (digit small) := by
  induction k generalizing n with
  | zero => simp [digitLoop, show n = 0 by simpa using hn]
  | succ k ih =>
    rw [digitLoop]
    split_ifs with h0
    · simp [h0]
    · have hlt : n / base < 2 ^ k := by
        apply Nat.div_lt_of_lt_mul
        calc n < 2 * 2 ^ k := by rw [pow_succ] at hn; omega
          _ ≤ base * 2 ^ k := Nat.mul_le_mul_right _ hb
      rw [ih hlt, Nat.digits_def' hb (Nat.pos_of_ne_zero h0), map_cons]

theorem digits_eq (c : Conv) {n : Nat} (hn : n < 2 ^ 64) :
    (if n = 0 then ['0'] else digitLoop (c = .x) c.base 64 n).reverse = digitsOrZero c n := by
  have hb : 1 < c.base := by cases c <;> decide
  unfold digitsOrZero
  split_ifs
  · rfl
  · rw [digitLoop_eq _ hb hn, ← map_reverse]
    have hdigit : ∀ k < c.base, digit (c = .x) k = if c = .X then k.digitChar.toUpper else k.digitChar := by
      cases c <;> decide
    refine map_congr_left fun k hk => ?_
    rw [hdigit k (Nat.digits_lt_base hb (mem_reverse.1 hk))]

theorem number_field (c : Conv) (fl : Text) (v : BitVec 64) (w : Int) : number v c.base w (-1) (convFlags c fl) =
    field fl (signOf fl (c.signed && decide (v.toInt < 0)))
      (digitsOrZero c (if c.signed && decide (v.toInt < 0) then -v else v).toNat) w := by
  -- after one loop has filled
  have hend : ∀ m : Int, (min m 0 - 1).toNat = 0 := by omega
  have hzero : ∀ x : BitVec 64, x = 0#64 ↔ x.toNat = 0 := fun x => by simp [← BitVec.toNat_inj]
  rw [← digits_eq c (BitVec.isLt _)]
  by_cases hl : '-' ∈ fl <;> by_cases hz : '0' ∈ fl <;>
    simp [number, convFlags, flagsOf, field, signOf, fill, hl, hz, hend, hzero]

theorem not_mem_digits {c : Conv} {n : Nat} {x : Char} (h : x.isAlphanum = false) : x ∉ digitsOrZero c n := by
  intro hx
  have hdigit : ∀ k < c.base, (if c = .X then k.digitChar.toUpper else k.digitChar).isAlphanum := by
    cases c <;> decide
  unfold digitsOrZero at hx
  split_ifs at hx
  · rw [mem_singleton.1 hx] at h
    cases h
  · obtain ⟨k, hk, rfl⟩ := mem_map.1 hx
    rw [hdigit k (Nat.digits_lt_base (by cases c <;> decide) (mem_reverse.1 hk))] at h
    cases h

theorem minus_mem_signOf {fl : Text} {b : Bool} : '-' ∈ signOf fl b ↔ b := by
  unfold signOf
  split_ifs <;> simp_all

theorem mem_field {fl s ds : Text} {w : Int} {x : Char} (h0 : x ≠ '0') (h1 : x ≠ ' ') :
    x ∈ field fl s ds w ↔ x ∈ s ∨ x ∈ ds := by
  unfold field
  split_ifs <;> simp [mem_replicate, h0, h1]

theorem field_widthRead (fl s : Text) (c : Conv) (n : Nat) :
    field fl s (digitsOrZero c n) d.widthRead = field fl s (digitsOrZero c n) d.width := by
  by_cases hw : d.width = 0
  · have hpad : ∀ k l : Nat, (-1 - (k : Int) - l).toNat = ((0 : Nat) - (k : Int) - l).toNat := by omega
    simp only [field, widthRead, hw, if_pos, hpad]
  · rw [widthRead, if_neg hw]

theorem magnitude (v : BitVec 64) : (if v.toInt < 0 then -v else v).toNat = v.toInt.natAbs := by
  have hlt := v.isLt
  have hint := BitVec.toInt_eq_toNat_cond v
  split_ifs with h
  · rw [BitVec.toNat_neg]
    split_ifs at hint <;> omega
  · split_ifs at hint <;> omega

theorem toInt_widened (u : BitVec 32) : (u.setWidth 64).toInt = u.toNat := by
  have hlt := u.isLt
  rw [BitVec.toInt_eq_toNat_cond, BitVec.toNat_setWidth]
  omega

theorem field_space_iff {fl : Text} {c : Conv} {n w : Nat} : field fl [' '] (digitsOrZero c n) w =
    field fl [] (digitsOrZero c n) w ↔ '-' ∉ fl ∧ '0' ∉ fl ∧ (digitsOrZero c n).length < w := by
  have hspace : ' ' ∉ digitsOrZero c n := not_mem_digits rfl
  have hne : digitsOrZero c n ≠ [] := by
    by_cases h0 : n = 0 <;> simp [digitsOrZero, digits, Nat.digits_eq_nil_iff_eq_zero, h0]
  unfold field
  split_ifs with hl hz
  · obtain ⟨y, ds, hds⟩ := exists_cons_of_ne_nil hne
    rw [hds] at hspace ⊢
    simp only [hl, not_true, false_and, iff_false]
    intro h
    injection h with h
    exact hspace (h ▸ mem_cons_self)
  · simp only [hz, not_true, false_and, and_false, iff_false]
    intro h
    have hmem := congrArg (' ' ∈ ·) h
    simp [mem_replicate, hspace] at hmem
  · simp only [hl, hz, not_false_eq_true, true_and, append_nil, append_left_inj, ← replicate_succ', replicate_inj]
    simp
    omega

/-- The kernel prints what the C standard prescribes exactly for these arguments. -/
theorem vsprintf_standard_iff (str : BitVec 64 → Text) (a : BitVec 64) :
    vsprintf str d.text [a] = d.standard a ↔ d.Right a := by
  rw [vsprintf_text, number_field, field_widthRead]
  unfold Right standard
  cases hs : d.conv.signed with
  | true =>
    simp only [Bool.true_and, decide_eq_true_eq, if_true, magnitude]
    cases hlong : d.long with
    | true => simp [widened, value, hs, hlong]
    | false =>
      have hpos := toInt_widened (a.setWidth 32)
      have hint := BitVec.toInt_eq_toNat_cond (a.setWidth 32)
      simp only [widened, value, hs, hlong, Bool.false_eq_true, if_false, hpos, false_or]
      -- the standard's text has a minus exactly if the value is negative, the source's has none
      refine ⟨fun heq => ?_, fun h => ?_⟩
      · have hmem := congrArg ('-' ∈ ·) heq
        simp only [mem_field (show '-' ≠ '0' by decide) (show '-' ≠ ' ' by decide), minus_mem_signOf,
          not_mem_digits (show '-'.isAlphanum = false by decide), or_false, decide_eq_true_eq, eq_iff_iff] at hmem
        omega
      · rw [show (a.setWidth 32).toInt = (a.setWidth 32).toNat by split_ifs at hint <;> omega]
  | false =>
    have hval : (d.widened a).toNat = (d.value a).natAbs := by
      have hlt := (a.setWidth 32).isLt
      cases hlong : d.long <;> simp only [widened, value, hs, hlong, if_true, Bool.false_eq_true, if_false,
        BitVec.toNat_setWidth, Int.natAbs_natCast]
      omega
    simp only [Bool.false_and, Bool.false_eq_true, if_false, hval]
    by_cases hp : '+' ∈ d.flags
    · simp only [hp, not_true, false_and, iff_false]
      intro heq
      have hmem := congrArg ('+' ∈ ·) heq
      simp [mem_field, signOf, hp, not_mem_digits] at hmem
    · by_cases hsp : ' ' ∈ d.flags
      · simp [signOf, hp, hsp, field_space_iff]
      · simp [signOf, hp, hsp]

/-- `%d` of -1 -/
theorem minus_one_unsigned :
    let d : Directive := ⟨[], 0, false, .d, by simp, by decide⟩
    String.ofList d.text = "%d" ∧ d.standard (BitVec.ofInt 64 (-1)) = "-1".toList ∧
      vsprintf (fun _ => []) d.text [BitVec.ofInt 64 (-1)] = "4294967295".toList := by
  decide

end Directive
end Printk
