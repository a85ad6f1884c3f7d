import Loeux.Fat32.Dir
/-!
# Time stamps (`fs/fat32.c`)

Seconds since 1970 become a date and a time of 16 bits each by counting off years and
months, and are got back by a closed formula for the number of days.
-/

open Nat

namespace Fat32

def isLeap (year : Nat) : Bool := year % 4 = 0 && year % 100 ≠ 0 || year % 400 = 0

def yearDays (year : Nat) : Nat := if isLeap year then 366 else 365

/-- `days_in_month`, with 29 days in the February of a leap year. -/
def daysInMonth (leap : Bool) : List Nat := [31, if leap then 29 else 28, 31, 30, 31, 30, 31, 31, 30, 31, 30, 31]

/-- The loop over the years, with the days that are left and the year; it makes no more rounds
than there are days. -/
def yearLoop : Nat → (days year : Nat) → Nat × Nat
  | 0, days, year => (days, year)
  | rounds + 1, days, year =>
    if yearDays year ≤ days then yearLoop rounds (days - yearDays year) (year + 1) else (days, year)

def monthLoop : List Nat → (days month : Nat) → Nat × Nat
  | [], days, month => (days, month)
  | md :: rest, days, month => if md ≤ days then monthLoop rest (days - md) (month + 1) else (days, month)

def unixToFat (ux_sec : Nat) : Stamp :=
  let sec := ux_sec % 60
  let min := ux_sec / 60 % 60
  let hour := ux_sec / 60 / 60 % 24
  let (days, year) := yearLoop (ux_sec / 60 / 60 / 24) (ux_sec / 60 / 60 / 24) 1970
  let (days, month) := monthLoop (daysInMonth (isLeap year)) days 1
  let (days, month, year) := if year < 1980 then (0, 1, 1980) else (days, month, year)
  { time := (hour <<< 11 ||| min <<< 5 ||| sec / 2) % 2 ^ 16
    date := ((year - 1980) <<< 9 ||| month <<< 5 ||| (days + 1)) % 2 ^ 16 }

def civilDays (year month day : Nat) : Nat :=
  let y := year - (if month ≤ 2 then 1 else 0)
  let era := y / 400
  let yoe := y - era * 400
  let doy := (153 * (if 2 < month then month - 3 else month + 9) + 2) / 5 + day - 1
  let doe := yoe * 365 + yoe / 4 - yoe / 100 + doy
  era * 146097 + doe - 719468

def fatToUnix (t : Stamp) : Nat :=
  let year := 1980 + (t.date >>> 9 &&& 0x7F)
  let month := min (max (t.date >>> 5 &&& 0xF) 1) 12
  let day := min (max (t.date &&& 0x1F) 1) 31
  civilDays year month day * 86400 + (t.time >>> 11 &&& 0x1F) * 3600 + (t.time >>> 5 &&& 0x3F) * 60 + (t.time &&& 0x1F) * 2

/-! ## Years -/

/-- The days from 1970 up to the year `1970 + n`. -/
def daysBefore : Nat → Nat
  | 0 => 0
  | n + 1 => daysBefore n + yearDays (1970 + n)

variable {n n' d : Nat}

theorem daysBefore_mono (h : n ≤ n') : daysBefore n ≤ daysBefore n' := by
  induction n', h using le_induction with
  | base => exact le_refl _
  | succ n' hn ih => exact ih.trans (Nat.le_add_right _ _)

theorem yearLoop_spec {rounds : Nat} (hr : d ≤ rounds) (n : Nat) :
    ∃ d' n', yearLoop rounds d (1970 + n) = (d', 1970 + n') ∧ daysBefore n' + d' = daysBefore n + d ∧ d' < yearDays (1970 + n') := by
  have hpos : 365 ≤ yearDays (1970 + n) := by unfold yearDays; split_ifs <;> omega
  induction rounds generalizing d n with
  | zero => exact ⟨d, n, rfl, rfl, by omega⟩
  | succ rounds ih =>
    unfold yearLoop
    split_ifs with h
    · obtain ⟨d', n', e, h1, h2⟩ := ih (d := d - yearDays (1970 + n)) (by omega) (n + 1) (by unfold yearDays; split_ifs <;> omega)
      refine ⟨d', n', e, ?_, h2⟩
      rw [h1, daysBefore]
      omega
    · exact ⟨d, n, rfl, rfl, Nat.lt_of_not_le h⟩

/-! ## Days of a year -/

def monthDay (leap : Bool) (d : Nat) : Nat × Nat :=
  ((monthLoop (daysInMonth leap) d 1).2, (monthLoop (daysInMonth leap) d 1).1 + 1)

theorem monthDay_table : ∀ leap : Bool, ∀ d < if leap then 366 else 365,
    (1 ≤ (monthDay leap d).1 ∧ (monthDay leap d).1 ≤ 12 ∧ 1 ≤ (monthDay leap d).2 ∧ (monthDay leap d).2 ≤ 31) ∧
    (if (monthDay leap d).1 ≤ 2 then (153 * ((monthDay leap d).1 + 9) + 2) / 5 + (monthDay leap d).2 - 1 = 306 + d
      else (153 * ((monthDay leap d).1 - 3) + 2) / 5 + (monthDay leap d).2 - 1 + (if leap then 60 else 59) = d) := by
  decide +kernel

theorem monthDay_step : ∀ leap : Bool, ∀ d < if leap then 365 else 364,
    (monthDay leap d).1 * 32 + (monthDay leap d).2 < (monthDay leap (d + 1)).1 * 32 + (monthDay leap (d + 1)).2 := by
  decide +kernel

theorem era_table : ∀ n < 139, (1969 + n) / 400 * 146097 + ((1969 + n - (1969 + n) / 400 * 400) * 365 +
    (1969 + n - (1969 + n) / 400 * 400) / 4 - (1969 + n - (1969 + n) / 400 * 400) / 100) = daysBefore n + 719162 := by
  decide +kernel

theorem civilDays_eq (hn : n < 138) (hd : d < yearDays (1970 + n)) :
    civilDays (1970 + n) (monthDay (isLeap (1970 + n)) d).1 (monthDay (isLeap (1970 + n)) d).2 = daysBefore n + d := by
  obtain ⟨⟨h1, h2, h3, h4⟩, h5⟩ := monthDay_table (isLeap (1970 + n)) d hd
  have hera := era_table n (by omega)
  have hnext := era_table (n + 1) (by omega)
  rw [daysBefore, yearDays] at hnext
  unfold civilDays
  dsimp only
  rw [← Nat.add_assoc]
  generalize (monthDay (isLeap (1970 + n)) d).1 = m at *
  generalize (monthDay (isLeap (1970 + n)) d).2 = k at *
  by_cases hm : m ≤ 2
  · rw [if_pos hm] at h5
    rw [if_pos hm, if_neg (by omega), h5, show 1970 + n - 1 = 1969 + n by omega, hera]
    omega
  · rw [if_neg hm] at h5
    rw [if_neg hm, if_pos (by omega), Nat.sub_zero, show 1970 + n = 1969 + (n + 1) by omega, hnext]
    split_ifs at h5 ⊢ <;> omega

/-! ## The packed fields -/

theorem pack_eq (a : Nat) {b c n m : Nat} (hc : c < 2 ^ n) (hb : b < 2 ^ m) :
    a <<< (m + n) ||| b <<< n ||| c = (a * 2 ^ m + b) * 2 ^ n + c := by
  rw [shiftLeft_add, ← shiftLeft_or_distrib, ← shiftLeft_add_eq_or_of_lt hb, ← shiftLeft_add_eq_or_of_lt hc,
    shiftLeft_eq, shiftLeft_eq]

theorem unixToFat_spec {t : Nat} (h : 315532800 ≤ t) (ht : t < 2 ^ 32) :
    ∃ n d, 10 ≤ n ∧ n < 138 ∧ d < yearDays (1970 + n) ∧ daysBefore n + d = t / 86400 ∧
      (unixToFat t).date = ((n - 10) * 16 + (monthDay (isLeap (1970 + n)) d).1) * 32 + (monthDay (isLeap (1970 + n)) d).2 ∧
      (unixToFat t).time = (t % 86400 / 3600 * 64 + t % 3600 / 60) * 32 + t % 60 / 2 := by
  have hdays : t / 60 / 60 / 24 = t / 86400 := by omega
  obtain ⟨d, n, e, h1, h2⟩ := yearLoop_spec (le_refl (t / 86400)) 0
  have h0 : daysBefore 0 = 0 := rfl
  have h10 : daysBefore 10 = 3652 := by decide
  have h138 : daysBefore 138 = 50403 := by decide +kernel
  have hlo : 10 ≤ n := by
    by_contra hc
    have : daysBefore (n + 1) ≤ daysBefore 10 := daysBefore_mono (by omega)
    rw [daysBefore] at this
    omega
  have hhi : n < 138 := by
    by_contra hc
    have : daysBefore 138 ≤ daysBefore n := daysBefore_mono (by omega)
    omega
  obtain ⟨⟨m1, m2, m3, m4⟩, -⟩ := monthDay_table (isLeap (1970 + n)) d h2
  unfold unixToFat
  dsimp only
  rw [hdays, show 1970 = 1970 + 0 from rfl, e]
  refine ⟨n, d, hlo, hhi, h2, by omega, ?_, ?_⟩
  · dsimp only
    rw [if_neg (by omega), show 1970 + n - 1980 = n - 10 by omega]
    unfold monthDay at *
    dsimp only at *
    rw [pack_eq (m := 4) (n := 5) _ (by omega) (by omega), mod_eq_of_lt (by omega)]
    rfl
  · rw [pack_eq (m := 6) (n := 5) _ (by omega) (by omega), mod_eq_of_lt (by omega)]
    omega

/-! ## The round trip -/

theorem fatToUnix_unixToFat {t : Nat} (h : 315532800 ≤ t) (ht : t < 2 ^ 32) : fatToUnix (unixToFat t) = t / 2 * 2 := by
  obtain ⟨n, d, hlo, hhi, hd, hday, hdate, htime⟩ := unixToFat_spec h ht
  have hc := civilDays_eq hhi hd
  obtain ⟨⟨m1, m2, m3, m4⟩, -⟩ := monthDay_table (isLeap (1970 + n)) d hd
  unfold fatToUnix
  rw [hdate, htime]
  simp only [shiftRight_eq_div_pow, show 0x7F = 2 ^ 7 - 1 from rfl, show 0xF = 2 ^ 4 - 1 from rfl, show 0x1F = 2 ^ 5 - 1 from rfl,
    show 0x3F = 2 ^ 6 - 1 from rfl, and_two_pow_sub_one_eq_mod]
  generalize (monthDay (isLeap (1970 + n)) d).1 = m at *
  generalize (monthDay (isLeap (1970 + n)) d).2 = k at *
  have e1 : 1980 + (((n - 10) * 16 + m) * 32 + k) / 2 ^ 9 % 2 ^ 7 = 1970 + n := by omega
  have e2 : min (max ((((n - 10) * 16 + m) * 32 + k) / 2 ^ 5 % 2 ^ 4) 1) 12 = m := by omega
  have e3 : min (max ((((n - 10) * 16 + m) * 32 + k) % 2 ^ 5) 1) (2 ^ 5 - 1) = k := by omega
  rw [e1, e2, e3, hc]
  omega

theorem date_mono {d' i : Nat} (hi : i ≤ 1) (hd : d < yearDays (1970 + n)) (hd' : d' < yearDays (1970 + n'))
    (h : daysBefore n + d + i ≤ daysBefore n' + d') :
    (n * 16 + (monthDay (isLeap (1970 + n)) d).1) * 32 + (monthDay (isLeap (1970 + n)) d).2 + i ≤
      (n' * 16 + (monthDay (isLeap (1970 + n')) d').1) * 32 + (monthDay (isLeap (1970 + n')) d').2 := by
  obtain ⟨⟨m1, m2, m3, m4⟩, -⟩ := monthDay_table (isLeap (1970 + n)) d hd
  obtain ⟨⟨n1, n2, n3, n4⟩, -⟩ := monthDay_table (isLeap (1970 + n')) d' hd'
  rcases lt_trichotomy n n' with hlt | rfl | hgt
  · omega
  · have hstep : ∀ e, d ≤ e → e < yearDays (1970 + n) → (monthDay (isLeap (1970 + n)) d).1 * 32 + (monthDay (isLeap (1970 + n)) d).2 +
        (e - d) ≤ (monthDay (isLeap (1970 + n)) e).1 * 32 + (monthDay (isLeap (1970 + n)) e).2 := by
      intro e he hlt
      induction e, he using le_induction with
      | base => omega
      | succ e he ih =>
        have := monthDay_step (isLeap (1970 + n)) e (by unfold yearDays at hlt; split_ifs at hlt ⊢ <;> omega)
        have := ih (by omega)
        omega
    have := hstep d' (by omega) hd'
    omega
  · have : daysBefore (n' + 1) ≤ daysBefore n := daysBefore_mono hgt
    rw [daysBefore] at this
    omega

def Stamp.packed (s : Stamp) : Nat := s.date * 2 ^ 16 + s.time

theorem unixToFat_mono {t t' : Nat} (h : 315532800 ≤ t) (hle : t ≤ t') (ht : t' < 2 ^ 32) :
    (unixToFat t).packed ≤ (unixToFat t').packed := by
  obtain ⟨n, d, hlo, hhi, hd, hday, hdate, htime⟩ := unixToFat_spec h (by omega)
  obtain ⟨n', d', hlo', hhi', hd', hday', hdate', htime'⟩ := unixToFat_spec (t := t') (by omega) ht
  unfold Stamp.packed
  rw [hdate, hdate', htime, htime']
  rcases Nat.lt_or_ge (t / 86400) (t' / 86400) with hlt | hge
  · have := date_mono (le_refl 1) hd hd' (by omega)
    omega
  · -- on one day the time decides
    have := date_mono (Nat.zero_le 1) hd hd' (by omega)
    have hsec : t % 86400 ≤ t' % 86400 := by omega
    have hm : ∀ t, t % 3600 = t % 86400 % 3600 ∧ t % 60 = t % 86400 % 60 := by omega
    rw [(hm t).1, (hm t).2, (hm t').1, (hm t').2]
    generalize t % 86400 = u at *
    generalize t' % 86400 = v at *
    have hmin : u / 3600 * 64 + u % 3600 / 60 ≤ v / 3600 * 64 + v % 3600 / 60 := by omega
    omega

theorem timestamps_right (t t' : Nat) (h : 315532800 ≤ t) (ht : t < 2 ^ 32) (hle : t ≤ t') (ht' : t' < 2 ^ 32) :
    fatToUnix (unixToFat t) = t / 2 * 2 ∧ (unixToFat t).packed ≤ (unixToFat t').packed :=
  ⟨fatToUnix_unixToFat h ht, unixToFat_mono h hle ht'⟩

/-- The last second of a 29 February, and the second after it. -/
theorem timestamps_right_leap_day : (unixToFat 951868799).date = 0x285D ∧ fatToUnix (unixToFat 951868799) = 951868798 ∧
    (unixToFat 951868799).packed ≤ (unixToFat 951868800).packed :=
  ⟨by decide +kernel, timestamps_right 951868799 951868800 (by omega) (by omega) (by omega) (by omega)⟩

end Fat32
