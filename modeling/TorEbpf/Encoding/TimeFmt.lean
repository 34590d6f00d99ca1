import TorEbpf.Lib.Calendar

/-!
# `tor_timegm`

The seconds of a broken-down time, from `time_fmt.c`.  Whether February has 29 days is decided by
`IS_LEAPYEAR(tm->tm_year)`, and `tm_year` counts from 1900: that is the right answer for the years that 400
divides only where it is wrong.

* `torTimegm` — the code;
* `gregorianTimegm` — what it is for;
* `torTimegm_eq_iff` — they agree except on the 29th of February of two kinds of years.
-/

namespace TorEbpf.Encoding

open TorEbpf.Lib

def int32Max : ℤ := 2 ^ 31 - 1

structure Tm where
  tmYear : ℤ
  tmMon : ℤ
  tmMday : ℤ
  tmHour : ℤ
  tmMin : ℤ
  tmSec : ℤ

def isLeapyear (y : ℤ) : Bool := y.tmod 4 == 0 && (y.tmod 100 != 0 || y.tmod 400 == 0)

def nLeapdays (year1 year2 : ℤ) : ℤ :=
  let year1 := year1 - 1
  let year2 := year2 - 1
  (year2.tdiv 4 - year1.tdiv 4) - (year2.tdiv 100 - year1.tdiv 100) + (year2.tdiv 400 - year1.tdiv 400)

def daysPerMonth : List ℤ := [31, 28, 31, 30, 31, 30, 31, 31, 30, 31, 30, 31]

/-- `tor_timegm`, with a `time_t` of 64 bits. -/
def torTimegm (tm : Tm) : Option ℤ :=
  let year := if tm.tmYear < int32Max - 1900 then tm.tmYear + 1900 else int32Max
  let invalidYear : Bool := year < 1970 || tm.tmYear ≥ int32Max - 1900
  let dpm :=
    if 0 ≤ tm.tmMon ∧ tm.tmMon ≤ 11 then
      if tm.tmMon = 1 ∧ invalidYear = false ∧ isLeapyear tm.tmYear = true then 29
      else daysPerMonth.getD tm.tmMon.toNat 0
    else 0
  if invalidYear = true ∨ tm.tmMon < 0 ∨ 11 < tm.tmMon ∨ tm.tmMday < 1 ∨ dpm < tm.tmMday ∨
      tm.tmHour < 0 ∨ 23 < tm.tmHour ∨ tm.tmMin < 0 ∨ 59 < tm.tmMin ∨ tm.tmSec < 0 ∨ 60 < tm.tmSec then none
  else
    let days := 365 * (year - 1970) + nLeapdays 1970 year
    let days := (daysPerMonth.take tm.tmMon.toNat).foldl (· + ·) days
    let days := if 1 < tm.tmMon ∧ isLeapyear year = true then days + 1 else days
    let days := days + (tm.tmMday - 1)
    let hours := days * 24 + tm.tmHour
    let minutes := hours * 60 + tm.tmMin
    some (minutes * 60 + tm.tmSec)

/-! ### What it is for -/

/-- The day that a `struct tm` names. -/
def Tm.date (tm : Tm) : Date := ⟨(tm.tmYear + 1900).toNat, (tm.tmMon + 1).toNat, tm.tmMday.toNat⟩

structure Tm.InRange (tm : Tm) : Prop where
  year : 1970 ≤ tm.tmYear + 1900 ∧ tm.tmYear + 1900 ≤ int32Max - 1
  mon : 0 ≤ tm.tmMon ∧ tm.tmMon ≤ 11
  hour : 0 ≤ tm.tmHour ∧ tm.tmHour ≤ 23
  min : 0 ≤ tm.tmMin ∧ tm.tmMin ≤ 59
  sec : 0 ≤ tm.tmSec ∧ tm.tmSec ≤ 60

def Tm.DayExists (tm : Tm) : Prop := 1 ≤ tm.tmMday ∧ tm.tmMday ≤ monthLength tm.date.year tm.date.month

def Tm.seconds (tm : Tm) : ℤ :=
  86400 * (daysFrom 1970 tm.date : ℤ) + (tm.tmHour * 3600 + tm.tmMin * 60 + tm.tmSec)

variable {tm : Tm}

instance : Decidable tm.InRange :=
  decidable_of_iff ((1970 ≤ tm.tmYear + 1900 ∧ tm.tmYear + 1900 ≤ int32Max - 1) ∧
      (0 ≤ tm.tmMon ∧ tm.tmMon ≤ 11) ∧ (0 ≤ tm.tmHour ∧ tm.tmHour ≤ 23) ∧ (0 ≤ tm.tmMin ∧ tm.tmMin ≤ 59) ∧
      (0 ≤ tm.tmSec ∧ tm.tmSec ≤ 60))
    ⟨fun ⟨h1, h2, h3, h4, h5⟩ => ⟨h1, h2, h3, h4, h5⟩, fun ⟨h1, h2, h3, h4, h5⟩ => ⟨h1, h2, h3, h4, h5⟩⟩

instance : Decidable tm.DayExists :=
  inferInstanceAs (Decidable (1 ≤ tm.tmMday ∧ tm.tmMday ≤ monthLength tm.date.year tm.date.month))

/-- **The time of a date** of the Gregorian calendar. -/
def gregorianTimegm (tm : Tm) : Option ℤ :=
  if tm.InRange ∧ tm.DayExists then some tm.seconds else none

/-- The 29th of February of a year that `IS_LEAPYEAR(tm_year)` misjudges. -/
def Tm.CenturyDay (tm : Tm) : Prop :=
  tm.tmMon = 1 ∧ tm.tmMday = 29 ∧ ((tm.tmYear + 1900) % 400 = 0 ∨ (tm.tmYear + 1900) % 400 = 300)

/-! ### Leap years -/

theorem isLeapyear_iff {y : ℤ} (h : 0 ≤ y) : isLeapyear y = true ↔ IsLeap y.toNat := by
  obtain ⟨n, rfl⟩ := Int.eq_ofNat_of_zero_le h
  simp only [isLeapyear, Int.tmod_eq_emod_of_nonneg h, Bool.and_eq_true, Bool.or_eq_true, beq_iff_eq,
    bne_iff_ne,
    IsLeap, Int.toNat_natCast]
  omega

/-- Counted from 1900, the years that 100 divides are judged by another of their kind. -/
theorem isLeapyear_sub {y : ℤ} (h : 70 ≤ y) :
    isLeapyear y = true ↔ (IsLeap (y + 1900).toNat ∧ (y + 1900) % 400 ≠ 0) ∨ (y + 1900) % 400 = 300 := by
  rw [isLeapyear_iff (by omega)]
  unfold IsLeap
  omega

theorem nLeapdays_eq {year : ℕ} (h : 1970 ≤ year) : nLeapdays 1970 year =
    leapsBefore year - leapsBefore 1970 := by
  have hpos : (0 : ℤ) ≤ year - 1 := by omega
  have h4 : ((1970 : ℤ) - 1).tdiv 4 = 492 := rfl
  have h100 : ((1970 : ℤ) - 1).tdiv 100 = 19 := rfl
  have h400 : ((1970 : ℤ) - 1).tdiv 400 = 4 := rfl
  unfold nLeapdays leapsBefore
  simp only [Int.tdiv_eq_ediv_of_nonneg hpos, h4, h100, h400]
  omega

/-! ### Days of a date -/

theorem sum_months {year m : ℕ} (h : m ≤ 11) : ((∑ i ∈ Finset.Ico 1 (m + 1), monthLength year i : ℕ) : ℤ) =
    (daysPerMonth.take m).sum + if 1 < m ∧ IsLeap year then 1 else 0 := by
  by_cases hleap : IsLeap year
  · interval_cases m <;> simp [Finset.sum_Ico_succ_top, monthLength, daysPerMonth, hleap]
  · interval_cases m <;> simp [Finset.sum_Ico_succ_top, monthLength, daysPerMonth, hleap]

theorem monthLength_eq {year m : ℕ} (h : m ≤ 11) : (monthLength year (m + 1) : ℤ) =
    if m = 1 ∧ IsLeap year then 29 else daysPerMonth.getD m 0 := by
  by_cases hleap : IsLeap year
  · interval_cases m <;> simp [monthLength, daysPerMonth, hleap]
  · interval_cases m <;> simp [monthLength, daysPerMonth, hleap]

/-! ### The code -/

/-- The days that `tor_timegm` lets a month have. -/
def Tm.dpm (tm : Tm) : ℤ :=
  if tm.tmMon = 1 ∧ isLeapyear tm.tmYear = true then 29 else daysPerMonth.getD tm.tmMon.toNat 0

theorem torTimegm_of_not_inRange (h : ¬tm.InRange) : torTimegm tm = none := by
  unfold torTimegm
  refine if_pos ?_
  by_contra hcon
  simp only [not_or, Bool.or_eq_true, decide_eq_true_eq, not_lt] at hcon
  obtain ⟨⟨hpast, hfar⟩, hmon, hmon', -, -, hhour, hhour', hmin, hmin', hsec, hsec'⟩ := hcon
  rw [if_pos (by omega)] at hpast
  exact h ⟨⟨hpast, by omega⟩, ⟨hmon, hmon'⟩, ⟨hhour, hhour'⟩, ⟨hmin, hmin'⟩, ⟨hsec, hsec'⟩⟩

theorem foldl_add_eq (l : List ℤ) (d : ℤ) : l.foldl (· + ·) d = d + l.sum := by
  induction l generalizing d with
  | nil => simp
  | cons x l ih => rw [List.foldl_cons, ih, List.sum_cons, add_assoc]

/-- The days that `tor_timegm` counts are those of the calendar. -/
theorem days_eq {year m day : ℕ} (hyear : 1970 ≤ year) (hm : m ≤ 11) (hday : 1 ≤ day) :
    (if 1 < (m : ℤ) ∧ isLeapyear year = true then
        (daysPerMonth.take m).foldl (· + ·) (365 * ((year : ℤ) - 1970) + nLeapdays 1970 year) + 1
      else (daysPerMonth.take m).foldl (· + ·) (365 * ((year : ℤ) - 1970) + nLeapdays 1970 year)) +
      ((day : ℤ) - 1) = daysFrom 1970 ⟨year, m + 1, day⟩ := by
  have hmonths := @sum_months year m hm
  have hyears := sum_yearLength hyear
  have hleap := isLeapyear_iff (y := year) (by omega)
  rw [Int.toNat_natCast] at hleap
  simp only [foldl_add_eq, hleap, Nat.one_lt_cast, nLeapdays_eq hyear]
  rw [daysFrom, Nat.cast_add, Nat.cast_add, hmonths, hyears, Nat.cast_sub hday]
  split_ifs <;> push_cast <;> ring

theorem torTimegm_of_inRange (h : tm.InRange) :
    torTimegm tm = if 1 ≤ tm.tmMday ∧ tm.tmMday ≤ tm.dpm then some tm.seconds else none := by
  have hyear := h.year
  have hmon := h.mon
  have hfar : tm.tmYear < int32Max - 1900 := by omega
  have hvalid : (decide (tm.tmYear + 1900 < 1970) || decide (tm.tmYear ≥ int32Max - 1900)) = false := by
    rw [Bool.or_eq_false_iff, decide_eq_false_iff_not, decide_eq_false_iff_not]
    omega
  have hdpm : (if 0 ≤ tm.tmMon ∧ tm.tmMon ≤ 11 then
      if tm.tmMon = 1 ∧ false = false ∧ isLeapyear tm.tmYear = true then 29
      else daysPerMonth.getD tm.tmMon.toNat 0 else 0) = tm.dpm := by
    rw [if_pos hmon, Tm.dpm]
    simp only [true_and]
  unfold torTimegm
  rw [if_pos hfar]
  dsimp only
  rw [hvalid, hdpm]
  by_cases hday : 1 ≤ tm.tmMday ∧ tm.tmMday ≤ tm.dpm
  · have hdays := @days_eq (tm.tmYear + 1900).toNat tm.tmMon.toNat tm.tmMday.toNat
      (by omega) (by omega) (by omega)
    simp only [Int.toNat_of_nonneg hmon.1, Int.toNat_of_nonneg (show 0 ≤ tm.tmYear + 1900 by omega),
      Int.toNat_of_nonneg (show 0 ≤ tm.tmMday by omega)] at hdays
    have hdate : tm.date = ⟨(tm.tmYear + 1900).toNat, tm.tmMon.toNat + 1, tm.tmMday.toNat⟩ := by
      rw [Tm.date, Int.toNat_add hmon.1 (by decide)]
      rfl
    have hhour := h.hour
    have hmin := h.min
    have hsec := h.sec
    rw [if_pos hday, if_neg (by simp only [Bool.false_eq_true, false_or]; omega), hdays, Tm.seconds, hdate]
    congr 1
    ring
  · rw [if_neg hday, if_pos (by omega)]

/-- Except on the days in question, the days of the month are right. -/
theorem le_dpm_iff (h : tm.InRange) :
    (1 ≤ tm.tmMday ∧ tm.tmMday ≤ tm.dpm ↔ tm.DayExists) ↔ ¬tm.CenturyDay := by
  have hyear := h.year
  have hmon := h.mon
  have hlength := @monthLength_eq (tm.tmYear + 1900).toNat tm.tmMon.toNat (by omega)
  have hleap := isLeapyear_sub (y := tm.tmYear) (by omega)
  have hone : tm.tmMon.toNat = 1 ↔ tm.tmMon = 1 := by omega
  have hdate : monthLength tm.date.year tm.date.month =
      monthLength (tm.tmYear + 1900).toNat (tm.tmMon.toNat + 1) := by
    rw [Tm.date, Int.toNat_add hmon.1 (by decide)]
    rfl
  have hcentury : (tm.tmYear + 1900) % 400 = 300 → ¬IsLeap (tm.tmYear + 1900).toNat := by
    unfold IsLeap
    omega
  have hleap400 : (tm.tmYear + 1900) % 400 = 0 → IsLeap (tm.tmYear + 1900).toNat := by
    unfold IsLeap
    omega
  rw [Tm.DayExists, hdate, hlength, Tm.dpm, Tm.CenturyDay]
  simp only [hone, hleap]
  by_cases hfeb : tm.tmMon = 1
  · simp only [hfeb, true_and]
    by_cases h0 : (tm.tmYear + 1900) % 400 = 0
    · have := hleap400 h0
      simp [h0, this, daysPerMonth]
      omega
    · by_cases h300 : (tm.tmYear + 1900) % 400 = 300
      · have := hcentury h300
        simp [h300, this, daysPerMonth]
        omega
      · simp [h0, h300]
  · simp [hfeb]

/-- **`tor_timegm` is Gregorian** except on the 29th of February of the years that 400 divides, which it
rejects, and of the years that are 300 more, where there is no such day and it returns a time. -/
theorem torTimegm_eq_iff : torTimegm tm = gregorianTimegm tm ↔ ¬(tm.InRange ∧ tm.CenturyDay) := by
  unfold gregorianTimegm
  by_cases h : tm.InRange
  · rw [torTimegm_of_inRange h]
    simp only [h, true_and, ← le_dpm_iff h]
    split_ifs with h1 h2 h2 <;> simp [h1, h2]
  · simp [torTimegm_of_not_inRange h, h]

end TorEbpf.Encoding
