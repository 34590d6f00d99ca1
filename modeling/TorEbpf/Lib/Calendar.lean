import Mathlib

/-!
# The Gregorian calendar

Dates follow each other by `tomorrow`; the number of days between two dates is how often that is done.

* `Date`, `Date.Valid`, `tomorrow` — the calendar, one day after the other;
* `daysFrom y d` — the days from the first of January of the year `y`, counted by years and months;
* `daysFrom_iterate` — the two ways of counting agree.
-/

namespace TorEbpf.Lib

def IsLeap (y : ℕ) : Prop := y % 4 = 0 ∧ (y % 100 ≠ 0 ∨ y % 400 = 0)

instance : DecidablePred IsLeap := fun y => inferInstanceAs (Decidable (y % 4 = 0 ∧ (y % 100 ≠ 0 ∨ y % 400 =
    0)))

def yearLength (y : ℕ) : ℕ := if IsLeap y then 366 else 365

def monthLength (y m : ℕ) : ℕ :=
  if m = 2 then (if IsLeap y then 29 else 28) else if m = 4 ∨ m = 6 ∨ m = 9 ∨ m = 11 then 30 else 31

structure Date where
  year : ℕ
  month : ℕ
  day : ℕ
  deriving DecidableEq

structure Date.Valid (d : Date) : Prop where
  month_pos : 1 ≤ d.month
  month_le : d.month ≤ 12
  day_pos : 1 ≤ d.day
  day_le : d.day ≤ monthLength d.year d.month

def newYear (y : ℕ) : Date := ⟨y, 1, 1⟩

/-- **The day after a day.** -/
def tomorrow (d : Date) : Date :=
  if d.day < monthLength d.year d.month then ⟨d.year, d.month, d.day + 1⟩
  else if d.month < 12 then ⟨d.year, d.month + 1, 1⟩
  else newYear (d.year + 1)

/-- The days from the first day of the year `y`. -/
def daysFrom (y : ℕ) (d : Date) : ℕ :=
  ∑ i ∈ Finset.Ico y d.year, yearLength i + ∑ m ∈ Finset.Ico 1 d.month, monthLength d.year m + (d.day - 1)

variable {y : ℕ} {d : Date}

theorem monthLength_pos (y m : ℕ) : 1 ≤ monthLength y m := by
  unfold monthLength
  split_ifs <;> omega

theorem monthLength_le (y m : ℕ) : monthLength y m ≤ 31 := by
  unfold monthLength
  split_ifs <;> omega

theorem sum_monthLength (y : ℕ) : ∑ m ∈ Finset.Ico 1 13, monthLength y m = yearLength y := by
  unfold yearLength
  split_ifs with h <;> simp [Finset.sum_Ico_succ_top, monthLength, h]

theorem valid_newYear (y : ℕ) : (newYear y).Valid :=
  ⟨le_rfl, show 1 ≤ 12 by decide, le_rfl, monthLength_pos y 1⟩

theorem daysFrom_newYear (y : ℕ) : daysFrom y (newYear y) = 0 := by simp [daysFrom, newYear]

theorem valid_tomorrow (h : d.Valid) : (tomorrow d).Valid := by
  unfold tomorrow
  split_ifs with hday hmonth
  · exact ⟨h.month_pos, h.month_le, Nat.le_add_left 1 _, hday⟩
  · exact ⟨Nat.le_add_left 1 _, hmonth, le_rfl, monthLength_pos _ _⟩
  · exact valid_newYear _

theorem year_le_tomorrow (d : Date) : d.year ≤ (tomorrow d).year := by
  unfold tomorrow newYear
  split_ifs
  · exact le_rfl
  · exact le_rfl
  · exact Nat.le_succ _

theorem daysFrom_tomorrow (h : d.Valid) (hy : y ≤ d.year) : daysFrom y (tomorrow d) = daysFrom y d + 1 := by
  have hpos := h.day_pos
  have hle := h.day_le
  unfold tomorrow
  split_ifs with hday hmonth
  · unfold daysFrom
    dsimp only
    omega
  · have hsum := Finset.sum_Ico_succ_top h.month_pos (monthLength d.year)
    unfold daysFrom
    dsimp only
    omega
  · have hlast : d.month = 12 := Nat.le_antisymm h.month_le (Nat.le_of_not_lt hmonth)
    have hyears := Finset.sum_Ico_succ_top hy yearLength
    have hmonths := sum_monthLength d.year
    rw [Finset.sum_Ico_succ_top (by decide)] at hmonths
    unfold daysFrom newYear
    rw [hlast] at hday hle ⊢
    dsimp only
    rw [hyears, Finset.Ico_self, Finset.sum_empty]
    omega

section Iterate

variable (y) (n : ℕ)

theorem valid_iterate : (tomorrow^[n] (newYear y)).Valid := by
  induction n with
  | zero => exact valid_newYear y
  | succ n ih =>
    rw [Function.iterate_succ_apply']
    exact valid_tomorrow ih

theorem year_le_iterate : y ≤ (tomorrow^[n] (newYear y)).year := by
  induction n with
  | zero => exact le_rfl
  | succ n ih =>
    rw [Function.iterate_succ_apply']
    exact ih.trans (year_le_tomorrow _)

/-- **The date after `n` days** is `n` days away. -/
theorem daysFrom_iterate : daysFrom y (tomorrow^[n] (newYear y)) = n := by
  induction n with
  | zero => exact daysFrom_newYear y
  | succ n ih =>
    rw [Function.iterate_succ_apply', daysFrom_tomorrow (valid_iterate y n) (year_le_iterate y n), ih]

end Iterate

/-! ### Every date is reached -/

/-! ### Leap days by division -/

def leapsBefore (y : ℕ) : ℤ := ((y : ℤ) - 1) / 4 - (y - 1) / 100 + (y - 1) / 400

theorem leapsBefore_succ (y : ℕ) : leapsBefore (y + 1) = leapsBefore y + if IsLeap y then 1 else 0 := by
  unfold leapsBefore IsLeap
  split_ifs <;> omega

/-- **The days of the years** from `y` to `z`. -/
theorem sum_yearLength {z : ℕ} (h : y ≤ z) : ((∑ i ∈ Finset.Ico y z, yearLength i : ℕ) : ℤ) =
    365 * ((z : ℤ) - y) + (leapsBefore z - leapsBefore y) := by
  induction z, h using Nat.le_induction with
  | base => simp
  | succ z hz ih =>
    rw [Finset.sum_Ico_succ_top hz, Nat.cast_add, ih, leapsBefore_succ, yearLength]
    split_ifs <;> push_cast <;> ring

end TorEbpf.Lib
