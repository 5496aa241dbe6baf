/-
# The proleptic Gregorian calendar

Years, months and days with their lengths, and the number of a date: the days
from the first of January of the year 0. The dates of the years before one
number the days before it (`exists_date`).

Counted from the first of March a leap day is a year's last, so that the lengths of
the months are a straight line and those of the years repeat every 400. A date's
number is then a sum of roundings in the year of the cycle and the day of that
year (`Date.number_eq`), and both are had from it by roundings again
(`Date.yearOfCycle_eq`, `Date.monthOfDay_eq`).

Key definitions: `Leap`, `monthLength`, `Date`, `Date.number`.
Key theorems: `exists_date`, `Date.number_eq`, `Date.yearOfCycle_eq`, `Date.monthOfDay_eq`.
-/
import Mathlib.Algebra.BigOperators.Group.Finset.Basic
import Mathlib.Tactic.IntervalCases

namespace Calendar

open Finset

/-- The leap years: every fourth, of the centuries every fourth only. -/
def Leap (y : ℕ) : Prop := y % 4 = 0 ∧ y % 100 ≠ 0 ∨ y % 400 = 0

instance : DecidablePred Leap := fun _ => inferInstanceAs (Decidable (_ ∨ _))

def yearLength (y : ℕ) : ℕ := if Leap y then 366 else 365

def monthLength (y m : ℕ) : ℕ :=
  if m = 2 then if Leap y then 29 else 28
  else if m = 4 ∨ m = 6 ∨ m = 9 ∨ m = 11 then 30
  else 31

/-- The days of the years before one. -/
def daysBeforeYear (y : ℕ) : ℕ := ∑ k ∈ range y, yearLength k

/-- The days of a year's months before one. -/
def daysBeforeMonth (y m : ℕ) : ℕ := ∑ k ∈ range (m - 1), monthLength y (k + 1)

/-- A day of the calendar. -/
structure Date where
  year : ℕ
  month : ℕ
  day : ℕ
  one_le_month : 1 ≤ month
  month_le : month ≤ 12
  one_le_day : 1 ≤ day
  day_le : day ≤ monthLength year month

/-- How many days are before it. -/
def Date.number (d : Date) : ℕ :=
  daysBeforeYear d.year + daysBeforeMonth d.year d.month + (d.day - 1)

/-! ### Every day has a date -/

/-- What is before the end of some blocks is in one of them. -/
theorem exists_block (f : ℕ → ℕ) {n : ℕ} : ∀ {N : ℕ}, n < ∑ k ∈ range N, f k →
    ∃ k < N, ∃ r < f k, n = (∑ j ∈ range k, f j) + r
  | 0, h => by simp at h
  | N + 1, h => by
    rw [sum_range_succ] at h
    rcases Nat.lt_or_ge n (∑ k ∈ range N, f k) with hlt | hge
    · obtain ⟨k, hk, r, hr, hn⟩ := exists_block f hlt
      exact ⟨k, by omega, r, hr, hn⟩
    · exact ⟨N, by omega, n - ∑ k ∈ range N, f k, by omega, by omega⟩

/-- The months before a month: from March on each five have 153 days. -/
theorem daysBeforeMonth_eq {y m : ℕ} (h1 : 1 ≤ m) (h12 : m ≤ 13) :
    daysBeforeMonth y m = if m ≤ 2 then 31 * (m - 1)
      else (if Leap y then 60 else 59) + (153 * (m - 3) + 2) / 5 := by
  unfold daysBeforeMonth
  by_cases hl : Leap y <;> interval_cases m <;> simp [sum_range_succ, monthLength, hl]

/-- The months fill the year. -/
theorem daysBeforeMonth_end (y : ℕ) : daysBeforeMonth y 13 = yearLength y := by
  rw [daysBeforeMonth_eq (by omega) le_rfl, yearLength]
  by_cases hl : Leap y <;> simp [hl]

/-- **The days before a year are its dates'.** -/
theorem exists_date {n N : ℕ} (h : n < daysBeforeYear N) : ∃ d : Date, d.year < N ∧ d.number = n := by
  obtain ⟨y, hy, r, hr, rfl⟩ := exists_block yearLength h
  rw [← daysBeforeMonth_end] at hr
  obtain ⟨m, hm, q, hq, rfl⟩ := exists_block (fun k => monthLength y (k + 1)) hr
  refine ⟨⟨y, m + 1, q + 1, by omega, by omega, by omega, hq⟩, hy, ?_⟩
  simp only [Date.number, daysBeforeYear, daysBeforeMonth, Nat.add_sub_cancel]
  omega

/-! ### Years from March -/

/-- The multiples of a number before `y + 1`. -/
theorem succ_roundUp {n : ℕ} (hn : 0 < n) (y : ℕ) :
    (y + n) / n = (y + (n - 1)) / n + if y % n = 0 then 1 else 0 := by
  have hsucc : y + n = y + (n - 1) + 1 := by omega
  have hdvd : n ∣ y + (n - 1) + 1 ↔ y % n = 0 := by
    rw [← hsucc, Nat.dvd_add_self_right, Nat.dvd_iff_mod_eq_zero]
  rw [hsucc, Nat.succ_div]
  simp only [hdvd]

/-- The days before a year are 365 for each, and a leap day for every fourth. -/
theorem daysBeforeYear_eq (y : ℕ) :
    daysBeforeYear y + (y + 99) / 100 = 365 * y + (y + 3) / 4 + (y + 399) / 400 := by
  induction y with
  | zero => rfl
  | succ y ih =>
    have hstep : daysBeforeYear (y + 1) = daysBeforeYear y + yearLength y := sum_range_succ _ _
    have h4 := succ_roundUp (n := 4) (by decide) y
    have h100 := succ_roundUp (n := 100) (by decide) y
    have h400 := succ_roundUp (n := 400) (by decide) y
    have hlength : yearLength y + (if y % 100 = 0 then 1 else 0) =
        365 + (if y % 4 = 0 then 1 else 0) + if y % 400 = 0 then 1 else 0 := by
      have h1 : y % 100 = 0 → y % 4 = 0 := by omega
      have h2 : y % 400 = 0 → y % 100 = 0 := by omega
      rw [yearLength]
      split_ifs <;> simp_all [Leap]
    simp only [Nat.add_right_comm y 1, Nat.reduceSub] at *
    rw [hstep]
    omega

variable (d : Date)

/-- The year that begins with March, of which January and February are the last months. -/
def Date.marchYear : ℤ := if d.month ≤ 2 then d.year - 1 else d.year

/-- The month, from March on. -/
def Date.marchMonth : ℤ := (d.month + 9) % 12

/-- The day of the year that begins with March. -/
def Date.marchDay : ℤ := (153 * d.marchMonth + 2) / 5 + d.day - 1

theorem Date.marchMonth_nonneg : 0 ≤ d.marchMonth := Int.emod_nonneg _ (by decide)

theorem Date.marchMonth_lt : d.marchMonth < 12 := Int.emod_lt_of_pos _ (by decide)

/-- A month has no more days than there are to the next, and a year's last has a day
more in a leap year only. -/
theorem Date.day_le_march :
    d.day ≤ (153 * (d.marchMonth + 1) + 2) / 5 - (153 * d.marchMonth + 2) / 5 ∧
      (d.marchMonth = 11 → d.day ≤ 29 ∧ (d.day = 29 → Leap d.year)) := by
  obtain ⟨y, m, day, h1, h12, -, hle⟩ := d
  simp only [marchMonth]
  unfold monthLength at hle
  interval_cases m <;> by_cases hl : Leap y <;> simp [hl] at hle <;> simp [hl] <;> omega

/-- The days from the March of the year 0 to that of another. -/
def daysBeforeMarch (y : ℤ) : ℤ := 365 * y + y / 4 - y / 100 + y / 400

theorem daysBeforeMarch_eq (y : ℤ) : daysBeforeMarch y =
    y / 400 * 146097 + (y % 400 * 365 + y % 400 / 4 - y % 400 / 100) := by
  have h4 : y / 4 = 100 * (y / 400) + y % 400 / 4 := by omega
  have h100 : y / 100 = 4 * (y / 400) + y % 400 / 100 := by omega
  rw [daysBeforeMarch, h4, h100]
  omega

/-- A year begins ten months after a March. -/
theorem daysBeforeYear_eq_march (y : ℕ) : (daysBeforeYear y : ℤ) = daysBeforeMarch (y - 1) + 366 := by
  have h : (daysBeforeYear y : ℤ) + (y + 99) / 100 = 365 * y + (y + 3) / 4 + (y + 399) / 400 := by
    exact_mod_cast daysBeforeYear_eq y
  have h4 : ((y + 3) / 4 : ℤ) = (y - 1) / 4 + 1 := by omega
  have h100 : ((y + 99) / 100 : ℤ) = (y - 1) / 100 + 1 := by omega
  have h400 : ((y + 399) / 400 : ℤ) = (y - 1) / 400 + 1 := by omega
  rw [h4, h100, h400] at h
  rw [daysBeforeMarch]
  omega

/-- The day of the 400 years' cycle, from March on. -/
def Date.cycleDay : ℤ :=
  d.marchYear % 400 * 365 + d.marchYear % 400 / 4 - d.marchYear % 400 / 100 + d.marchDay

/-- **A date's number**, from its cycle and its day of that. -/
theorem Date.number_eq : (d.number : ℤ) = d.marchYear / 400 * 146097 + d.cycleDay + 60 := by
  have hline : (d.number : ℤ) = daysBeforeMarch d.marchYear + d.marchDay + 60 := by
    obtain ⟨y, m, day, h1, h12, hd, -⟩ := d
    have hmonth := daysBeforeMonth_eq (y := y) h1 (by omega)
    have hyear := daysBeforeYear_eq_march y
    have hnext := daysBeforeYear_eq_march (y + 1)
    have hstep : daysBeforeYear (y + 1) = daysBeforeYear y + yearLength y := sum_range_succ _ _
    have hsame : ((y + 1 : ℕ) : ℤ) - 1 = y := by omega
    rw [hsame, hstep] at hnext
    simp only [number, marchDay, marchMonth, marchYear]
    rw [hmonth]
    by_cases hm : m ≤ 2
    · simp only [hm, if_true]
      omega
    · have hlength : yearLength y = 306 + if Leap y then 60 else 59 := by
        rw [yearLength]
        split <;> rfl
      rw [hlength] at hnext
      simp only [hm, if_false]
      omega
  rw [hline, daysBeforeMarch_eq, cycleDay]
  omega

theorem Date.marchDay_nonneg : 0 ≤ d.marchDay := by
  have h := d.marchMonth_nonneg
  have hd := d.one_le_day
  simp only [marchDay]
  omega

/-- **The year of the cycle** is the rounded part of its days. -/
theorem year_of_cycle {yoe doy doe : ℤ} (h0 : 0 ≤ yoe) (h1 : yoe < 400) (hd0 : 0 ≤ doy)
    (hd : doy < 365 ∨ doy = 365 ∧ (yoe + 1) % 4 = 0 ∧ ((yoe + 1) % 100 ≠ 0 ∨ (yoe + 1) % 400 = 0))
    (hdoe : doe = yoe * 365 + yoe / 4 - yoe / 100 + doy) :
    (doe - doe / 1460 + doe / 36524 - doe / 146096) / 365 = yoe := by
  have hcentury : yoe / 100 = 0 ∨ yoe / 100 = 1 ∨ yoe / 100 = 2 ∨ yoe / 100 = 3 := by omega
  rcases hd with hd | ⟨rfl, h4, hleap⟩
  · have hc : doe / 36524 = yoe / 100 := by
      rcases hcentury with h | h | h | h <;> rw [h] at hdoe ⊢ <;> omega
    have he : doe / 146096 = 0 := by
      rcases hcentury with h | h | h | h <;> rw [h] at hdoe <;> omega
    have hf : doe / 1460 = yoe / 4 ∨ doe / 1460 = yoe / 4 + 1 ∧ 1 ≤ doy := by omega
    rw [hc, he]
    generalize yoe / 4 = q at *
    generalize yoe / 100 = c at *
    generalize doe / 1460 = f at *
    rcases hf with rfl | ⟨rfl, hf⟩ <;> omega
  · -- the last day of a leap year ends four years
    have hf : doe / 1460 = yoe / 4 + 1 := by
      rcases hcentury with h | h | h | h <;> rw [h] at hdoe <;> omega
    have hce : doe / 36524 - doe / 146096 = yoe / 100 := by
      rcases hleap with h100 | h400
      · have hlt : yoe % 100 < 99 := by omega
        have hlt : yoe < 100 * (yoe / 100) + 99 := by omega
        have hc : doe / 36524 = yoe / 100 := by
          clear h4 h100
          rcases hcentury with h | h | h | h <;> rw [h] at hdoe hlt ⊢ <;> omega
        have he : doe / 146096 = 0 := by
          rcases hcentury with h | h | h | h <;> rw [h] at hdoe <;> omega
        omega
      · obtain rfl : yoe = 399 := by omega
        subst hdoe
        decide
    generalize yoe / 4 = q at *
    generalize yoe / 100 = c at *
    generalize doe / 1460 = f at *
    generalize doe / 36524 = c' at *
    generalize doe / 146096 = e at *
    omega

/-- **The month of a year from March** is the rounded part of its days. -/
theorem month_of_day {mp doy day : ℤ} (hd : 1 ≤ day)
    (hle : day ≤ (153 * (mp + 1) + 2) / 5 - (153 * mp + 2) / 5)
    (hdoy : doy = (153 * mp + 2) / 5 + day - 1) : (5 * doy + 2) / 153 = mp := by
  omega

/-! ### A date from its number -/

/-- A year from March has a last day more in front of a leap year's February. -/
theorem Date.marchDay_lt : d.marchDay < 365 ∨ d.marchDay = 365 ∧ Leap d.year ∧
    d.marchYear = d.year - 1 := by
  obtain ⟨hle, hlast⟩ := d.day_le_march
  have hlt := d.marchMonth_lt
  have hfirst := d.one_le_month
  have hmonth := d.month_le
  by_cases hfeb : d.marchMonth = 11
  · obtain ⟨hday, hleap⟩ := hlast hfeb
    have hyear : d.marchYear = d.year - 1 := by
      have h2 : d.month = 2 := by
        simp only [marchMonth] at hfeb
        omega
      simp [marchYear, h2]
    simp only [marchDay, hfeb]
    by_cases h29 : d.day = 29
    · exact .inr ⟨by rw [h29]; decide, hleap h29, hyear⟩
    · exact .inl (by omega)
  · left
    simp only [marchDay]
    omega

theorem Date.cycleDay_bounds : 0 ≤ d.cycleDay ∧ d.cycleDay < 146097 := by
  have h0 := d.marchDay_nonneg
  have hlt := d.marchDay_lt
  have hyear := Int.emod_nonneg d.marchYear (show (400 : ℤ) ≠ 0 by decide)
  have hyear' := Int.emod_lt_of_pos d.marchYear (show (0 : ℤ) < 400 by decide)
  simp only [cycleDay]
  generalize d.marchYear % 400 = yoe at *
  omega

theorem Date.cycle_eq : ((d.number : ℤ) - 60) / 146097 = d.marchYear / 400 := by
  have h := d.number_eq
  obtain ⟨h0, hlt⟩ := d.cycleDay_bounds
  omega

theorem Date.cycleDay_eq : ((d.number : ℤ) - 60) % 146097 = d.cycleDay := by
  have h := d.number_eq
  obtain ⟨h0, hlt⟩ := d.cycleDay_bounds
  omega

/-- The year in which the days of the cycle fall. -/
theorem Date.yearOfCycle_eq :
    (d.cycleDay - d.cycleDay / 1460 + d.cycleDay / 36524 - d.cycleDay / 146096) / 365 =
      d.marchYear % 400 := by
  apply year_of_cycle (Int.emod_nonneg _ (by decide)) (Int.emod_lt_of_pos _ (by decide))
    d.marchDay_nonneg _ rfl
  rcases d.marchDay_lt with hlt | ⟨heq, hleap, hyear⟩
  · exact .inl hlt
  · refine .inr ⟨heq, ?_⟩
    rw [hyear]
    rcases hleap with ⟨h4, h100⟩ | h400
    · exact ⟨by omega, .inl (by omega)⟩
    · exact ⟨by omega, .inr (by omega)⟩

/-- The month in which the days of the year from March fall. -/
theorem Date.monthOfDay_eq : (5 * d.marchDay + 2) / 153 = d.marchMonth :=
  month_of_day (by have := d.one_le_day; omega) d.day_le_march.1 rfl

end Calendar
