import Mathlib.Tactic.Common

/-! # The days of the Gregorian calendar

The calendar repeats every 400 years, that is 146097 days. Years are counted from the first of March,
so that a leap day is the last day of its year: day `doe` of such an era lies in year `yearOfEra doe`
of the era, and is day `dayOfYear doe` of that year, in month `monthOfYear` counted from March. -/

namespace OsLabs.Calendar

/-- The year of an era that contains a day of the era. -/
def yearOfEra (doe : Int) : Int := (doe - doe / 1460 + doe / 36524 - doe / 146096) / 365

/-- The number of days of an era before a year. -/
def daysBefore (yoe : Int) : Int := 365 * yoe + yoe / 4 - yoe / 100

/-- The day of its year that a day of the era is. -/
def dayOfYear (doe : Int) : Int := doe - daysBefore (yearOfEra doe)

/-- The month of a day of the year, counted from March. -/
def monthOfYear (doy : Int) : Int := (5 * doy + 2) / 153

/-- The number of days of the year before a month. -/
def daysBeforeMonth (mp : Int) : Int := (153 * mp + 2) / 5

variable {doe doy : Int}

/-- An era has 400 years. -/
theorem yearOfEra_mem (h0 : 0 ≤ doe) (h1 : doe < 146097) :
    0 ≤ yearOfEra doe ∧ yearOfEra doe ≤ 399 := by
  unfold yearOfEra
  omega

/-- A year has at most 366 days. -/
theorem dayOfYear_mem (h0 : 0 ≤ doe) (h1 : doe < 146097) :
    0 ≤ dayOfYear doe ∧ dayOfYear doe ≤ 365 := by
  obtain ⟨yoe, hyoe⟩ : ∃ yoe, yearOfEra doe = yoe := ⟨_, rfl⟩
  unfold dayOfYear daysBefore
  rw [hyoe]
  unfold yearOfEra at hyoe
  have hle : 365 * yoe ≤ doe - doe / 1460 + doe / 36524 - doe / 146096 := by omega
  have hlt : doe - doe / 1460 + doe / 36524 - doe / 146096 < 365 * yoe + 365 := by omega
  clear hyoe
  obtain ⟨c, hc⟩ : ∃ c, doe / 36524 = c := ⟨_, rfl⟩
  obtain ⟨e, he⟩ : ∃ e, doe / 146096 = e := ⟨_, rfl⟩
  obtain ⟨q, hq⟩ : ∃ q, doe / 1460 = q := ⟨_, rfl⟩
  rw [hc, he, hq] at hle hlt
  -- the century of the year is that of the day, but for the very last day
  have hcentury : yoe / 100 = c - e := by
    have hcs : c = 0 ∨ c = 1 ∨ c = 2 ∨ c = 3 ∨ c = 4 := by omega
    have hes : e = 0 ∨ e = 1 := by omega
    rcases hcs with rfl | rfl | rfl | rfl | rfl <;> rcases hes with rfl | rfl <;> omega
  have hleap : yoe / 4 ≤ q := by omega
  have hleap' : q ≤ yoe / 4 + 1 := by omega
  omega

/-- A year has twelve months. -/
theorem monthOfYear_mem (h0 : 0 ≤ doy) (h1 : doy ≤ 365) :
    0 ≤ monthOfYear doy ∧ monthOfYear doy ≤ 11 := by
  unfold monthOfYear
  omega

/-- A month has at most 31 days. -/
theorem dayOfMonth_mem (doy : Int) :
    0 ≤ doy - daysBeforeMonth (monthOfYear doy) ∧ doy - daysBeforeMonth (monthOfYear doy) ≤ 30 := by
  unfold daysBeforeMonth monthOfYear
  omega

end OsLabs.Calendar
