import Pinflow.Time

/-!
# The calendar

A day number and its date determine each other, and the date is one that the calendar has:
`Instant.dayOf_dateOf` and `Instant.dateOf_valid`. Years are counted from March, as in the
definitions. Within an era of 400 years the year of a day is found by a division that is
corrected for leap days; it is right on the first and the last day of every year, and since it
never goes back it is right on the days between.
-/

namespace Pinflow.Instant

variable {dayOfYear day year a b : Nat}

/-- The first day of a year, counted in its era. -/
def yearStart (year : Nat) : Nat := 365 * year + year / 4 - year / 100

/-- The year of a day, both counted in their era. -/
def yearOfDay (day : Nat) : Nat := (day - day / 1460 + day / 36524 - day / 146096) / 365

theorem yearOfDay_le (before : a ≤ b) : yearOfDay a ≤ yearOfDay b := by
  induction before with
  | refl => exact Nat.le_refl _
  | @step b before ih =>
    refine Nat.le_trans ih (Nat.div_le_div_right ?_)
    omega

/-- The division is right where years begin. -/
theorem yearOfDay_yearStart (inEra : year < 400) : yearOfDay (yearStart year) = year := by
  have quarters : yearStart year / 1460 = year / 4 := by rw [yearStart]; omega
  have centuries : yearStart year / 36524 = year / 100 := by rw [yearStart]; omega
  have eras : yearStart year / 146096 = 0 := by rw [yearStart]; omega
  rw [yearOfDay, quarters, centuries, eras, yearStart]
  omega

/-- The division is right where years end. -/
theorem yearOfDay_pred (inEra : year < 400) (later : 0 < year) :
    yearOfDay (yearStart year - 1) = year - 1 := by
  have quarters : (yearStart year - 1) / 1460 = year / 4 := by rw [yearStart]; omega
  have centuries : (yearStart year - 1) / 36524 = (year - 1) / 100 := by rw [yearStart]; omega
  have eras : (yearStart year - 1) / 146096 = 0 := by rw [yearStart]; omega
  rw [yearOfDay, quarters, centuries, eras, yearStart]
  omega

theorem yearOfDay_lt (inEra : day < 146097) : yearOfDay day < 400 := by
  have last : yearOfDay day ≤ yearOfDay 146096 := yearOfDay_le (by omega)
  exact Nat.lt_of_le_of_lt last (by decide)

theorem yearStart_le (inEra : day < 146097) : yearStart (yearOfDay day) ≤ day := by
  apply Nat.le_of_not_lt
  intro before
  have earlier : yearOfDay day ≤ yearOfDay (yearStart (yearOfDay day) - 1) :=
    yearOfDay_le (by omega)
  have positive : 0 < yearOfDay day := by
    apply Nat.pos_of_ne_zero
    intro zero
    rw [zero] at before
    exact Nat.not_lt_zero _ before
  rw [yearOfDay_pred (yearOfDay_lt inEra) positive] at earlier
  omega

theorem lt_yearStart_succ (early : yearOfDay day < 399) : day < yearStart (yearOfDay day + 1) := by
  apply Nat.lt_of_not_le
  intro after
  have later := yearOfDay_le after
  rw [yearOfDay_yearStart (by omega)] at later
  omega

theorem yearStart_succ_le (year : Nat) : yearStart (year + 1) ≤ yearStart year + 366 ∧
    (yearStart (year + 1) = yearStart year + 366 → (year + 1) % 4 = 0 ∧ (year + 1) % 100 ≠ 0) := by
  rw [yearStart, yearStart]
  omega

/-- A year has 365 days, and one more if a leap day ends it. -/
theorem dayOfYear_le (inEra : day < 146097) :
    day - yearStart (yearOfDay day) ≤ 365 ∧
      (day - yearStart (yearOfDay day) = 365 → (yearOfDay day + 1) % 4 = 0 ∧
        ((yearOfDay day + 1) % 100 ≠ 0 ∨ yearOfDay day + 1 = 400)) := by
  have year := yearOfDay_lt inEra
  by_cases early : yearOfDay day < 399
  · have before := lt_yearStart_succ early
    have long := yearStart_succ_le (yearOfDay day)
    omega
  · have last : yearOfDay day = 399 := by omega
    rw [last, yearStart]
    omega

def dateInYear (year : Int) (dayOfYear : Nat) : Int × Nat × Nat :=
  let monthFromMarch := (5 * dayOfYear + 2) / 153
  let day := dayOfYear - (153 * monthFromMarch + 2) / 5 + 1
  let month := if monthFromMarch < 10 then monthFromMarch + 3 else monthFromMarch - 9
  (if month ≤ 2 then year + 1 else year, month, day)

/-- The era, year and day of the year into which a day number falls. -/
theorem exists_dateOf (day : Int) : ∃ (era : Int) (year dayOfYear : Nat),
    day + 719468 = era * 146097 + (yearStart year + dayOfYear : Nat) ∧ year < 400 ∧
      dayOfYear ≤ 365 ∧
      (dayOfYear = 365 → (year + 1) % 4 = 0 ∧ ((year + 1) % 100 ≠ 0 ∨ year + 1 = 400)) ∧
      dateOf day = dateInYear (era * 400 + year) dayOfYear := by
  have inEra : ((day + 719468) % 146097).toNat < 146097 := by omega
  refine ⟨(day + 719468) / 146097, yearOfDay ((day + 719468) % 146097).toNat,
    ((day + 719468) % 146097).toNat - yearStart (yearOfDay ((day + 719468) % 146097).toNat),
    ?_, yearOfDay_lt inEra, (dayOfYear_le inEra).1, (dayOfYear_le inEra).2, rfl⟩
  have start := yearStart_le inEra
  omega

/-- The days of a month. The last day of the year is a leap day. -/
theorem dateInYear_month : ∀ dayOfYear < 366,
    let monthFromMarch := (5 * dayOfYear + 2) / 153
    let month := if monthFromMarch < 10 then monthFromMarch + 3 else monthFromMarch - 9
    monthFromMarch < 12 ∧ (153 * monthFromMarch + 2) / 5 ≤ dayOfYear ∧
      dayOfYear - (153 * monthFromMarch + 2) / 5 + 1 ≤
        (if month = 2 then if dayOfYear = 365 then 29 else 28
        else if month = 4 ∨ month = 6 ∨ month = 9 ∨ month = 11 then 30
        else 31) := by
  intro dayOfYear inYear
  generalize counted : (5 * dayOfYear + 2) / 153 = monthFromMarch
  have inTable : monthFromMarch < 12 := by omega
  refine ⟨inTable, by omega, ?_⟩
  split <;> split <;> (try split) <;> omega

theorem dayOf_dateInYear (era : Int) {year : Nat} (inEra : year < 400) (long : dayOfYear ≤ 365) :
    dayOf (dateInYear (era * 400 + year) dayOfYear).1 (dateInYear (era * 400 + year) dayOfYear).2.1
      (dateInYear (era * 400 + year) dayOfYear).2.2 =
        era * 146097 + (yearStart year + dayOfYear : Nat) - 719468 := by
  obtain ⟨fromMarch, start, -⟩ := dateInYear_month dayOfYear (by omega)
  have quotient : (era * 400 + year) / 400 = era := by omega
  have remainder : (era * 400 + year) % 400 = year := by omega
  simp only [dateInYear]
  generalize (5 * dayOfYear + 2) / 153 = monthFromMarch at *
  by_cases early : monthFromMarch < 10
  · have counted : (monthFromMarch + 3 + 9) % 12 = monthFromMarch := by omega
    have notNext : ¬ monthFromMarch + 3 ≤ 2 := by omega
    simp only [early, if_true, notNext, if_false, dayOf, quotient, remainder, counted, yearStart]
    omega
  · have counted : (monthFromMarch - 9 + 9) % 12 = monthFromMarch := by omega
    have next : monthFromMarch - 9 ≤ 2 := by omega
    simp only [early, if_false, next, if_true, dayOf, Int.add_sub_cancel, quotient, remainder,
      counted, yearStart]
    omega

/-- The day number of the date of a day number is the day number. -/
theorem dayOf_dateOf (day : Int) :
    dayOf (dateOf day).1 (dateOf day).2.1 (dateOf day).2.2 = day := by
  obtain ⟨era, year, dayOfYear, falls, inEra, long, -, same⟩ := exists_dateOf day
  rw [same, dayOf_dateInYear era inEra long]
  omega

/-- The calendar has the date of a day number. -/
theorem dateOf_valid (day : Int) :
    1 ≤ (dateOf day).2.1 ∧ (dateOf day).2.1 ≤ 12 ∧ 1 ≤ (dateOf day).2.2 ∧
      (dateOf day).2.2 ≤ daysInMonth (dateOf day).1 (dateOf day).2.1 := by
  obtain ⟨era, year, dayOfYear, falls, inEra, long, leap, same⟩ := exists_dateOf day
  obtain ⟨fromMarch, start, within⟩ := dateInYear_month dayOfYear (by omega)
  rw [same]
  simp only [dateInYear]
  refine ⟨by split <;> omega, by split <;> omega, by omega, Nat.le_trans within ?_⟩
  generalize (if (5 * dayOfYear + 2) / 153 < 10 then (5 * dayOfYear + 2) / 153 + 3
    else (5 * dayOfYear + 2) / 153 - 9) = month
  rw [daysInMonth]
  by_cases february : month = 2
  · have early : month ≤ 2 := by omega
    rw [if_pos february, if_pos february, if_pos early]
    by_cases last : dayOfYear = 365
    · have isLeap : isLeapYear (era * 400 + year + 1) = true := by
        obtain ⟨fourth, century⟩ := leap last
        simp only [isLeapYear, Bool.and_eq_true, Bool.or_eq_true, beq_iff_eq, bne_iff_ne]
        omega
      apply Nat.le_of_eq
      rw [if_pos last, if_pos isLeap]
    · rw [if_neg last]
      split <;> decide
  · apply Nat.le_of_eq
    rw [if_neg february, if_neg february]

/-- Within the bounds of the calendar the year is within them too. -/
theorem year_dateOf {day : Int} (after : dayOf firstYear 1 1 ≤ day)
    (before : day ≤ dayOf lastYear 12 31) :
    firstYear ≤ (dateOf day).1 ∧ (dateOf day).1 ≤ lastYear := by
  obtain ⟨era, year, dayOfYear, falls, inEra, long, -, same⟩ := exists_dateOf day
  obtain ⟨fromMarch, start, -⟩ := dateInYear_month dayOfYear (by omega)
  have firstDay : dayOf firstYear 1 1 = -96465292 := by decide
  have lastDay : dayOf lastYear 12 31 = 95026236 := by decide
  rw [firstDay] at after
  rw [lastDay] at before
  -- the first and the last year of the calendar are the years 256 and 142 of their eras
  have span : yearStart year ≤ 145731 := by
    rw [yearStart]
    omega
  have early : (year < 256 → yearStart year + 365 ≤ 93502) ∧
      (year = 256 → yearStart year = 93502) := by
    rw [yearStart]
    omega
  have late : (142 < year → 52229 ≤ yearStart year) ∧ (year = 142 → yearStart year = 51864) := by
    rw [yearStart]
    omega
  have eras : -656 ≤ era ∧ era ≤ 655 := by omega
  rw [same]
  simp only [dateInYear, firstYear, lastYear]
  constructor <;> split <;> split <;> omega

theorem daysInMonth_le (year : Int) (month : Nat) : daysInMonth year month ≤ 31 := by
  rw [daysInMonth]
  split
  · split <;> decide
  · split <;> decide

theorem yearStart_mono (before : a ≤ b) : yearStart a ≤ yearStart b := by
  induction before with
  | refl => exact Nat.le_refl _
  | @step b before ih =>
    refine Nat.le_trans ih ?_
    rw [yearStart, yearStart]
    omega

/-- Every day of a year comes before the years that follow. -/
theorem yearStart_lt {earlier later : Nat} (before : earlier < later) (inEra : later < 400)
    (long : dayOfYear ≤ 365)
    (leap : dayOfYear = 365 →
      (earlier + 1) % 4 = 0 ∧ ((earlier + 1) % 100 ≠ 0 ∨ earlier + 1 = 400)) :
    yearStart earlier + dayOfYear < yearStart later := by
  refine Nat.lt_of_lt_of_le ?_ (yearStart_mono before)
  rw [yearStart, yearStart]
  omega

/-- A number for a date that counts 31 days for every month. -/
def dateCode (date : Int × Nat × Nat) : Int := (date.1 * 12 + date.2.1) * 31 + date.2.2

/-- A number for a day of the year that counts 31 days for every month. -/
def dayCode (dayOfYear : Nat) : Nat :=
  (5 * dayOfYear + 2) / 153 * 31 + (dayOfYear - (153 * ((5 * dayOfYear + 2) / 153) + 2) / 5)

theorem dayCode_lt (before : a < b) : dayCode a < dayCode b := by
  have months : (5 * a + 2) / 153 ≤ (5 * b + 2) / 153 := Nat.div_le_div_right (by omega)
  have short : a - (153 * ((5 * a + 2) / 153) + 2) / 5 ≤ 30 := by omega
  have start : (153 * ((5 * a + 2) / 153) + 2) / 5 ≤ a := by omega
  rw [dayCode, dayCode]
  by_cases same : (5 * a + 2) / 153 = (5 * b + 2) / 153
  · rw [← same]
    omega
  · omega

theorem dayCode_lt_of_le (long : dayOfYear ≤ 365) : dayCode dayOfYear < 372 := by
  rw [dayCode]
  omega

theorem dateCode_dateInYear (year : Int) (long : dayOfYear ≤ 365) :
    dateCode (dateInYear year dayOfYear) = year * 372 + 94 + dayCode dayOfYear := by
  simp only [dateCode, dateInYear, dayCode]
  split <;> split <;> omega

theorem dateCode_dateOf_lt {a b : Int} (before : a < b) :
    dateCode (dateOf a) < dateCode (dateOf b) := by
  obtain ⟨eraA, yearA, dayA, fallsA, inEraA, longA, leapA, sameA⟩ := exists_dateOf a
  obtain ⟨eraB, yearB, dayB, fallsB, inEraB, longB, leapB, sameB⟩ := exists_dateOf b
  have shortA := dayCode_lt_of_le longA
  have startA := yearStart_mono (Nat.le_of_lt_succ inEraA)
  have startB := yearStart_mono (Nat.le_of_lt_succ inEraB)
  have last : yearStart 399 = 145731 := rfl
  rw [sameA, sameB, dateCode_dateInYear _ longA, dateCode_dateInYear _ longB]
  have eras : eraA ≤ eraB := by omega
  by_cases sameEra : eraA = eraB
  · have years : yearA ≤ yearB := by
      apply Nat.le_of_not_lt
      intro later
      have yearBefore := yearStart_lt later inEraA longB leapB
      omega
    by_cases sameYear : yearA = yearB
    · subst sameEra sameYear
      have days := @dayCode_lt dayA dayB (by omega)
      omega
    · omega
  · omega

/-- The later of two days has the later date. -/
theorem dateOf_lt {a b : Int} (before : a < b) :
    (dateOf a).1 < (dateOf b).1 ∨ (dateOf a).1 = (dateOf b).1 ∧
      ((dateOf a).2.1 < (dateOf b).2.1 ∨ (dateOf a).2.1 = (dateOf b).2.1 ∧
        (dateOf a).2.2 < (dateOf b).2.2) := by
  have codes := dateCode_dateOf_lt before
  obtain ⟨firstMonthA, lastMonthA, firstDayA, lastDayA⟩ := dateOf_valid a
  obtain ⟨firstMonthB, lastMonthB, firstDayB, lastDayB⟩ := dateOf_valid b
  have longA := Nat.le_trans lastDayA (daysInMonth_le _ _)
  have longB := Nat.le_trans lastDayB (daysInMonth_le _ _)
  rw [dateCode, dateCode] at codes
  omega
end Pinflow.Instant
