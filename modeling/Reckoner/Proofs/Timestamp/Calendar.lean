import Reckoner.Timestamp.Basic

/-!
# `Reckoner.Proofs.Timestamp.Calendar` — days and dates

The date of a day exists, and the day of that date is the day. Both follow from the place of a day
in its era: whole centuries, cycles of four years, years, and the days since the start of March.

## Contents
- **Places.** `Place`, `exists_place`, and what the formulas of `Date.ofDays` give for a place.
- **Months.** The month and the day of a day of the year: `mod_monthNumber` and `dayOfMonth_le`.
- **Dates.** `toDays_ofDays`, `isValid_ofDays`, and `natAbs_year_le` for instants in range.
-/

namespace Reckoner.Timestamp

/-! ## Places -/

/-- The place of a day in its era. Only the last year of a cycle has a leap day, and not the one of
    the last cycle of a century, unless that century is the era's last. -/
structure Place (dayOfEra century cycle year day : Int) : Prop where
  sum : dayOfEra = 36524 * century + 1461 * cycle + 365 * year + day
  century_mem : 0 ≤ century ∧ century ≤ 3
  cycle_mem : 0 ≤ cycle ∧ cycle ≤ 24
  year_mem : 0 ≤ year ∧ year ≤ 3
  day_nonneg : 0 ≤ day
  day_le : day ≤ 364 ∨ day = 365 ∧ year = 3 ∧ (cycle = 24 → century = 3)

theorem exists_place {dayOfEra : Int} (h : 0 ≤ dayOfEra ∧ dayOfEra < daysPerEra) :
    ∃ century cycle year day, Place dayOfEra century cycle year day := by
  unfold daysPerEra at h
  obtain ⟨century, hcentury⟩ : ∃ c, c = min (dayOfEra / 36524) 3 := ⟨_, rfl⟩
  obtain ⟨rest, hrest⟩ : ∃ r, r = dayOfEra - 36524 * century := ⟨_, rfl⟩
  obtain ⟨year, hyear⟩ : ∃ y, y = min (rest % 1461 / 365) 3 := ⟨_, rfl⟩
  refine ⟨century, rest / 1461, year, rest % 1461 - 365 * year, ?_, ?_, ?_, ?_, ?_, ?_⟩
  all_goals omega

section Places

variable {dayOfEra century cycle year day : Int}

/-- The year of an era from the place of the day. -/
theorem yearOfEra_eq (h : Place dayOfEra century cycle year day) :
    (dayOfEra - dayOfEra / 1460 + dayOfEra / 36524 - dayOfEra / 146096) / 365 =
      100 * century + 4 * cycle + year := by
  obtain ⟨hsum, hcentury, hcycle, hyear, hday, hlast⟩ := h
  have hcenturies : dayOfEra / 36524 - dayOfEra / 146096 = century := by
    by_cases hend : dayOfEra = 146096
    · omega
    · have hwithin : 36524 * century ≤ dayOfEra ∧ dayOfEra < 36524 * (century + 1) := by omega
      omega
  -- a cycle is one day longer than four years, which the last days of it make up for
  obtain ⟨carry, hcarry⟩ : ∃ carry, dayOfEra / 1460 = 25 * century + cycle + carry :=
    ⟨dayOfEra / 1460 - (25 * century + cycle), by omega⟩
  have hbounds : 0 ≤ day - carry ∧ day - carry ≤ 364 := by omega
  omega

/-- The days of an era before a year. -/
theorem daysBefore_eq (h : Place dayOfEra century cycle year day) :
    dayOfEra - (365 * (100 * century + 4 * cycle + year) +
      (100 * century + 4 * cycle + year) / 4 - (100 * century + 4 * cycle + year) / 100) = day := by
  obtain ⟨rfl, hcentury, hcycle, hyear, hday, hlast⟩ := h
  omega

end Places

/-! ## Months -/

/-- The month, counted from March, of a day of the year. -/
def monthFromMarch (day : Int) : Int := (5 * day + 2) / 153

/-- The number of a month that is counted from March. -/
def monthNumber (fromMarch : Int) : Int := if fromMarch < 10 then fromMarch + 3 else fromMarch - 9

/-- The day of the month of a day of the year. -/
def dayOfMonth (day : Int) : Int := day - (153 * monthFromMarch day + 2) / 5 + 1

section Months

variable {day : Int}

theorem monthFromMarch_mem (h : 0 ≤ day ∧ day ≤ 365) :
    0 ≤ monthFromMarch day ∧ monthFromMarch day ≤ 11 := by
  unfold monthFromMarch
  omega

theorem monthNumber_mem (h : 0 ≤ day ∧ day ≤ 365) :
    1 ≤ monthNumber (monthFromMarch day) ∧ monthNumber (monthFromMarch day) ≤ 12 := by
  have hmonth := monthFromMarch_mem h
  unfold monthNumber
  split <;> omega

/-- The number of the month tells which one it is from March. -/
theorem mod_monthNumber (h : 0 ≤ day ∧ day ≤ 365) :
    (monthNumber (monthFromMarch day) + 9) % 12 = monthFromMarch day := by
  have hmonth := monthFromMarch_mem h
  unfold monthNumber
  split <;> omega

theorem dayOfMonth_pos (day : Int) : 1 ≤ dayOfMonth day := by
  unfold dayOfMonth monthFromMarch
  omega

/-- The months from March to January are as long as the days that fall into them. -/
theorem daysInMonth_monthNumber (year : Int) {month : Int} (h : 0 ≤ month ∧ month ≤ 10) :
    (daysInMonth year (monthNumber month).toNat : Int) =
      (153 * (month + 1) + 2) / 5 - (153 * month + 2) / 5 := by
  obtain rfl | rfl | rfl | rfl | rfl | rfl | rfl | rfl | rfl | rfl | rfl :
      month = 0 ∨ month = 1 ∨ month = 2 ∨ month = 3 ∨ month = 4 ∨ month = 5 ∨ month = 6 ∨
        month = 7 ∨ month = 8 ∨ month = 9 ∨ month = 10 := by omega
  all_goals rfl

/-- No day is behind the end of its month: the last day of a leap year is in February. -/
theorem dayOfMonth_le (h : 0 ≤ day ∧ day ≤ 365) {year : Int}
    (hleap : day = 365 → isLeapYear year = true) :
    dayOfMonth day ≤ daysInMonth year (monthNumber (monthFromMarch day)).toNat := by
  have hmem := monthFromMarch_mem h
  unfold dayOfMonth
  generalize hmonth : monthFromMarch day = month at *
  unfold monthFromMarch at hmonth
  by_cases hfebruary : month = 11
  · subst hfebruary
    change day - 337 + 1 ≤ ((if isLeapYear year then 29 else 28 : Nat) : Int)
    split
    · omega
    · rename_i hcommon
      have hshort : day ≠ 365 := fun hlast => hcommon (hleap hlast)
      omega
  · rw [daysInMonth_monthNumber year ⟨hmem.1, by omega⟩]
    omega

end Months

/-! ## Dates -/

/-- The date of a place in an era. -/
def dateAt (era century cycle year day : Int) : Date :=
  let month := monthNumber (monthFromMarch day)
  ⟨100 * century + 4 * cycle + year + era * 400 + (if month ≤ 2 then 1 else 0), month.toNat,
    (dayOfMonth day).toNat⟩

/-- Every day has a place in an era, and its date is the one of that place. -/
theorem exists_dateAt (days : Int) :
    ∃ era dayOfEra century cycle year day, Place dayOfEra century cycle year day ∧
      days = era * daysPerEra + dayOfEra - epochOffset ∧
      Date.ofDays days = dateAt era century cycle year day := by
  have hrest : 0 ≤ (days + epochOffset) % daysPerEra ∧
      (days + epochOffset) % daysPerEra < daysPerEra := by
    unfold daysPerEra
    omega
  obtain ⟨century, cycle, year, day, hplace⟩ := exists_place hrest
  refine ⟨(days + epochOffset) / daysPerEra, _, century, cycle, year, day, hplace, ?_, ?_⟩
  · unfold daysPerEra
    omega
  · unfold Date.ofDays dateAt dayOfMonth monthNumber monthFromMarch
    dsimp only
    rw [yearOfEra_eq hplace, daysBefore_eq hplace]

theorem Place.day_mem {dayOfEra century cycle year day : Int}
    (h : Place dayOfEra century cycle year day) : 0 ≤ day ∧ day ≤ 365 := by
  obtain ⟨-, -, -, -, hday, hlast⟩ := h
  omega

/-- **The day of a day's date is the day.** -/
theorem toDays_ofDays (days : Int) : (Date.ofDays days).toDays = days := by
  obtain ⟨era, dayOfEra, century, cycle, year, day, hplace, hdays, hdate⟩ := exists_dateAt days
  have hmonth := monthNumber_mem hplace.day_mem
  have hmod := mod_monthNumber hplace.day_mem
  have hday := dayOfMonth_pos day
  rw [hdate, hdays]
  unfold dateAt Date.toDays
  dsimp only
  rw [Int.toNat_of_nonneg (by omega), Int.toNat_of_nonneg (by omega), hmod]
  -- January and February are counted with the year before, in both directions
  have hfront : (if (monthNumber (monthFromMarch day)).toNat ≤ 2 then
      100 * century + 4 * cycle + year + era * 400 +
        (if monthNumber (monthFromMarch day) ≤ 2 then 1 else 0) - 1
      else 100 * century + 4 * cycle + year + era * 400 +
        (if monthNumber (monthFromMarch day) ≤ 2 then 1 else 0)) =
      100 * century + 4 * cycle + year + era * 400 := by
    split <;> split <;> omega
  rw [hfront]
  unfold dayOfMonth
  obtain ⟨hsum, hcentury, hcycle, hyear, -, -⟩ := hplace
  unfold daysPerEra epochOffset
  omega

/-- A year with a leap day at its end is followed by the rest of a leap year. -/
theorem isLeapYear_dateAt {dayOfEra century cycle year day : Int} (era : Int)
    (h : Place dayOfEra century cycle year day) (hlast : day = 365) :
    isLeapYear (dateAt era century cycle year day).year = true := by
  obtain ⟨-, hcentury, hcycle, -, -, hleap⟩ := h
  subst hlast
  obtain hleap | ⟨-, rfl, hend⟩ := hleap
  · exact absurd hleap (by decide)
  · change isLeapYear (100 * century + 4 * cycle + 3 + era * 400 + 1) = true
    unfold isLeapYear
    simp only [Bool.or_eq_true, Bool.and_eq_true, beq_iff_eq, bne_iff_ne]
    omega

/-- **The date of a day exists.** -/
theorem isValid_ofDays (days : Int) : (Date.ofDays days).isValid = true := by
  obtain ⟨era, dayOfEra, century, cycle, year, day, hplace, -, hdate⟩ := exists_dateAt days
  have hmonth := monthNumber_mem hplace.day_mem
  have hday := dayOfMonth_pos day
  have hlength := dayOfMonth_le hplace.day_mem (isLeapYear_dateAt era hplace)
  rw [hdate]
  unfold Date.isValid
  simp only [Bool.and_eq_true, decide_eq_true_eq]
  unfold dateAt at hlength ⊢
  dsimp only at hlength ⊢
  omega

/-- The first and the last day of the instants in range. -/
theorem days_of_inRange {t : Timestamp} (h : t.inRange = true) :
    (⟨-9999, 1, 2⟩ : Date).toDays ≤ t.seconds / secondsPerDay ∧
      t.seconds / secondsPerDay ≤ (⟨9999, 12, 30⟩ : Date).toDays := by
  unfold inRange earliest latest at h
  simp only [Bool.and_eq_true, decide_eq_true_eq] at h
  unfold seconds
  generalize (⟨-9999, 1, 2⟩ : Date).toDays = first at h
  generalize (⟨9999, 12, 30⟩ : Date).toDays = last at h
  unfold perSecond secondsPerDay at *
  omega

/-- The year of an instant in range has at most four digits. -/
theorem natAbs_year_le {t : Timestamp} (h : t.inRange = true) : t.date.year.natAbs ≤ 9999 := by
  have hfirst : (⟨-9999, 1, 2⟩ : Date).toDays = -4371586 := by decide
  have hlast : (⟨9999, 12, 30⟩ : Date).toDays = 2932895 := by decide
  have hrange := days_of_inRange h
  rw [hfirst, hlast] at hrange
  unfold date
  generalize t.seconds / secondsPerDay = days at hrange
  obtain ⟨era, dayOfEra, century, cycle, year, day, hplace, hdays, hdate⟩ := exists_dateAt days
  have hmonth := monthFromMarch_mem hplace.day_mem
  rw [hdate]
  unfold dateAt monthNumber
  dsimp only
  unfold monthFromMarch at hmonth ⊢
  obtain ⟨hsum, hcentury, hcycle, hyear, hday, hleap⟩ := hplace
  unfold daysPerEra epochOffset at hdays
  split <;> split <;> omega

end Reckoner.Timestamp
