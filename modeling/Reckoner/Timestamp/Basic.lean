/-!
# `Reckoner.Timestamp.Basic` — instants and the civil calendar

An instant is a number of nanoseconds since the start of 1970 in UTC. Days are related to years,
months and days of the Gregorian calendar by counting whole eras of 400 years, in which the pattern
of leap years repeats; a year is counted from March, so that a leap day is its last day.
-/

namespace Reckoner

/-- An instant: nanoseconds since the start of 1970 in UTC. -/
structure Timestamp where
  nanoseconds : Int
deriving DecidableEq, Repr

namespace Timestamp

/-! ## Days -/

/-- A year of 366 days. -/
def isLeapYear (year : Int) : Bool := (year % 4 == 0 && year % 100 != 0) || year % 400 == 0

/-- The number of days of a month. -/
def daysInMonth (year : Int) (month : Nat) : Nat :=
  match month with
  | 2 => if isLeapYear year then 29 else 28
  | 4 | 6 | 9 | 11 => 30
  | _ => 31

/-- A date of the Gregorian calendar. -/
structure Date where
  year : Int
  month : Nat
  day : Nat
deriving DecidableEq, Repr

/-- The date exists. -/
def Date.isValid (d : Date) : Bool :=
  1 ≤ d.month && d.month ≤ 12 && 1 ≤ d.day && d.day ≤ daysInMonth d.year d.month

/-- Days in an era of 400 years. -/
def daysPerEra : Int := 146097

/-- Days from the start of March of year 0 to the start of 1970. -/
def epochOffset : Int := 719468

/-- The number of days from the start of 1970 to a date. -/
def Date.toDays (d : Date) : Int :=
  let year := if d.month ≤ 2 then d.year - 1 else d.year
  let era := year / 400
  let yearOfEra := year % 400
  let monthFromMarch : Int := (d.month + 9) % 12
  let dayOfYear := (153 * monthFromMarch + 2) / 5 + d.day - 1
  let dayOfEra := yearOfEra * 365 + yearOfEra / 4 - yearOfEra / 100 + dayOfYear
  era * daysPerEra + dayOfEra - epochOffset

/-- The date a number of days after the start of 1970. -/
def Date.ofDays (days : Int) : Date :=
  let shifted := days + epochOffset
  let era := shifted / daysPerEra
  let dayOfEra := shifted % daysPerEra
  let yearOfEra := (dayOfEra - dayOfEra / 1460 + dayOfEra / 36524 - dayOfEra / 146096) / 365
  let dayOfYear := dayOfEra - (365 * yearOfEra + yearOfEra / 4 - yearOfEra / 100)
  let monthFromMarch := (5 * dayOfYear + 2) / 153
  let day := dayOfYear - (153 * monthFromMarch + 2) / 5 + 1
  let month := if monthFromMarch < 10 then monthFromMarch + 3 else monthFromMarch - 9
  let year := yearOfEra + era * 400 + (if month ≤ 2 then 1 else 0)
  ⟨year, month.toNat, day.toNat⟩

/-! ## Instants -/

/-- Nanoseconds in a second. -/
def perSecond : Int := 1000000000

/-- Seconds in a day. -/
def secondsPerDay : Int := 86400

/-- The earliest instant: the start of year -9999 at the offset that is furthest behind UTC. -/
def earliest : Timestamp :=
  ⟨((⟨-9999, 1, 2⟩ : Date).toDays * secondsPerDay + 3600 + 59 * 60 + 59) * perSecond⟩

/-- The latest instant, a little before the end of year 9999 at every offset. -/
def latest : Timestamp :=
  ⟨((⟨9999, 12, 30⟩ : Date).toDays * secondsPerDay + 22 * 3600) * perSecond + 999999999⟩

/-- The instant lies between the two. -/
def inRange (t : Timestamp) : Bool :=
  earliest.nanoseconds ≤ t.nanoseconds && t.nanoseconds ≤ latest.nanoseconds

/-- Whole seconds since the start of 1970, rounded down. -/
def seconds (t : Timestamp) : Int := t.nanoseconds / perSecond

/-- Whole milliseconds since the start of 1970, rounded towards it. -/
def milliseconds (t : Timestamp) : Int := t.nanoseconds.tdiv 1000000

/-- The date in UTC. -/
def date (t : Timestamp) : Date := .ofDays (t.seconds / secondsPerDay)

/-- The second of the day in UTC. -/
def secondOfDay (t : Timestamp) : Nat := (t.seconds % secondsPerDay).toNat

/-- The nanosecond of the second. -/
def nanosecond (t : Timestamp) : Nat := (t.nanoseconds % perSecond).toNat

end Timestamp

end Reckoner
