import Reckoner.Decimal.Literal
import Reckoner.Text.Words
import Reckoner.Timestamp.Basic

/-!
# `Reckoner.Timestamp.Text` — instants as text

## Contents
- **Writing.** `render`: date and time in UTC, `2026-03-01T12:00:00.25Z`; `minuteText` stops at the
  minute.
- **Reading.** Dates and times with an offset from UTC, with or without the separators inside the
  date and inside the time; minutes, seconds and fraction may be missing.
- **Remarks.** What may stand in brackets behind an instant: a time zone, and remarks of other
  kinds.
- **Whole instants.** `read?`.
-/

namespace Reckoner.Timestamp

/-! ## Writing -/

/-- A number with at least `width` digits. -/
def padded (width n : Nat) : List Char :=
  let ds := Decimal.digitsOf n
  List.replicate (width - ds.length) '0' ++ ds

/-- A year: four digits, or a sign and six digits outside of 0 to 9999. -/
def yearChars (year : Int) : List Char :=
  if 0 ≤ year && year ≤ 9999 then padded 4 year.toNat
  else (if year < 0 then '-' else '+') :: padded 6 year.natAbs

/-- A year in a column of four characters, its sign among them. -/
def yearColumn (year : Int) : List Char :=
  if 0 ≤ year then padded 4 year.toNat else '-' :: padded 3 year.natAbs

/-- A fraction of a second without trailing zeros. -/
def fractionChars (nanosecond : Nat) : List Char :=
  if nanosecond == 0 then []
  else '.' :: ((padded 9 nanosecond).reverse.dropWhile (· == '0')).reverse

/-- The month and the day of a date, behind hyphens. -/
def dayChars (d : Date) : List Char := '-' :: padded 2 d.month ++ '-' :: padded 2 d.day

/-- Hour and minute. -/
def minuteChars (secondOfDay : Nat) : List Char :=
  padded 2 (secondOfDay / 3600) ++ ':' :: padded 2 (secondOfDay / 60 % 60)

/-- The instant in UTC. -/
def render (t : Timestamp) : String :=
  String.ofList (yearChars t.date.year ++ dayChars t.date ++ 'T' :: minuteChars t.secondOfDay ++
    ':' :: padded 2 (t.secondOfDay % 60) ++ fractionChars t.nanosecond ++ ['Z'])

/-- The instant in UTC up to the minute, date and time apart. -/
def minuteText (t : Timestamp) : String :=
  String.ofList (yearColumn t.date.year ++ dayChars t.date ++ ' ' :: minuteChars t.secondOfDay)

/-! ## Reading -/

/-- A number of exactly `width` digits. -/
def fixedNumber? (width : Nat) (cs : List Char) : Option (Nat × List Char) :=
  let ds := cs.take width
  if ds.length == width && ds.all Char.isDigit then some (Decimal.natOfDigits ds, cs.drop width)
  else none

/-- A number of exactly two digits, at most `largest`. -/
def twoDigits? (largest : Nat) (cs : List Char) : Option (Nat × List Char) :=
  (fixedNumber? 2 cs).filter fun r => r.1 ≤ largest

/-- A character that must be there if separators are used. -/
def separator? (used : Bool) (c : Char) (cs : List Char) : Option (List Char) :=
  if used then (if cs.head? == some c then some (cs.drop 1) else none) else some cs

/-- A year: four digits, or a sign and six digits that are not all zero behind a minus. -/
def year? : List Char → Option (Int × List Char)
  | '+' :: cs => (fixedNumber? 6 cs).map fun (n, rest) => ((n : Int), rest)
  | '-' :: cs =>
    ((fixedNumber? 6 cs).filter fun r => r.1 != 0).map fun (n, rest) => (-(n : Int), rest)
  | cs => (fixedNumber? 4 cs).map fun (n, rest) => ((n : Int), rest)

/-- A date, with hyphens if there is one behind the year. -/
def date? (cs : List Char) : Option (Date × List Char) := do
  let (year, cs) ← year? cs
  let hyphens := cs.head? == some '-'
  let cs ← separator? hyphens '-' cs
  let (month, cs) ← fixedNumber? 2 cs
  let cs ← separator? hyphens '-' cs
  let (day, cs) ← fixedNumber? 2 cs
  let date : Date := ⟨year, month, day⟩
  if date.isValid && year.natAbs ≤ 9999 then some (date, cs) else none

/-- A further two-digit part of a time follows: behind a colon if colons are used, directly
    otherwise. -/
def continues (colons : Bool) (cs : List Char) : Bool :=
  if colons then cs.head? == some ':' else (cs.take 2).length == 2 && (cs.take 2).all Char.isDigit

/-- A fraction of one to nine digits, in nanoseconds; nothing when no mark is there. -/
def fraction? (cs : List Char) : Option (Nat × List Char) :=
  match cs with
  | c :: rest =>
    if c == '.' || c == ',' then
      let ds := rest.takeWhile Char.isDigit
      if ds.isEmpty || 9 < ds.length then none
      else some (Decimal.natOfDigits ds * Nat.pow 10 (9 - ds.length), rest.dropWhile Char.isDigit)
    else some (0, cs)
  | [] => some (0, [])

/-- Hours with optional minutes and seconds, in seconds, and whether seconds were given. -/
def clock? (largestHour largestSecond : Nat) (cs : List Char) :
    Option (Nat × Bool × List Char) := do
  let (hour, cs) ← twoDigits? largestHour cs
  let colons := cs.head? == some ':'
  if !continues colons cs then return (3600 * hour, false, cs)
  let (minute, cs) ← twoDigits? 59 (if colons then cs.drop 1 else cs)
  if !continues colons cs then return (3600 * hour + 60 * minute, false, cs)
  let (second, cs) ← twoDigits? largestSecond (if colons then cs.drop 1 else cs)
  return (3600 * hour + 60 * minute + min second 59, true, cs)

/-- A time of day in seconds and nanoseconds. A leap second counts as the second before it. -/
def time? (cs : List Char) : Option (Nat × Nat × List Char) := do
  let (second, full, cs) ← clock? 23 60 cs
  if !full then return (second, 0, cs)
  let (nanosecond, cs) ← fraction? cs
  return (second, nanosecond, cs)

/-- The length of an offset in seconds, below 26 hours. A fraction is rounded, a half up. -/
def offsetLength? (cs : List Char) : Option (Nat × List Char) := do
  let (second, full, cs) ← clock? 25 59 cs
  if !full then return (second, cs)
  let (nanosecond, cs) ← fraction? cs
  let rounded := if 2 * nanosecond < perSecond then second else second + 1
  if rounded < 26 * 3600 then some (rounded, cs) else none

/-- The offset from UTC in seconds: `Z`, or a sign and a length. -/
def offset? : List Char → Option (Int × List Char)
  | 'Z' :: cs | 'z' :: cs => some (0, cs)
  | '+' :: cs => (offsetLength? cs).map fun (n, rest) => ((n : Int), rest)
  | '-' :: cs => (offsetLength? cs).map fun (n, rest) => (-(n : Int), rest)
  | _ => none

/-! ## Remarks -/

/-- A letter of the Latin alphabet, or a character that may take its place in a zone's name. -/
def isZoneStart (c : Char) : Bool := c == '.' || c == '_' || c.isAlpha

/-- The name of a time zone, in parts between slashes. -/
def isZoneName (cs : List Char) : Bool :=
  (Text.splitOn (· == '/') cs).all fun part =>
    (part.head?.map isZoneStart).getD false &&
      part.all fun c => isZoneStart c || c == '-' || c == '+' || c.isDigit

/-- A signed offset up to the minute. -/
def isZoneOffset : List Char → Bool
  | '+' :: cs | '-' :: cs =>
    match clock? 25 59 cs with
    | some (_, full, rest) => !full && rest.isEmpty
    | none => false
  | _ => false

/-- A time zone; an exclamation mark says that it matters. -/
def isZone (cs : List Char) : Bool :=
  let cs := if cs.head? == some '!' then cs.drop 1 else cs
  isZoneOffset cs || isZoneName cs

/-- A key of small letters and its values. One that says it matters is not accepted. -/
def isRemark (cs : List Char) : Bool :=
  let key := cs.takeWhile (· != '=')
  let isKeyStart (c : Char) : Bool := c == '_' || c.isLower
  (key.head?.map isKeyStart).getD false &&
    key.all (fun c => isKeyStart c || c == '-' || c.isDigit) && key.length < cs.length &&
    (Text.splitOn (· == '-') (cs.drop (key.length + 1))).all fun value =>
      !value.isEmpty && value.all Char.isAlphanum

/-- Brackets with a time zone, which comes first, and remarks. The instant is known without them. -/
def areRemarks (cs : List Char) : Bool :=
  let pieces := Text.splitOn (· == ']') cs
  let bodies := pieces.dropLast.map (·.drop 1)
  pieces.getLast? == some [] && pieces.dropLast.all (fun piece => piece.head? == some '[') &&
    (bodies.take 1).all (fun body => isZone body || isRemark body) && (bodies.drop 1).all isRemark

/-! ## Whole instants -/

/-- A date and a time of day, joined by `T` or a space, with their offset and remarks. -/
def ofChars? (cs : List Char) : Option Timestamp := do
  let (date, cs) ← date? cs
  let cs ← match cs with
    | 'T' :: cs | 't' :: cs | ' ' :: cs => some cs
    | _ => none
  let (second, nanosecond, cs) ← time? cs
  let (offset, cs) ← offset? cs
  if !areRemarks cs then none
  else
    let t : Timestamp :=
      ⟨(date.toDays * secondsPerDay + second - offset) * perSecond + nanosecond⟩
    if t.inRange then some t else none

/-- The instant of a text. -/
def read? (text : String) : Option Timestamp := ofChars? text.toList

end Reckoner.Timestamp
