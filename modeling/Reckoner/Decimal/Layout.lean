import Reckoner.Decimal.Shortest

/-!
# `Reckoner.Decimal.Layout` — how a shortest decimal is written

A `Layout` lists what one notation decides: which exponents are written positionally, when a
decimal point is forced, and the words for the values that are not finite.
-/

namespace Reckoner.Decimal

/-- A notation for doubles. -/
structure Layout where
  tie : Tie
  /-- Leading exponents written positionally, from the first up to but not the second; all of
      them when absent. -/
  positional : Option (Int × Int)
  /-- Whole numbers end in `.0`. -/
  pointOnWhole : Bool
  /-- A single digit before an exponent is followed by `.0`. -/
  pointOnMantissa : Bool
  nan : String
  infinity : String
deriving Repr

/-- The notation of running text: positional, without a point on whole numbers. -/
def Layout.plain : Layout := ⟨.up, none, false, false, "NaN", "inf"⟩

/-- Positional digits: zeros are filled in on either side of the point. -/
def positionalChars (pointOnWhole : Bool) (d : Decimal) : List Char :=
  let ds := d.digits
  let whole := if pointOnWhole then ['.', '0'] else []
  if 0 ≤ d.exponent then ds ++ List.replicate d.exponent.toNat '0' ++ whole
  else
    let places := (-d.exponent).toNat
    if places < ds.length then
      ds.take (ds.length - places) ++ '.' :: ds.drop (ds.length - places)
    else '0' :: '.' :: List.replicate (places - ds.length) '0' ++ ds

/-- One digit, the rest after a point, and a signed exponent of at least `width` digits. -/
def exponentChars (e : Int) (width : Nat) : List Char :=
  let ds := digitsOf e.natAbs
  'e' :: (if e < 0 then '-' else '+') :: List.replicate (width - ds.length) '0' ++ ds

/-- Scientific notation. -/
def scientificChars (pointOnMantissa : Bool) (d : Decimal) : List Char :=
  let mantissa := match d.digits with
    | [] => []
    | [c] => if pointOnMantissa then [c, '.', '0'] else [c]
    | c :: rest => c :: '.' :: rest
  mantissa ++ exponentChars d.leading 0

/-- The text of a decimal that is not negative. -/
def Layout.decimalChars (l : Layout) (d : Decimal) : List Char :=
  match l.positional with
  | none => positionalChars l.pointOnWhole d
  | some (low, high) =>
    if d.coefficient == 0 || (low ≤ d.leading && d.leading < high) then
      positionalChars l.pointOnWhole d
    else scientificChars l.pointOnMantissa d

/-- The text of a double. -/
def Layout.chars (l : Layout) (x : Float) : List Char :=
  let signed (negative : Bool) (cs : List Char) := if negative then '-' :: cs else cs
  match Reading.ofFloat x with
  | .nan => l.nan.toList
  | .infinite negative => signed negative l.infinity.toList
  | .finite b =>
    signed b.negative (l.decimalChars (if b.mantissa == 0 then ⟨0, 0⟩ else shortest l.tie b))

/-- The text of a double. -/
def Layout.render (l : Layout) (x : Float) : String := String.ofList (l.chars x)

end Reckoner.Decimal
