/-!
# `Reckoner.Statistics.Scalar` — the numbers of descriptive statistics

Quantiles and histograms need field operations, a comparison and a floor, and nothing else. They
are defined for any `Scalar`, so that their arithmetic can be read exactly as well as in doubles.
-/

namespace Reckoner.Statistics

/-- Numbers with the operations of descriptive statistics. -/
class Scalar (α : Type) extends Add α, Sub α, Mul α, Div α where
  ofNat : Nat → α
  /-- The first number is not greater than the second. -/
  le : α → α → Bool
  /-- The greatest whole number that is not greater. -/
  floor : α → α
  /-- A whole number as an index: 0 for negative numbers and for what is no number. -/
  index : α → Nat
  /-- The least of no numbers. -/
  leastOfNone : α
  /-- The greatest of no numbers. -/
  greatestOfNone : α

/-- The greatest whole number that is not greater than a double. From `2 ^ 52` on doubles have no
    fractions. -/
def floorDouble (x : Float) : Float :=
  if x.abs < 4503599627370496 then
    let whole := x.abs.toUInt64.toFloat
    if whole == x.abs then x else if x < 0 then -(whole + 1) else whole
  else x

instance : Scalar Float where
  ofNat n := Float.ofNat n
  le x y := x ≤ y
  floor := floorDouble
  index x := x.toUInt64.toNat
  leastOfNone := 1.0 / 0.0
  greatestOfNone := -1.0 / 0.0

end Reckoner.Statistics
