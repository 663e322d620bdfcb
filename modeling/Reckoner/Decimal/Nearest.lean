import Reckoner.Decimal.Basic

/-!
# `Reckoner.Decimal.Nearest` — the double nearest to a decimal

`nearest` rounds a non-negative fraction to the nearest double, ties to an even mantissa, and
overflows to infinity; `toFloat` does so for a decimal of any size.
-/

namespace Reckoner.Decimal

/-- The exponent of the last place of the double nearest to a positive fraction. -/
def lastPlace (num den : Nat) : Int :=
  let guess : Int := (num.log2 : Int) - den.log2 - Binary.precision
  let quotient (q : Int) : Nat :=
    if 0 ≤ q then num / (den * Nat.pow 2 q.toNat) else num * Nat.pow 2 (-q).toNat / den
  let q := max guess Binary.minExponent
  if 2 * Binary.implicitBit ≤ quotient q then q + 1 else q

/-- Division rounded to the nearest whole number, ties to the even one. -/
def roundDiv (num den : Nat) : Nat :=
  let below := num / den
  let rest := num % den
  if 2 * rest < den then below
  else if den < 2 * rest then below + 1
  else if below % 2 == 0 then below else below + 1

/-- The bits of positive infinity. -/
def infinityBits : Nat := Binary.reservedExponent * Binary.implicitBit

/-- The bits of the double nearest to a non-negative fraction. -/
def nearestBits (num den : Nat) : Nat :=
  if num == 0 then 0
  else
    let q := lastPlace num den
    let m :=
      if 0 ≤ q then roundDiv num (den * Nat.pow 2 q.toNat)
      else roundDiv (num * Nat.pow 2 (-q).toNat) den
    let biased := (q - Binary.minExponent).toNat
    -- A mantissa without the implicit bit occurs only in the lowest binade; one that rounded up
    -- to the next power of two carries into the exponent.
    min (biased * Binary.implicitBit + m) infinityBits

/-- The sign bit of a double. -/
def signBit (negative : Bool) : Nat := if negative then Binary.signWeight else 0

/-- The double nearest to a decimal, with the given sign. Decimals far outside the range of the
    doubles are not expanded. -/
def toFloat (negative : Bool) (d : Decimal) : Float :=
  let magnitude :=
    if d.coefficient == 0 then 0
    else if 400 < d.exponent then infinityBits
    else if d.exponent < -400 - d.coefficient.log2 then 0
    else if 0 ≤ d.exponent then nearestBits (d.coefficient * Nat.pow 10 d.exponent.toNat) 1
    else nearestBits d.coefficient (Nat.pow 10 (-d.exponent).toNat)
  Float.ofBits (UInt64.ofNat (signBit negative + magnitude))

end Reckoner.Decimal
