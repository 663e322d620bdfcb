import Reckoner.CompoundUnit.Basic
import Reckoner.Decimal.Basic

/-!
# `Reckoner.Formula.Power` — exponents of units

A unit may be raised to whole exponents of 32 bits only; `wholeExponent?` recognises them among
the doubles.
-/

namespace Reckoner

/-- The whole number that a finite double is, if it is one. -/
def Binary.whole? (b : Binary) : Option Int :=
  let signed (n : Nat) : Int := if b.negative then -n else n
  if 0 ≤ b.exponent then some (signed (b.mantissa * Nat.pow 2 b.exponent.toNat))
  else
    let scale := Nat.pow 2 (-b.exponent).toNat
    if b.mantissa % scale == 0 then some (signed (b.mantissa / scale)) else none

/-- The whole number that a double is, if it is one. -/
def whole? (x : Float) : Option Int :=
  match Reading.ofFloat x with
  | .finite b => b.whole?
  | _ => none

/-- A double that a unit can be raised to: a whole number of magnitude below `2 ^ 31`. -/
def wholeExponent? (x : Float) : Option Int :=
  (whole? x).filter fun n => n.natAbs ≤ Exponent.largest.val.natAbs

end Reckoner
