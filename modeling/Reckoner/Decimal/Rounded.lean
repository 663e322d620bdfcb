import Reckoner.Decimal.Layout
import Reckoner.Decimal.Nearest

/-!
# `Reckoner.Decimal.Rounded` — a fixed number of places

The exact value of a double, rounded to a number of places after the point (`fixed`) or of digits
after the first (`scientific`); a value half way between two texts goes to the even digit.
-/

namespace Reckoner.Decimal

/-- A fraction rounded to a multiple of `10 ^ k`. -/
def roundTo (num den : Nat) (k : Int) : Decimal :=
  if 0 ≤ k then ⟨roundDiv num (den * Nat.pow 10 k.toNat), k⟩
  else ⟨roundDiv (num * Nat.pow 10 (-k).toNat) den, k⟩

/-- A finite double with `places` digits after the point. -/
def fixedChars (places : Nat) (b : Binary) : List Char :=
  let (num, den) := b.fraction
  let ds := (roundTo num den (-places)).digits
  let ds := List.replicate (places + 1 - ds.length) '0' ++ ds
  let whole := ds.take (ds.length - places)
  let point := if places == 0 then [] else '.' :: ds.drop (ds.length - places)
  (if b.negative then ['-'] else []) ++ whole ++ point

/-- A finite double with one digit before and `places` digits after the point, and a power of ten
    without a plus sign. -/
def scientificRounded (places : Nat) (b : Binary) : List Char :=
  let (num, den) := b.fraction
  let rounded : Decimal :=
    if num == 0 then ⟨0, 0⟩ else roundTo num den (leadingExponent num den - places)
  let e := if num == 0 then 0 else rounded.leading
  let ds := (rounded.digits ++ List.replicate places '0').take (places + 1)
  let point := if places == 0 then [] else '.' :: ds.drop 1
  (if b.negative then ['-'] else []) ++ ds.take 1 ++ point ++
    'e' :: (if e < 0 then ['-'] else []) ++ digitsOf e.natAbs

end Reckoner.Decimal
