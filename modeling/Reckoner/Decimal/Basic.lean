/-!
# `Reckoner.Decimal.Basic` — decimal numbers and the exact value of a double

## Contents
- **Decimals.** `Decimal`: a coefficient times a power of ten, its digits and leading exponent.
- **Doubles.** `Binary`: the sign, mantissa and exponent of a finite double; `Reading`: what a
  double stands for.
-/

namespace Reckoner

/-! ## Decimals -/

/-- The number `coefficient · 10 ^ exponent`. -/
structure Decimal where
  coefficient : Nat
  exponent : Int
deriving DecidableEq, Repr

namespace Decimal

/-- The decimal digits of a number, the leading one first. -/
def digitsOf (n : Nat) : List Char := Nat.toDigits 10 n

/-- The digits of the coefficient. -/
def digits (d : Decimal) : List Char := digitsOf d.coefficient

/-- The power of ten of the first digit. -/
def leading (d : Decimal) : Int := d.exponent + d.digits.length - 1

/-- Drops at most `n` trailing zeros of the coefficient. -/
def stripZeros : Nat → Decimal → Decimal
  | 0, d => d
  | n + 1, d =>
    if d.coefficient != 0 && d.coefficient % 10 == 0 then
      stripZeros n ⟨d.coefficient / 10, d.exponent + 1⟩
    else d

/-- The same number without trailing zeros. -/
def normalize (d : Decimal) : Decimal := stripZeros d.digits.length d

end Decimal

/-! ## Doubles -/

/-- A finite double: `± mantissa · 2 ^ exponent`. -/
structure Binary where
  negative : Bool
  mantissa : Nat
  exponent : Int
deriving DecidableEq, Repr

/-- What the bits of a double stand for. -/
inductive Reading where
  | nan
  | infinite (negative : Bool)
  | finite (value : Binary)
deriving DecidableEq, Repr

namespace Binary

/-- The smallest exponent, shared by the subnormal doubles. -/
def minExponent : Int := -1074

/-- Number of mantissa bits, the implicit one included. -/
def precision : Nat := 53

/-- The weight of the implicit bit, `2 ^ 52`: also the number of mantissas with one exponent. -/
def implicitBit : Nat := 0x10000000000000

/-- The weight of the sign bit, `2 ^ 63`. -/
def signWeight : Nat := 0x8000000000000000

/-- The biased exponent of infinities and NaNs. -/
def reservedExponent : Nat := 2047

/-- The gap to the next smaller double is half the gap to the next larger one. -/
def atPowerOfTwo (b : Binary) : Bool :=
  b.mantissa == implicitBit && minExponent < b.exponent

/-- The absolute value as a fraction. -/
def fraction (b : Binary) : Nat × Nat :=
  if 0 ≤ b.exponent then (b.mantissa * Nat.pow 2 b.exponent.toNat, 1)
  else (b.mantissa, Nat.pow 2 (-b.exponent).toNat)

end Binary

/-- The reading of 64 bits: sign, eleven bits of exponent, 52 bits of mantissa. -/
def Reading.ofBits (bits : UInt64) : Reading :=
  let n := bits.toNat
  let negative := n / Binary.signWeight == 1
  let biased := n / Binary.implicitBit % (Binary.reservedExponent + 1)
  let low := n % Binary.implicitBit
  if biased == Binary.reservedExponent then
    if low == 0 then .infinite negative else .nan
  else if biased == 0 then .finite ⟨negative, low, Binary.minExponent⟩
  else .finite ⟨negative, Binary.implicitBit + low, (biased : Int) - 1075⟩

/-- The reading of a double. -/
def Reading.ofFloat (x : Float) : Reading := .ofBits x.toBits

end Reckoner
