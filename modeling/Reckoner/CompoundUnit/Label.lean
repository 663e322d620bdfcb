import Reckoner.CompoundUnit.Basic
import Reckoner.Decimal.Basic
import Reckoner.Text.Blank
import Reckoner.Text.Words

/-!
# `Reckoner.CompoundUnit.Label` — unit labels

## Contents
- **Fragments.** Factors are separated by white space, `*`, `·`, `⋅` and parentheses; everything
  after the first `/` is in the denominator.
- **Exponents in a fragment.** `s^2`, `s^-1`, `m²`, `s⁻¹`; a fragment whose exponent is malformed
  or out of range is kept whole, as a name of its own.
- **Reading.** `parse` never fails.
- **Writing.** `label` puts the positive exponents first and the others behind one `/`.
-/

namespace Reckoner.CompoundUnit

/-- What is shown for a unit without factors. -/
def dimensionlessLabel : String := "dimensionless"

/-! ## Fragments -/

/-- Characters that end a fragment without changing sides. -/
def isSeparator (c : Char) : Bool :=
  Text.isBlank c || c == '*' || c == '·' || c == '⋅' || c == '(' || c == ')'

/-- The side of the fraction a fragment is on. -/
inductive Side where
  | numerator
  | denominator
deriving DecidableEq, Repr

/-- The fragments of a label, with their sides. -/
def fragments (label : List Char) : List (List Char × Side) :=
  let above := label.takeWhile (· != '/')
  let below := label.dropWhile (· != '/')
  (Text.words isSeparator above).map (·, .numerator) ++
    (Text.words (fun c => c == '/' || isSeparator c) below).map (·, .denominator)

/-! ## Exponents in a fragment -/

/-- The value of a run of decimal digits. -/
def digitsValue (ds : List Nat) : Nat := ds.foldl (fun n d => 10 * n + d) 0

/-- The value of an ASCII digit. -/
def digit? (c : Char) : Option Nat := if c.isDigit then some (c.toNat - '0'.toNat) else none

/-- The value of a superscript digit. -/
def superscriptDigit? (c : Char) : Option Nat :=
  match c with
  | '⁰' => some 0
  | '¹' => some 1
  | '²' => some 2
  | '³' => some 3
  | '⁴' => some 4
  | '⁵' => some 5
  | '⁶' => some 6
  | '⁷' => some 7
  | '⁸' => some 8
  | '⁹' => some 9
  | _ => none

/-- The characters of a superscript exponent. -/
def isSuperscript (c : Char) : Bool := c == '⁻' || (superscriptDigit? c).isSome

/-- An exponent after a caret: plus signs, or a minus sign, then digits. -/
def caretExponent? (cs : List Char) : Option Exponent :=
  match cs.dropWhile (· == '+') with
  | [] => none
  | '-' :: [] => none
  | '-' :: ds => (ds.mapM digit?).bind fun ds => Exponent.ofInt? (-(digitsValue ds : Int))
  | ds => (ds.mapM digit?).bind fun ds => Exponent.ofInt? (digitsValue ds : Int)

/-- The exponent of largest magnitude with the given sign that is not beyond `n`. -/
def clampedExponent (negative : Bool) (n : Nat) : Exponent :=
  let bounded := min n 2147483647
  if negative then ⟨-(bounded : Int), by unfold Exponent.Fits; omega⟩
  else ⟨bounded, by unfold Exponent.Fits; omega⟩

/-- A superscript exponent: an optional minus, then digits. Values beyond the range stop at its
    end. -/
def superscriptExponent? (cs : List Char) : Option Exponent :=
  match cs with
  | '⁻' :: ds => (ds.mapM superscriptDigit?).map fun ds => clampedExponent true (digitsValue ds)
  | ds => (ds.mapM superscriptDigit?).map fun ds => clampedExponent false (digitsValue ds)

/-- The name and the exponent of a fragment; one without a well-formed exponent is all name. -/
def splitFragment (fragment : List Char) : List Char × Exponent :=
  if fragment.contains '^' then
    match caretExponent? ((fragment.dropWhile (· != '^')).drop 1) with
    | some e => (fragment.takeWhile (· != '^'), e)
    | none => (fragment, .one)
  else if fragment.any isSuperscript then
    match superscriptExponent? (fragment.dropWhile (!isSuperscript ·)) with
    | some e => (fragment.takeWhile (!isSuperscript ·), e)
    | none => (fragment, .one)
  else (fragment, .one)

/-! ## Reading -/

/-- Fragments that stand for a pure number. -/
def isPureNumber (fragment : List Char) : Bool :=
  fragment == ['1'] || fragment.map Char.toLower == dimensionlessLabel.toList

/-- Names that stand for no unit: nothing, or digits and points only. -/
def isNumericName (name : List Char) : Bool := name.all fun c => c.isDigit || c == '.'

/-- An exponent as it counts on a side of the fraction. -/
def Side.exponent? : Side → Exponent → Option Exponent
  | .numerator, e => some e
  | .denominator, e => e.neg?

/-- The exponent of an opaque fragment on a side of the fraction. -/
def Side.unitExponent : Side → Exponent
  | .numerator => .one
  | .denominator => ⟨-1, by decide⟩

/-- Adds a fragment to a unit. One whose exponent would leave the range is added whole, as an
    opaque name. -/
def addFragment (u : CompoundUnit) (fragment : List Char) (side : Side) : CompoundUnit :=
  if isPureNumber fragment then u
  else
    let (name, exponent) := splitFragment fragment
    if isNumericName name then u
    else
      match side.exponent? exponent >>= fun e => u.addFactor ⟨String.ofList name, e⟩ with
      | some v => v
      | none => (u.addFactor ⟨String.ofList fragment, side.unitExponent⟩).getD u

/-- The unit of a label. -/
def parse (label : String) : CompoundUnit :=
  (fragments label.toList).foldl (fun u f => addFragment u f.1 f.2) dimensionless

/-! ## Writing -/

/-- A factor without the sign of its exponent. -/
def factorText (f : Factor) : String :=
  let n := f.exponent.val.natAbs
  if n = 1 then f.name else f.name ++ "^" ++ String.ofList (Decimal.digitsOf n)

/-- The label of a unit: the factors above the line, then those below it. -/
def label (u : CompoundUnit) : String :=
  let side (keep : Int → Bool) : String :=
    " ".intercalate ((u.factors.filter fun f => keep f.exponent.val).map factorText)
  let hasSide (keep : Int → Bool) : Bool := u.factors.any fun f => keep f.exponent.val
  let above := side (0 < ·)
  let below := side (· < 0)
  match hasSide (0 < ·), hasSide (· < 0) with
  | false, false => ""
  | true, false => above
  | false, true => "1/" ++ below
  | true, true => above ++ "/" ++ below

/-- The label, or the word for a unit without factors. -/
def display (u : CompoundUnit) : String :=
  if u.isDimensionless then dimensionlessLabel else u.label

/-- A label as written, or the word for none where it is blank. -/
def displayLabel (label : String) : String :=
  if Text.isBlankText label then dimensionlessLabel else label

end Reckoner.CompoundUnit
