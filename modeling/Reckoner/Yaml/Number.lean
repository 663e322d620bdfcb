import Reckoner.Decimal.Literal

/-!
# `Reckoner.Yaml.Number` — numbers as scalars write them

## Contents
- **Digits.** `digitsValue?` in bases up to 16.
- **Numbers.** `whole?` and `float?`.
-/

namespace Reckoner.Yaml

/-! ## Digits -/

/-- The value of a digit in a base of at most 16. -/
def digit? (base : Nat) (c : Char) : Option Nat :=
  let n :=
    if c.isDigit then c.toNat - 48
    else if 'a' ≤ c && c ≤ 'f' then c.toNat - 87
    else if 'A' ≤ c && c ≤ 'F' then c.toNat - 55
    else base
  if n < base then some n else none

/-- The value of digits with underscores between them; there is at least one digit. -/
def digitsValue? (base : Nat) (cs : List Char) : Option Nat :=
  match cs.filter (· != '_') with
  | [] => none
  | ds => (ds.mapM (digit? base)).map fun ds => ds.foldl (fun n d => base * n + d) 0

/-! ## Numbers -/

/-- A whole number in base 10, or in the base its first two characters name. -/
def whole? (cs : List Char) : Option Nat :=
  match (if cs.head? == some '+' then cs.drop 1 else cs) with
  | '0' :: 'x' :: ds | '0' :: 'X' :: ds => digitsValue? 16 ds
  | '0' :: 'o' :: ds | '0' :: 'O' :: ds => digitsValue? 8 ds
  | '0' :: 'b' :: ds | '0' :: 'B' :: ds => digitsValue? 2 ds
  | ds => digitsValue? 10 ds

/-- An unsigned decimal literal with a digit in front of its power of ten. -/
def literal? (cs : List Char) : Option (List Char) :=
  let mantissa := cs.takeWhile (!Decimal.isExponentMark ·)
  let power := cs.drop mantissa.length
  let ds := mantissa.filter (· != '.')
  if ds.all Char.isDigit && !ds.isEmpty && mantissa.length ≤ ds.length + 1 &&
      Decimal.exponentPart power == power then some cs
  else none

/-- A number with an optional sign: a literal, or a word. -/
def float? (cs : List Char) : Option Float :=
  let negative := cs.head? == some '-'
  let unsigned := if negative || cs.head? == some '+' then cs.drop 1 else cs
  match String.ofList (unsigned.map Char.toLower) with
  | ".nan" | "nan" => some (0.0 / 0.0)
  | ".inf" | "inf" | "infinity" => some (if negative then -1.0 / 0.0 else 1.0 / 0.0)
  | _ => (literal? unsigned).map fun cs => Decimal.toFloat negative (Decimal.ofLiteral cs)

end Reckoner.Yaml
