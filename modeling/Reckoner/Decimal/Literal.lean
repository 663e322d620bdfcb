import Reckoner.Decimal.Nearest

/-!
# `Reckoner.Decimal.Literal` — decimal literals

Digits with an optional fraction and an optional power of ten, as formulas and documents write
them. Reading is total: whether a text has the form of a literal is decided by whoever scans it.
-/

namespace Reckoner.Decimal

/-- The value of a run of digits. -/
def natOfDigits (ds : List Char) : Nat := ds.foldl (fun n c => 10 * n + (c.toNat - '0'.toNat)) 0

/-- The value of an optionally signed run of digits. -/
def intOfDigits : List Char → Int
  | '-' :: ds => -(natOfDigits ds : Int)
  | '+' :: ds => natOfDigits ds
  | ds => natOfDigits ds

/-- The marks before a power of ten. -/
def isExponentMark (c : Char) : Bool := c == 'e' || c == 'E'

/-- The number an unsigned literal stands for. -/
def ofLiteral (cs : List Char) : Decimal :=
  let mantissa := cs.takeWhile (!isExponentMark ·)
  let power := (cs.dropWhile (!isExponentMark ·)).drop 1
  let whole := mantissa.takeWhile (· != '.')
  let places := (mantissa.dropWhile (· != '.')).drop 1
  ⟨natOfDigits (whole ++ places), intOfDigits power - places.length⟩

/-- The double nearest to an unsigned literal. -/
def floatOfLiteral (cs : List Char) : Float := toFloat false (ofLiteral cs)

/-- The power of ten at the front, if a mark, an optional sign and a digit stand there. -/
def exponentPart (cs : List Char) : List Char :=
  match cs with
  | e :: rest =>
    if isExponentMark e then
      let (sign, ds) := match rest with
        | '+' :: ds => (['+'], ds)
        | '-' :: ds => (['-'], ds)
        | ds => ([], ds)
      let ds := ds.takeWhile Char.isDigit
      if ds.isEmpty then [] else e :: sign ++ ds
    else []
  | [] => []

end Reckoner.Decimal
