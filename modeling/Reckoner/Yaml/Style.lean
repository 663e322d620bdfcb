import Reckoner.Text.Blank

/-!
# `Reckoner.Yaml.Style` — how a text may be spelled

Most texts stand for themselves. Others would be taken for something else or break the layout, and
need quotes or a block of their own.

## Contents
- **Look-alikes.** Words and digits that would be read as another kind of value.
- **Plain texts.** `isPlain`: a text that may be written as it is.
- **Styles.** `Style.of`: the spelling chosen for a text.
-/

namespace Reckoner.Yaml

/-! ## Look-alikes -/

/-- The words for nothing. -/
def nullWords : List String := ["~", "null"]

/-- The words for truth values. -/
def booleanWords : List String := ["true", "false", "yes", "y", "on", "no", "n", "off"]

/-- The words for numbers that are not finite. -/
def floatWords : List String :=
  ["nan", "inf", "+inf", "-inf", ".nan", "+.nan", "-.nan", ".inf", "+.inf", "-.inf"]

/-- The text in lower case is one of the words. -/
def isWord (words : List String) (cs : List Char) : Bool :=
  words.contains (String.ofList (cs.map Char.toLower))

/-- The digits of base 16. -/
def isHexDigit (c : Char) : Bool :=
  c.isDigit || ('a' ≤ c && c ≤ 'f') || ('A' ≤ c && c ≤ 'F')

/-- The digits of base 8. -/
def isOctalDigit (c : Char) : Bool := '0' ≤ c && c ≤ '7'

/-- The digits of base 2. -/
def isBinaryDigit (c : Char) : Bool := c == '0' || c == '1'

/-- Digits and underscores of a base; there is at least one character. -/
def isWhole (isDigit : Char → Bool) (cs : List Char) : Bool :=
  !cs.isEmpty && cs.all fun c => isDigit c || c == '_'

/-- Decimal digits, perhaps with underscores behind the first one. -/
def isDigits (cs : List Char) : Bool :=
  (cs.head?.map Char.isDigit).getD false && isWhole Char.isDigit cs

/-- Digits with a point before, among or behind them. Behind digits and the point, underscores may
    stand alone. -/
def isMantissa (cs : List Char) : Bool :=
  let whole := cs.takeWhile (· != '.')
  let fraction := (cs.dropWhile (· != '.')).drop 1
  if whole.isEmpty then isDigits fraction
  else isDigits whole && (fraction.isEmpty || isWhole Char.isDigit fraction)

/-- A power of ten: nothing, or a mark, perhaps a sign, and digits. -/
def isPower : List Char → Bool
  | [] => true
  | _ :: '+' :: ds | _ :: '-' :: ds => isDigits ds
  | _ :: ds => isDigits ds

/-- Digits with a point and a power of ten. -/
def isDecimal (cs : List Char) : Bool :=
  let isMark (c : Char) : Bool := c == 'e' || c == 'E'
  isMantissa (cs.takeWhile (!isMark ·)) && isPower (cs.dropWhile (!isMark ·))

/-- A text without its sign. -/
def withoutSign : List Char → List Char
  | '+' :: cs | '-' :: cs => cs
  | cs => cs

/-- A text that would be read as a number. -/
def looksNumeric (cs : List Char) : Bool :=
  match withoutSign cs with
  | '0' :: 'x' :: ds => isWhole isHexDigit ds
  | '0' :: 'o' :: ds => isWhole isOctalDigit ds
  | '0' :: 'b' :: ds => isWhole isBinaryDigit ds
  | cs => isDecimal cs

/-! ## Plain texts -/

/-- The characters that open another kind of value. -/
def isOpener (c : Char) : Bool := " \t-?:[]\x7b\x7d#&*!|>'\"%@\x60".toList.contains c

/-- The characters that a plain text never contains. -/
def isReserved (c : Char) : Bool := ",[]\x7b\x7d#".toList.contains c

/-- A control character. -/
def isControl (c : Char) : Bool := c.toNat < 32 || (127 ≤ c.toNat && c.toNat < 160)

/-- A colon with a space behind it, somewhere. -/
def hasKeyMark : List Char → Bool
  | ':' :: ' ' :: _ => true
  | _ :: cs => hasKeyMark cs
  | [] => false

/-- The text stands for itself. -/
def isPlain (cs : List Char) : Bool :=
  match cs with
  | [] => false
  | c :: _ =>
    !isWord nullWords cs && !isWord booleanWords (Text.trimChars cs) && !isWord floatWords cs &&
      !looksNumeric cs && !isOpener c && !hasKeyMark cs &&
      (Text.trimChars cs).getLast? != some ':' && !cs.any isReserved && !cs.any isControl

/-! ## Styles -/

/-- The spellings of a text. -/
inductive Style where
  | plain
  | single
  | double
  | literal
  | folded
deriving DecidableEq, Repr

/-- The text without line feeds at its end. -/
def body (cs : List Char) : List Char := (cs.reverse.dropWhile (· == '\n')).reverse

/-- The longest text in bytes that is written on one line. -/
def lineWidth : Nat := 80

/-- The spelling chosen for a text: lines as they are if they would be plain on one line, a folded
    block for a long line, and quotes where nothing else is safe. -/
def Style.of (cs : List Char) : Style :=
  let flat := (body cs).map fun c => if c == '\n' then ' ' else c
  if cs.contains '\n' && isPlain flat then .literal
  else if isPlain cs && lineWidth < (String.ofList cs).utf8ByteSize then .folded
  else if cs == ['.'] || cs == ['#'] || cs == ['-'] then .single
  else if isPlain cs then .plain
  else .double

end Reckoner.Yaml
