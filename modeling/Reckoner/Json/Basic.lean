import Reckoner.Decimal.Layout

/-!
# `Reckoner.Json.Basic` — JSON values and their text

## Contents
- **Values.** `Json`, with whole numbers beside doubles; members keep their order.
- **Strings.** `quote` escapes quotes, backslashes and control characters, and nothing else.
- **Writing.** `compact` without blanks, `pretty` with two spaces a level.
-/

namespace Reckoner

/-! ## Values -/

/-- A JSON value. -/
inductive Json where
  | null
  | bool (value : Bool)
  | whole (value : Int)
  | number (value : Float)
  | string (text : String)
  | array (items : List Json)
  | object (members : List (String × Json))

namespace Json

/-- A value, or null. -/
def ofOption {α : Type} (encode : α → Json) : Option α → Json
  | some a => encode a
  | none => null

/-- A member, unless its value is absent. -/
def optionalMember {α : Type} (name : String) (encode : α → Json) :
    Option α → List (String × Json)
  | some a => [(name, encode a)]
  | none => []

/-! ## Strings -/

/-- The lower case hexadecimal digit of a number below 16. -/
def hexDigit (n : Nat) : Char := Char.ofNat (if n < 10 then 48 + n else 87 + n)

/-- A character of a string, escaped where JSON asks for it. -/
def escape (c : Char) : List Char :=
  match c with
  | '"' => ['\\', '"']
  | '\\' => ['\\', '\\']
  | '\x08' => ['\\', 'b']
  | '\x0c' => ['\\', 'f']
  | '\n' => ['\\', 'n']
  | '\r' => ['\\', 'r']
  | '\t' => ['\\', 't']
  | c =>
    if c.toNat < 32 then ['\\', 'u', '0', '0', hexDigit (c.toNat / 16), hexDigit (c.toNat % 16)]
    else [c]

/-- A string in quotes. -/
def quote (s : String) : List Char := '"' :: s.toList.flatMap escape ++ ['"']

/-! ## Writing -/

/-- The notation of numbers: positional for leading exponents from -5 to 15, always with a point;
    beyond, an exponent with its sign. -/
def numberLayout : Decimal.Layout := ⟨.toEven, some (-5, 16), true, false, "null", "null"⟩

/-- A number; one that is not finite has no JSON form and is written as null. -/
def numberChars (x : Float) : List Char :=
  if x.isFinite then numberLayout.chars x else numberLayout.nan.toList

/-- The text of a value without members or items. -/
def leafChars : Json → List Char
  | null => "null".toList
  | bool true => "true".toList
  | bool false => "false".toList
  | whole n => (if n < 0 then ['-'] else []) ++ Decimal.digitsOf n.natAbs
  | number x => numberChars x
  | string s => quote s
  | array _ => ['[', ']']
  | object _ => ['\x7b', '\x7d']

mutual

/-- The text of a value without blanks. -/
def compactChars : Json → List Char
  | array (item :: items) => '[' :: compactChars item ++ compactItems items ++ [']']
  | object ((name, value) :: members) =>
    '\x7b' :: quote name ++ ':' :: compactChars value ++ compactMembers members ++ ['\x7d']
  | leaf => leafChars leaf

/-- Further items, each behind a comma. -/
def compactItems : List Json → List Char
  | [] => []
  | item :: items => ',' :: compactChars item ++ compactItems items

/-- Further members, each behind a comma. -/
def compactMembers : List (String × Json) → List Char
  | [] => []
  | (name, value) :: members =>
    ',' :: quote name ++ ':' :: compactChars value ++ compactMembers members

end

/-- A line break and the indentation of a level. -/
def lineBreak (level : Nat) : List Char := '\n' :: List.replicate (2 * level) ' '

mutual

/-- The text of a value over several lines, inside the given level. -/
def prettyChars (level : Nat) : Json → List Char
  | array (item :: items) =>
    '[' :: lineBreak (level + 1) ++ prettyChars (level + 1) item ++ prettyItems (level + 1) items ++
      lineBreak level ++ [']']
  | object ((name, value) :: members) =>
    '\x7b' :: lineBreak (level + 1) ++ quote name ++ ':' :: ' ' :: prettyChars (level + 1) value ++
      prettyMembers (level + 1) members ++ lineBreak level ++ ['\x7d']
  | leaf => leafChars leaf

/-- Further items, each on its line. -/
def prettyItems (level : Nat) : List Json → List Char
  | [] => []
  | item :: items => ',' :: lineBreak level ++ prettyChars level item ++ prettyItems level items

/-- Further members, each on its line. -/
def prettyMembers (level : Nat) : List (String × Json) → List Char
  | [] => []
  | (name, value) :: members =>
    ',' :: lineBreak level ++ quote name ++ ':' :: ' ' :: prettyChars level value ++
      prettyMembers level members

end

/-- The text of a value without blanks. -/
def compact (j : Json) : String := String.ofList (compactChars j)

/-- The text of a value over several lines. -/
def pretty (j : Json) : String := String.ofList (prettyChars 0 j)

end Json

end Reckoner
