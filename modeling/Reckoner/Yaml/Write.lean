import Reckoner.Json.Basic
import Reckoner.Text.Words
import Reckoner.Yaml.Style

/-!
# `Reckoner.Yaml.Write` — values as YAML text

## Contents
- **Numbers.** `numberLayout`.
- **Quotes.** `escape` and the quoted spellings.
- **Blocks.** Lines of literal blocks, and `foldLines`, which breaks a long line at blanks.
- **Values.** `write`: block style, two spaces a level.
-/

namespace Reckoner.Yaml

/-! ## Numbers -/

/-- The notation of numbers: as in JSON, but with a point before every exponent. -/
def numberLayout : Decimal.Layout := ⟨.toEven, some (-5, 16), true, true, ".nan", ".inf"⟩

/-! ## Quotes -/

/-- An upper case hexadecimal digit. -/
def hexDigit (n : Nat) : Char := (Json.hexDigit n).toUpper

/-- A character between double quotes. -/
def escape (c : Char) : List Char :=
  match c with
  | '\\' => ['\\', '\\']
  | '"' => ['\\', '"']
  | '\x00' => ['\\', '0']
  | '\x07' => ['\\', 'a']
  | '\x08' => ['\\', 'b']
  | '\t' => ['\\', 't']
  | '\n' => ['\\', 'n']
  | '\x0b' => ['\\', 'v']
  | '\x0c' => ['\\', 'f']
  | '\r' => ['\\', 'r']
  | '\x1b' => ['\\', 'e']
  | '\u0085' => ['\\', 'N']
  | '\u2028' => ['\\', 'L']
  | '\u2029' => ['\\', 'P']
  | '\ufeff' => "\\uFEFF".toList
  | c =>
    if isControl c then ['\\', 'x', hexDigit (c.toNat / 16), hexDigit (c.toNat % 16)] else [c]

/-! ## Blocks -/

/-- How a long line is broken so far. Texts are kept in reverse. -/
structure Folding where
  /-- The lines that are complete. -/
  done : List (List Char) := []
  /-- The text up to the end of the last run of blanks, if there is a run. -/
  broken : Option (List Char) := none
  /-- The text behind it. -/
  open_ : List Char := []
  /-- The characters counted since the last break. -/
  count : Nat := 0

/-- Takes one more character; a run of blanks is taken as a whole where the line is broken in it. -/
def Folding.add (f : Folding) (c : Char) (more : List Char) : Folding :=
  let f := { f with open_ := c :: f.open_, count := f.count + 1 }
  let f :=
    if Text.isBlank c then { f with broken := some (f.open_ ++ f.broken.getD []), open_ := [] }
    else f
  match f.broken with
  | some line =>
    if lineWidth < f.count then
      let line := if Text.isBlank c then (more.takeWhile Text.isBlank).reverse ++ line else line
      { f with done := (line.drop 1).reverse :: f.done, broken := none, count := 0 }
    else f
  | none => f

/-- The lines of a long text: a line that grows beyond the width is broken at its last blank, which
    the line break stands for. -/
def foldFrom (f : Folding) : List Char → List (List Char)
  | [] => (((f.open_ ++ f.broken.getD []).reverse) :: f.done).reverse
  | c :: more =>
    let next := f.add c more
    if Text.isBlank c && next.broken.isNone then foldFrom next (more.dropWhile Text.isBlank)
    else foldFrom next more
termination_by cs => cs.length
decreasing_by
  · have := (List.dropWhile_sublist (l := more) Text.isBlank).length_le
    simp only [List.length_cons]
    omega
  · simp

/-- The lines of a folded block. -/
def foldLines (cs : List Char) : List (List Char) := foldFrom {} cs

/-- A number of spaces. -/
def spaces (n : Nat) : List Char := List.replicate n ' '

/-- Lines with their indentation, each behind a line break. -/
def indentedLines (indent : Nat) (lines : List (List Char)) : List Char :=
  lines.flatMap fun line => '\n' :: spaces indent ++ line

/-- A literal block; its header tells what becomes of the line feeds at the end. -/
def literalChars (indent : Nat) (cs : List Char) : List Char :=
  let trailing := cs.length - (body cs).length
  let header := match trailing with
    | 0 => ['|', '-']
    | 1 => ['|']
    | _ => ['|', '+']
  let lines := Text.splitOn (· == '\n') (body cs) ++ List.replicate (trailing - 1) []
  header ++ indentedLines indent lines

/-! ## Values -/

/-- A text behind a key or a dash at the given indentation. -/
def textChars (indent : Nat) (s : String) : List Char :=
  let cs := s.toList
  match Style.of cs with
  | .plain => cs
  | .single => '\'' :: cs ++ ['\'']
  | .double => '"' :: cs.flatMap escape ++ ['"']
  | .literal => literalChars (indent + 2) cs
  | .folded => ['>', '-'] ++ indentedLines (indent + 2) (foldLines cs)

/-- A value without members or items, behind a key or a dash. -/
def leafChars (indent : Nat) : Json → List Char
  | .null => "null".toList
  | .bool true => "true".toList
  | .bool false => "false".toList
  | .whole n => Json.leafChars (.whole n)
  | .number x => numberLayout.chars x
  | .string s => textChars indent s
  | .array _ => ['[', ']']
  | .object _ => ['\x7b', '\x7d']

mutual

/-- A value behind a key, with the line break that ends it. -/
def valueChars (indent : Nat) : Json → List Char
  | .object (m :: ms) => '\n' :: membersChars (indent + 2) (m :: ms)
  | .array (v :: vs) => '\n' :: itemsChars (indent + 2) (v :: vs)
  | leaf => ' ' :: leafChars indent leaf ++ ['\n']

/-- Members, each on lines of its own. -/
def membersChars (indent : Nat) : List (String × Json) → List Char
  | [] => []
  | (name, value) :: ms =>
    spaces indent ++ textChars indent name ++ ':' :: valueChars indent value ++
      membersChars indent ms

/-- Items, each behind a dash; the first member of an item stands on the line of its dash. -/
def itemsChars (indent : Nat) : List Json → List Char
  | [] => []
  | .object ((name, value) :: ms) :: vs =>
    spaces indent ++ '-' :: ' ' :: textChars (indent + 2) name ++ ':' ::
      valueChars (indent + 2) value ++ membersChars (indent + 2) ms ++ itemsChars indent vs
  | .array (v :: vs') :: vs =>
    spaces indent ++ '-' :: '\n' :: itemsChars (indent + 2) (v :: vs') ++ itemsChars indent vs
  | leaf :: vs =>
    spaces indent ++ '-' :: ' ' :: leafChars indent leaf ++ '\n' :: itemsChars indent vs

end

/-- The YAML text of a value. -/
def write : Json → String
  | .object (m :: ms) => String.ofList (membersChars 0 (m :: ms))
  | .array (v :: vs) => String.ofList (itemsChars 0 (v :: vs))
  | leaf => String.ofList (leafChars 0 leaf ++ ['\n'])

end Reckoner.Yaml
