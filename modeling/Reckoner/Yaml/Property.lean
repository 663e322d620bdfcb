import Reckoner.Yaml.Cursor
import Reckoner.Yaml.Number

/-!
# `Reckoner.Yaml.Property` — anchors, tags and directives

## Contents
- **Anchors.** `anchor`: a name that other places repeat the node by.
- **Tags.** `tag`: a name space and a name in it. Bytes in a name may be written as two hexadecimal
  digits behind a percent sign.
- **Directives.** `directive`: a line in front of a document.
-/

namespace Reckoner.Yaml

/-! ## Anchors -/

/-- The characters of an anchor's name. -/
def isAnchorChar (c : Char) : Bool := !(isSpace c || c == '\n' || c == '\ufeff' || isFlowMark c)

/-- An anchor, or an alias of one. -/
def anchor (isAlias : Bool) : Scan Token := do
  pass 1
  let name := (← get).rest.takeWhile isAnchorChar
  guard !name.isEmpty
  pass name.length
  return if isAlias then .alias name else .anchor name

/-! ## Tags -/

/-- The characters of a handle. -/
def isHandleChar (c : Char) : Bool := c.isAlphanum || c == '-' || c == '_'

/-- The characters of a name in full. -/
def isNameChar (c : Char) : Bool :=
  c.isAlphanum || c == '-' || "#;/?:@&=+$,_.!~*'()[]%".toList.contains c

/-- The characters of a name behind a handle. -/
def isShortNameChar (c : Char) : Bool := isNameChar c && !isFlowMark c && c != '!'

/-- The byte that a percent sign and two digits stand for. -/
def byte? : List Char → Option Nat
  | '%' :: c :: d :: _ => do return 16 * (← digit? 16 c) + (← digit? 16 d)
  | _ => none

/-- The number of bytes of a character, by its first byte. -/
def byteCount? (first : Nat) : Option Nat :=
  if first < 128 then some 1
  else if 192 ≤ first && first < 224 then some 2
  else if 224 ≤ first && first < 240 then some 3
  else if 240 ≤ first && first < 248 then some 4
  else none

/-- The number that further bytes of a character make. -/
def continued? (count : Nat) (n : Nat) (cs : List Char) : Option Nat :=
  match count with
  | 0 => some n
  | count + 1 =>
    match byte? cs with
    | some b => if 128 ≤ b && b < 192 then continued? count (256 * n + b) (cs.drop 3) else none
    | none => none

/-- The character of an escape, and the length of the escape. -/
def nameEscape? (cs : List Char) : Option (Char × Nat) := do
  let first ← byte? cs
  let count ← byteCount? first
  let n ← continued? (count - 1) first (cs.drop 3)
  guard n.isValidChar
  return (Char.ofNat n, 3 * count)

/-- The characters of a name. -/
def nameChars (isChar : Char → Bool) (name : List Char) : Nat → Scan (List Char)
  | 0 => failure
  | fuel + 1 => do
    match (← get).rest with
    | [] => return name
    | c :: cs =>
      if !isChar c then return name
      else if c == '%' then
        match nameEscape? (c :: cs) with
        | some (character, length) => do
          pass length
          nameChars isChar (name ++ [character]) fuel
        | none => failure
      else do
        pass 1
        nameChars isChar (name ++ [c]) fuel

/-- A name, behind what is known of it. -/
def name (isChar : Char → Bool) (known : List Char) : Scan (List Char) := do
  nameChars isChar known ((← get).rest.length + 1)

/-- An exclamation mark and a word; a second mark behind the word makes it a handle. -/
def handle : Scan (List Char) := do
  guard ((← get).rest.head? == some '!')
  pass 1
  let word := (← get).rest.takeWhile isHandleChar
  pass word.length
  if (← get).rest.head? == some '!' then
    pass 1
    return '!' :: word ++ ['!']
  else return '!' :: word

/-- A handle of two exclamation marks at least. -/
def isHandle (cs : List Char) : Bool := 2 ≤ cs.length && cs.getLast? == some '!'

/-- The handle and the name of a tag. -/
def tagName : Scan (List Char × List Char) := do
  if (← get).rest.take 2 == ['!', '<'] then
    pass 2
    let full ← name isNameChar []
    guard ((← get).rest.head? == some '>')
    pass 1
    return ([], full)
  else
    let start ← handle
    if isHandle start then
      let short ← name isShortNameChar []
      guard !short.isEmpty
      return (start, short)
    else
      let short ← name isShortNameChar (start.drop 1)
      return if short.isEmpty then ([], ['!']) else (['!'], short)

/-- A tag. A blank follows it, or a mark of a flow collection inside brackets. -/
def tag : Scan Token := do
  let (start, short) ← tagName
  let c ← get
  guard (opensBlank c.rest || (c.inFlow && opensFlowMark c.rest))
  return .tag start short

/-! ## Directives -/

/-- Passes over spaces and tabs. -/
def passBlanks : Scan Unit := do
  modify (·.behindBlanks ((← get).rest.takeWhile isSpace).length)

/-- A number of at most nine digits. -/
def versionNumber : Scan Unit := do
  let ds := (← get).rest.takeWhile Char.isDigit
  guard (!ds.isEmpty && ds.length ≤ 9)
  pass ds.length

/-- The version behind its directive's name. -/
def version : Scan Token := do
  passBlanks
  versionNumber
  guard ((← get).rest.head? == some '.')
  pass 1
  versionNumber
  return .version

/-- The first character of a name space: an exclamation mark, or one of a name behind a handle. -/
def nameSpaceStart : Scan (List Char) := do
  match (← get).rest with
  | '!' :: _ => do
    pass 1
    return ['!']
  | c :: _ => do
    guard (isShortNameChar c)
    return []
  | [] => failure

/-- The handle and the name space behind their directive's name. -/
def nameSpace : Scan Token := do
  passBlanks
  let start ← handle
  guard (start == ['!'] || isHandle start)
  passBlanks
  let full ← name isNameChar (← nameSpaceStart)
  guard (opensBlank (← get).rest)
  return .nameSpace start full

/-- A line in front of a document. -/
def directive : Scan Token := do
  pass 1
  let word := (← get).rest.takeWhile isHandleChar
  guard !word.isEmpty
  pass word.length
  guard (opensBlank (← get).rest)
  let t ← match String.ofList word with
    | "YAML" => version
    | "TAG" => nameSpace
    | _ => do
      pass ((← get).rest.takeWhile (· != '\n')).length
      pure .directive
  passRemark
  let c ← get
  guard (opensBreak c.rest)
  if !c.rest.isEmpty then set c.nextLine
  return t

end Reckoner.Yaml
