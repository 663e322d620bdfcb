import Reckoner.Text.Surrogate
import Reckoner.Text.Words
import Reckoner.Yaml.Cursor
import Reckoner.Yaml.Number

/-!
# `Reckoner.Yaml.Scalar` — the texts of scalars

## Contents
- **Folding.** `foldedBreaks`: what line breaks inside a scalar stand for; `Gap` for the blanks
  between two words.
- **Plain scalars.** They end at a key mark or a comment, and in flow collections at their marks.
- **Quoted scalars.** Between single quotes a quote is doubled, between double quotes a backslash
  escapes.
- **Block scalars.** Literal and folded lines below a header.
-/

namespace Reckoner.Yaml

/-! ## Folding -/

/-- A single line break is a space, each further one a line feed. -/
def foldedBreaks (breaks : Nat) : List Char :=
  if breaks ≤ 1 then [' '] else List.replicate (breaks - 1) '\n'

/-- What stands between two words of a scalar: blanks on one line, or line breaks. -/
structure Gap where
  blanks : List Char
  breaks : Nat

/-- What a gap stands for. -/
def Gap.text (g : Gap) : List Char := if g.breaks == 0 then g.blanks else foldedBreaks g.breaks

/-- Passes over blanks and line breaks, and over comments on lines that begin with a tab. A tab in
    front of text does not indent it. -/
def Cursor.skipGap (indent : Int) (comment : Bool) (breaks : Nat) (c : Cursor) :
    List Char → Option (Nat × Cursor)
  | [] => some (breaks, c)
  | ch :: cs =>
    if ch == '\n' then skipGap indent false (breaks + 1) c.nextLine cs
    else if comment then skipGap indent true breaks (c.behindBlanks 1) cs
    else if isSpace ch then
      if ch == '\t' && 0 < breaks && (c.column : Int) < indent then
        if c.hasText then none else skipGap indent true breaks (c.behindBlanks 1) cs
      else skipGap indent false breaks (c.behindBlanks 1) cs
    else some (breaks, c)

/-! ## Plain scalars -/

/-- A colon with this text behind it ends a plain scalar. -/
def endsPlain (flow : Bool) (cs : List Char) : Bool := opensBlank cs || (flow && opensFlowMark cs)

/-- The characters at the front that belong to a word of a plain scalar. -/
def plainWord (flow : Bool) : List Char → List Char
  | [] => []
  | c :: cs =>
    if isSpace c || c == '\n' || (c == ':' && endsPlain flow cs) || (flow && isFlowMark c) then []
    else c :: plainWord flow cs

/-- The words of a plain scalar and the gaps between them, the latest character first. It ends where
    less is indented, except inside brackets. -/
def plainText (flow : Bool) (indent : Int) (gap : Gap) (text : List Char) :
    Nat → Scan (List Char)
  | 0 => failure
  | fuel + 1 => do
    let c ← get
    if (c.fresh && opensAnyBoundary c.rest) || c.rest.head? == some '#' then return text
    guard !(flow && c.rest.head? == some '-' && opensFlowMark (c.rest.drop 1))
    let word := plainWord flow c.rest
    let text := if word.isEmpty then text else word.reverse ++ gap.text.reverse ++ text
    let c := if word.isEmpty then c else c.behind word.length
    if !opensBlank c.rest || c.rest.isEmpty then
      set c
      return text
    else
      let blanks := c.rest.takeWhile isSpace
      match c.skipGap indent false 0 c.rest with
      | none => failure
      | some (breaks, c) => do
        set c
        if !flow && (c.column : Int) < indent then return text
        else plainText flow indent ⟨blanks, breaks⟩ text fuel

/-- A plain scalar. It has at least one character. -/
def plain : Scan Token := do
  modify Cursor.waiveColumns
  let c ← get
  let indent := c.indent + 1
  guard !(c.inFlow && (c.column : Int) < indent)
  let text ← plainText c.inFlow indent ⟨[], 0⟩ [] (c.rest.length + 1)
  let c ← get
  if c.fresh then set (c.allowKey true)
  guard !text.isEmpty
  return .scalar .plain text.reverse

/-! ## Quoted scalars -/

/-- The character of a number, unless it is no character. -/
def character? (n : Nat) : Option Char := if n.isValidChar then some (Char.ofNat n) else none

/-- The number of so many hexadecimal digits. -/
def hexNumber? (count : Nat) (cs : List Char) : Option Nat :=
  let ds := cs.take count
  if ds.length == count && ds.all (digit? 16 · |>.isSome) then digitsValue? 16 ds else none

/-- The character of so many hexadecimal digits, and how many characters were used. -/
def hexCharacter? (count : Nat) (cs : List Char) : Option (Char × Nat) :=
  ((hexNumber? count cs).bind character?).map fun c => (c, count + 1)

/-- The character of two escapes that are a surrogate pair, and how many characters were used. -/
def pairCharacter? (cs : List Char) : Option (Char × Nat) := do
  let leading ← hexNumber? 4 cs
  guard (Text.isLeadingSurrogate leading && (cs.drop 4).take 2 == ['\\', 'u'])
  let trailing ← hexNumber? 4 (cs.drop 6)
  guard (Text.isTrailingSurrogate trailing)
  return (Text.surrogatePair leading trailing, 11)

/-- The character of an escape, and how many characters behind the backslash it takes. -/
def escaped? : List Char → Option (Char × Nat)
  | '0' :: _ => some ('\x00', 1)
  | 'a' :: _ => some ('\x07', 1)
  | 'b' :: _ => some ('\x08', 1)
  | 't' :: _ | '\t' :: _ => some ('\t', 1)
  | 'n' :: _ => some ('\n', 1)
  | 'v' :: _ => some ('\x0b', 1)
  | 'f' :: _ => some ('\x0c', 1)
  | 'r' :: _ => some ('\r', 1)
  | 'e' :: _ => some ('\x1b', 1)
  | ' ' :: _ => some (' ', 1)
  | '"' :: _ => some ('"', 1)
  | '/' :: _ => some ('/', 1)
  | '\\' :: _ => some ('\\', 1)
  | 'N' :: _ => some ('\u0085', 1)
  | '_' :: _ => some ('\u00a0', 1)
  | 'L' :: _ => some ('\u2028', 1)
  | 'P' :: _ => some ('\u2029', 1)
  | 'x' :: cs => hexCharacter? 2 cs
  | 'u' :: cs => (hexCharacter? 4 cs).or (pairCharacter? cs)
  | 'U' :: cs => hexCharacter? 8 cs
  | _ => none

/-- The characters of a quoted scalar up to a blank, a line break or the closing quote, the latest
    first, and whether a backslash made an end of the line. -/
def quotedWord (quote : Char) (text : List Char) : Nat → Scan (List Char × Bool)
  | 0 => failure
  | fuel + 1 => do
    let c ← get
    match c.rest with
    | [] => return (text, false)
    | ch :: cs =>
      if isSpace ch || ch == '\n' then return (text, false)
      else if ch == quote then
        if quote == '\'' && cs.head? == some quote then do
          pass 2
          quotedWord quote (quote :: text) fuel
        else return (text, false)
      else if quote == '"' && ch == '\\' then
        if cs.head? == some '\n' then do
          set (c.behind 1).nextLine
          return (text, true)
        else
          match escaped? cs with
          | none => failure
          | some (character, length) => do
            pass (length + 1)
            quotedWord quote (character :: text) fuel
      else do
        pass 1
        quotedWord quote (ch :: text) fuel

/-- Passes over blanks and line breaks inside quotes; how many breaks there were is returned. A tab
    at the start of a line is no indentation. -/
def Cursor.skipQuotedGap (begun : Bool) (breaks : Nat) (c : Cursor) :
    List Char → Option (Nat × Cursor)
  | [] => some (breaks, c)
  | ch :: cs =>
    if ch == '\n' then skipQuotedGap true (breaks + 1) c.nextLine cs
    else if isSpace ch then
      if begun && ch == '\t' && (c.column : Int) < c.indent then none
      else skipQuotedGap begun breaks (c.behindBlanks 1) cs
    else some (breaks, c)

/-- What blanks and line breaks inside quotes stand for; a break behind a backslash is none. -/
def quotedGapText (escapedBreak : Bool) (g : Gap) : List Char :=
  if escapedBreak then List.replicate g.breaks '\n' else g.text

/-- The text up to the closing quote, the latest character first. Outside of brackets its further
    lines are indented, unless the line break is escaped or the closing quote comes first. -/
def quotedText (quote : Char) (text : List Char) : Nat → Scan (List Char)
  | 0 => failure
  | fuel + 1 => do
    let c ← get
    guard !(c.rest.isEmpty || (c.column == 0 && opensAnyBoundary c.rest))
    let (text, escapedBreak) ← quotedWord quote text (fuel + 1)
    let c ← get
    if c.rest.head? == some quote then
      pass 1
      return text
    else
      let blanks := c.rest.takeWhile isSpace
      match c.skipQuotedGap escapedBreak 0 c.rest with
      | none => failure
      | some (breaks, c) => do
        guard (breaks == 0 || escapedBreak || c.inFlow || c.rest.head? == some quote ||
          c.indent < (c.column : Int))
        set c
        let gap := quotedGapText escapedBreak ⟨blanks, breaks⟩
        quotedText quote (gap.reverse ++ text) fuel

/-- What may stand behind the closing quote on its line: nothing, the colon of a key, or a mark of
    the collection around it. -/
def endsQuoted (oneLine : Bool) (c : Cursor) : Bool :=
  match c.rest with
  | [] => true
  | ch :: _ =>
    ch == '\n' || (c.inFlow && (ch == ',' || ch == ']' || ch == '\x7d' || ch == ':')) ||
      (!c.inFlow && ch == ':' && oneLine)

/-- A quoted scalar. -/
def quoted (quote : Char) : Scan Token := do
  let start ← get
  pass 1
  let text ← quotedText quote [] (start.rest.length + 1)
  passRemark
  let c ← get
  guard (endsQuoted (start.line == c.line) c)
  return .scalar .quoted text.reverse

/-! ## Block scalars -/

/-- What becomes of the line breaks at the end of a block. -/
inductive Chomping where
  | strip
  | clip
  | keep
deriving DecidableEq, Repr

/-- The header of a block: how its end is chomped, and its indentation, if it is given. -/
structure Header where
  chomping : Chomping
  indent : Option Nat

/-- The header of so many characters: one indentation and one sign at most. -/
def Header.ofChars? (cs : List Char) : Option Header :=
  let isIndent (c : Char) : Bool := '1' ≤ c && c ≤ '9'
  let isSign (c : Char) : Bool := c == '-' || c == '+'
  if (cs.filter isIndent).length ≤ 1 && (cs.filter isSign).length ≤ 1 &&
      cs.all fun c => isIndent c || isSign c then
    some ⟨if cs.contains '-' then .strip else if cs.contains '+' then .keep else .clip,
      (cs.find? isIndent).map fun c => c.toNat - 48⟩
  else none

/-- The number of spaces at the front. -/
def indentation (line : List Char) : Nat := (line.takeWhile (· == ' ')).length

/-- A line of spaces only. -/
def isSpaceLine (line : List Char) : Bool := line.all (· == ' ')

/-- A line without text, in a block of the given indentation. -/
def isEmptyLine (width : Nat) (line : List Char) : Bool :=
  isSpaceLine line && line.length ≤ width

/-- The indentation of a block: that of its first line with text, but at least the given one and
    that of the empty lines before it. -/
def blockWidth (least : Nat) (lines : List (List Char)) : Nat :=
  let leading := lines.takeWhile isSpaceLine
  let first := (lines.drop leading.length).take 1
  ((leading ++ first).map indentation).foldl max least

/-- A line that belongs to a block. -/
def isInside (width : Nat) (line : List Char) : Bool :=
  isSpaceLine line || width ≤ indentation line

/-- A line that folding keeps apart from its neighbours. -/
def isSpaced (line : List Char) : Bool := (line.head?.map isSpace).getD false

/-- Lines joined by what the breaks between them stand for, the empty lines before them given. -/
def joinLines (folded : Bool) (previous : List Char) (empties : Nat) :
    List (List Char) → List Char
  | [] => []
  | line :: lines =>
    if line.isEmpty then joinLines folded previous (empties + 1) lines
    else
      let between :=
        if folded && !isSpaced previous && !isSpaced line then foldedBreaks (empties + 1)
        else List.replicate (empties + 1) '\n'
      between ++ line ++ joinLines folded line 0 lines

/-- How a block ends. -/
inductive Ending where
  /-- At a line that is indented less. -/
  | below
  /-- At the end of the text, in a line that is indented less than the block. -/
  | empty
  /-- At the end of the text, in a line that holds the indentation of the block and no more. -/
  | indented
  /-- At the end of the text, in its last line. -/
  | open
deriving DecidableEq

/-- The number of line breaks at the end of a block with text, of which some were empty lines. -/
def breaksBehindText (chomping : Chomping) (ending : Ending) (empties : Nat) : Nat :=
  let breaks := if ending = .indented then 2 else 1
  match chomping with
  | .strip => 0
  | .clip => breaks
  | .keep => breaks + empties

/-- The number of line breaks that make up a block of empty lines. At the end of the text there is
    one at least. -/
def breaksWithoutText (chomping : Chomping) (ending : Ending) (empties : Nat) : Nat :=
  match chomping with
  | .strip => 0
  | .clip => if ending = .below then 0 else 1
  | .keep => if ending = .below then empties else max empties 1

/-- The text of the lines of a block. -/
def blockText (folded : Bool) (chomping : Chomping) (ending : Ending)
    (lines : List (List Char)) : List Char :=
  let empties := (lines.takeWhile (·.isEmpty)).length
  match lines.drop empties with
  | [] => List.replicate (breaksWithoutText chomping ending empties) '\n'
  | line :: more =>
    let trailing := (lines.reverse.takeWhile (·.isEmpty)).length
    List.replicate empties '\n' ++ line ++ joinLines folded line 0 more ++
      List.replicate (breaksBehindText chomping ending trailing) '\n'

/-- The lines of a block of the given width among those with a line break at their end, the number
    of lines taken, and the ending; the last line of the text has no break. -/
def blockLines (width : Nat) (lines : List (List Char)) (last : List Char) :
    List (List Char) × Nat × Ending :=
  let inside := lines.takeWhile (isInside width)
  let bodies := inside.map (·.drop width)
  if inside.length < lines.length then (bodies, inside.length, .below)
  else if isEmptyLine width last then
    (bodies, inside.length + 1, if last.length == width && 0 < width then .indented else .empty)
  else if isInside width last then (bodies ++ [last.drop width], inside.length + 1, .open)
  else (bodies, inside.length, .below)

/-- The first line with text is not indented between the block and what is around it. -/
def isAligned (indent : Int) (width : Nat) (lines : List (List Char)) : Bool :=
  match lines.dropWhile (isEmptyLine width) with
  | [] => true
  | line :: _ => width ≤ indentation line || (indentation line : Int) ≤ indent

/-- The cursor at the start of a further line, or at the end of the text. -/
def Cursor.belowLines (c : Cursor) (lines : List (List Char)) (count : Nat) : Cursor :=
  let length := (((lines.take count).map fun line => line.length + 1).foldr (· + ·) 0)
  { c with
    rest := c.rest.drop length, index := c.index + length, line := c.line + count, column := 0,
    fresh := true }

/-- A block scalar. -/
def block (folded : Bool) : Scan Token := do
  pass 1
  modify Cursor.waiveColumns
  let signs := (← get).rest.takeWhile fun c => !(isSpace c || c == '\n')
  match Header.ofChars? signs with
  | none => failure
  | some header => do
    pass signs.length
    passRemark
    let c ← get
    guard (opensBreak c.rest)
    if c.rest.isEmpty then return .scalar .block []
    else
      let c := c.nextLine
      guard (c.rest.head? != some '\t')
      let lines := Text.splitOn (· == '\n') c.rest
      let width := match header.indent with
        | some n => c.indent.toNat + n
        | none => blockWidth (c.indent + 1).toNat lines
      guard (isAligned c.indent width lines)
      let (bodies, count, ending) := blockLines width lines.dropLast (lines.getLast?.getD [])
      set (c.belowLines lines count)
      return .scalar .block (blockText folded header.chomping ending bodies)

end Reckoner.Yaml
