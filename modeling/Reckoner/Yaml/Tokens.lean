import Reckoner.Yaml.Property
import Reckoner.Yaml.Scalar

/-!
# `Reckoner.Yaml.Tokens` — the tokens of a text

## Contents
- **Boundaries.** The end of the text, directives and the marks between documents.
- **Brackets.** The marks of flow collections.
- **Marks of entries.** Dashes, keys that are written out, and colons.
- **Tokens.** `Token.ofChars`: all tokens of a text. Where a rule is broken they end in a fault,
  behind the tokens that are settled there.
-/

namespace Reckoner.Yaml

/-! ## Boundaries -/

/-- The end of the text: all blocks end. No bracket may be open, and no key may lack its colon. -/
def finish : Scan Unit := do
  let c ← get
  guard !c.inFlow
  modify (Cursor.closeBlocks (-1))
  dropKey

/-- Ends all blocks before a line that belongs to no document's content. -/
def leaveContent : Scan Unit := do
  modify (Cursor.closeBlocks (-1))
  dropKey
  modify (Cursor.allowKey false)

/-- A mark between documents. Nothing stands behind the one at the end of a document. -/
def boundary (t : Token) : Scan Unit := do
  guard !(← get).inFlow
  leaveContent
  pass 3
  push t
  if t = .documentEnd then
    passRemark
    guard (opensBreak (← get).rest)

/-! ## Brackets -/

/-- The number of brackets that may be open at once. -/
def bracketLimit : Nat := 255

/-- An opening bracket. A collection may be a key itself, and may begin with one. -/
def openBracket (bracket : Char) (t : Token) : Scan Unit := do
  modify Cursor.saveKey
  modify Cursor.demandColumn
  let c ← get
  guard (c.brackets.length < bracketLimit)
  set { c with
    candidate := {}, candidates := c.candidate :: c.candidates, brackets := bracket :: c.brackets,
    keyAllowed := true, inMapping := c.inMapping || bracket == '\x7b',
    pairs := if bracket == '[' then none :: c.pairs else c.pairs }
  pass 1
  passRemark
  push t

/-- The mapping of one entry that stands in a list without braces ends, if there is one. -/
def endPair : Scan Unit := do
  let c ← get
  match c.pairs with
  | some depth :: pairs =>
    if depth == c.brackets.length then
      set ({ c with inMapping := false, pairs := none :: pairs }.push .flowMappingEnd)
  | _ => return ()

/-- Leaves the innermost brackets. -/
def Cursor.leaveBracket (c : Cursor) : Cursor :=
  { c with
    brackets := c.brackets.drop 1, candidate := c.candidates.head?.getD {},
    candidates := c.candidates.drop 1 }

/-- A closing bracket, which must be the one for the bracket opened last. Inside further brackets
    the collection may be a key. -/
def closeBracket (bracket : Char) (t : Token) : Scan Unit := do
  guard ((← get).brackets.head? == some bracket)
  dropKey
  if bracket == '[' then
    endPair
    modify fun c => { c with pairs := c.pairs.drop 1 }
  modify (·.leaveBracket.allowKey false)
  pass 1
  passRemark
  modify fun c => if c.inFlow then { c with adjacentAt := some c.index } else c
  push t

/-- A comma. -/
def comma : Scan Unit := do
  dropKey
  modify (Cursor.allowKey true)
  endPair
  pass 1
  passRemark
  push .comma

/-! ## Marks of entries -/

/-- The dash of an item. A further dash needs spaces in front of it, not tabs. -/
def item : Scan Unit := do
  let start ← get
  guard (!start.inFlow && start.keyAllowed)
  pass 1
  modify fun c => c.openBlock c.count start.column .listStart
  let blanks := (← get).rest.takeWhile isSpace
  passRemark
  let rest := (← get).rest
  guard !(blanks.contains '\t' && rest.head? == some '-' && opensBlank (rest.drop 1))
  let c ← get
  if c.rest.head? == some '\n' || opensFlowMark c.rest then set c.demandColumn
  dropKey
  modify (Cursor.allowKey true)
  push .item

/-- Passes over spaces, line breaks and comments; there is a space or a break. -/
def Cursor.skipSpaces (spaced comment : Bool) (c : Cursor) : List Char → Option Cursor
  | [] => if spaced then some c else none
  | ch :: cs =>
    if ch == '\n' then
      skipSpaces true false (c.nextLine.allowKey (c.keyAllowed || !c.inFlow)) cs
    else if comment || ch == '#' then skipSpaces spaced true (c.behindBlanks 1) cs
    else if ch == ' ' then skipSpaces true false (c.behindBlanks 1) cs
    else if spaced && ch != '\t' then some c else none

/-- The mark of a key that is written out. -/
def keyMark : Scan Unit := do
  let start ← get
  if start.inFlow then set { start with inMapping := true }
  else
    guard start.keyAllowed
    modify fun c => c.openBlock c.count start.column .mappingStart
  dropKey
  modify (Cursor.allowKey !start.inFlow)
  pass 1
  let c ← get
  match c.skipSpaces false false c.rest with
  | some c => set (c.push .key)
  | none => failure

/-- Tabs alone do not divide a colon from a word or a dash. -/
def passColon : Scan Unit := do
  pass 1
  let c ← get
  if c.rest.head? == some '\t' then
    let blanks := c.rest.takeWhile isSpace
    passRemark
    let rest := (← get).rest
    let isWord := (rest.head?.map fun ch => ch == '-' || isHandleChar ch).getD false
    guard (blanks.contains ' ' || !isWord)

/-- The colon behind a key: the tokens of the key, and of a mapping that begins with it, are put in
    front of what was read since. -/
def valueOfKey (k : Candidate) (isPair : Bool) : Scan Unit := do
  modify (Cursor.insert k.token .key)
  if isPair then
    guard (k.line == (← get).line)
    modify (Cursor.insert k.token .flowMappingStart)
  modify fun c =>
    { (c.openBlock k.token k.column .mappingStart).demandColumn with
      candidate := { c.candidate with isPossible := false }, keyAllowed := false }

/-- A colon behind a key that is written out, or behind none. -/
def valueOfMark (column : Nat) (isPair : Bool) : Scan Unit := do
  if isPair then push .flowMappingStart
  let c ← get
  if !c.inFlow then
    guard c.keyAllowed
    set (c.openBlock c.count column .mappingStart)
  modify fun c => c.demandColumn.allowKey !c.inFlow

/-- A colon. In a list in brackets it makes a mapping of one entry. -/
def value : Scan Unit := do
  let start ← get
  let isPair := !start.pairs.isEmpty && !start.inMapping
  if isPair then
    set { start with pairs := some start.brackets.length :: start.pairs.drop 1 }
  passColon
  if start.candidate.isPossible then valueOfKey start.candidate isPair
  else valueOfMark start.column isPair
  push .value

/-! ## Tokens -/

/-- A token that may be the start of a key. -/
def keyed (keyAllowed : Bool) (read : Scan Token) : Scan Unit := do
  modify fun c => c.saveKey.allowKey keyAllowed
  push (← read)

/-- A quoted scalar. The colon behind it needs no blank behind itself. -/
def quotedKey (quote : Char) : Scan Unit := do
  modify fun c => c.saveKey.allowKey false
  let t ← quoted quote
  skip
  modify fun c => { c with adjacentAt := some c.index }
  push t

/-- A colon inside brackets that no blank follows. Behind a plain key a collection needs one. -/
def adjacentValue (c : Cursor) : Scan Unit := do
  let rest := c.rest.drop 1
  guard (c.adjacentAt == some c.index || !(rest.head? == some '[' || rest.head? == some '\x7b'))
  value

/-- The token that begins with a character. -/
def content (ch : Char) (c : Cursor) : Scan Unit :=
  let alone := opensBlank (c.rest.drop 1)
  match ch with
  | '[' => openBracket '[' .flowListStart
  | '\x7b' => openBracket '\x7b' .flowMappingStart
  | ']' => closeBracket '[' .flowListEnd
  | '\x7d' => closeBracket '\x7b' .flowMappingEnd
  | ',' => comma
  | '*' => keyed false (anchor true)
  | '&' => keyed false (anchor false)
  | '!' => keyed false tag
  | '\'' | '"' => quotedKey ch
  | '%' | '@' | '\x60' => failure
  | '-' => if alone then item else keyed false plain
  | '?' => if alone then keyMark else keyed false plain
  | ':' =>
    if alone then value
    else if c.inFlow && (opensFlowMark (c.rest.drop 1) || c.adjacentAt == some c.index) then
      adjacentValue c
    else keyed false plain
  | '|' => if c.inFlow then keyed false plain else keyed true (block false)
  | '>' => if c.inFlow then keyed false plain else keyed true (block true)
  | _ => keyed false plain

/-- A place that is indented less than the block around it. The marks that end an entry in brackets
    may stand there. -/
def isOutside (ch : Char) (c : Cursor) : Bool :=
  (c.column : Int) < c.indent && !(c.inFlow && (ch == ']' || ch == '\x7d' || ch == ','))

/-- Reads the next token; whether there was one is returned. -/
def next : Scan Bool := do
  skip
  match (← get).retireKey with
  | none => failure
  | some c => do
    let c := c.closeBlocks c.column
    set c
    match c.rest with
    | [] => do
      finish
      return false
    | ch :: _ => do
      if c.column == 0 && ch == '%' then
        leaveContent
        push (← directive)
      else if c.column == 0 && opensBoundary '-' c.rest then boundary .documentStart
      else if c.column == 0 && opensBoundary '.' c.rest then boundary .documentEnd
      else
        guard !(isOutside ch c)
        content ch c
      return true

/-- The tokens from a place on, a fuel of tokens given. -/
def Token.scan : Nat → Cursor → List Token
  | 0, c => c.settled ++ [.fault]
  | fuel + 1, c =>
    match next.run c with
    | none => c.settled ++ [.fault]
    | some (true, c) => Token.scan fuel c
    | some (false, c) => c.tokens.reverse

/-- The tokens of a text whose lines end in line feeds. -/
def Token.ofChars (cs : List Char) : List Token :=
  Token.scan (cs.length + 2) { rest := cs }

end Reckoner.Yaml
