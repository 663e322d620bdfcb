import Reckoner.Yaml.Token

/-!
# `Reckoner.Yaml.Cursor` — a place in a YAML text and its layout

A key is only known to be one when the colon behind it is reached: until then its place is kept as a
`Candidate`, and the token for it is put in later. Blocks are opened by a deeper column and closed
by a smaller one.

## Contents
- **Cursors.** `Cursor`: what is left of the text, the tokens so far, and the layout around them.
- **Moving.** Over characters of a line, over line breaks, over blanks and comments.
- **Tokens.** Adding a token at the end or at an earlier place.
- **Indentation.** Opening and closing blocks.
- **Keys.** Saving, dropping and giving up candidates.
-/

namespace Reckoner.Yaml

/-! ## Cursors -/

/-- A place where a key may have begun. -/
structure Candidate where
  isPossible : Bool := false
  /-- Nothing but a key may stand at this place. -/
  isRequired : Bool := false
  index : Nat := 0
  line : Nat := 0
  column : Nat := 0
  /-- The number of tokens in front of it. -/
  token : Nat := 0
deriving DecidableEq, Repr

/-- An indentation that waits for a deeper one to end. -/
structure Level where
  indent : Int
  /-- The deeper indentation is that of a list or a mapping; others demand one column more of what
      stands behind a mark. -/
  isBlock : Bool
deriving DecidableEq, Repr

/-- A place in a text whose lines end in line feeds. -/
structure Cursor where
  rest : List Char
  index : Nat := 0
  line : Nat := 0
  column : Nat := 0
  /-- Only blanks stand before the place on its line. -/
  fresh : Bool := true
  /-- The tokens so far, the latest first. -/
  tokens : List Token := []
  count : Nat := 0
  /-- A key may begin here. -/
  keyAllowed : Bool := true
  /-- The candidate of the innermost collection. -/
  candidate : Candidate := {}
  /-- Those around it, one for each open bracket. -/
  candidates : List Candidate := []
  indent : Int := -1
  levels : List Level := []
  /-- The brackets that are open, the innermost first. -/
  brackets : List Char := []
  /-- The place where a colon needs no blank behind it. -/
  adjacentAt : Option Nat := none
  /-- A mapping in braces has begun. -/
  inMapping : Bool := false
  /-- For each open list in brackets, the number of brackets around the mapping of one entry that
      stands in it without braces. -/
  pairs : List (Option Nat) := []

/-- A step that moves a cursor or fails. -/
abbrev Scan := StateT Cursor Option

namespace Cursor

/-- Inside brackets. -/
def inFlow (c : Cursor) : Bool := !c.brackets.isEmpty

/-! ## Moving -/

/-- The cursor behind some characters of the same line. -/
def behind (c : Cursor) (length : Nat) : Cursor :=
  { c with
    rest := c.rest.drop length, index := c.index + length, column := c.column + length,
    fresh := false }

/-- The cursor behind some blanks, or other characters that do not count as text. -/
def behindBlanks (c : Cursor) (length : Nat) : Cursor := { c.behind length with fresh := c.fresh }

/-- The cursor at the start of the next line, before a line break. -/
def nextLine (c : Cursor) : Cursor :=
  { c with
    rest := c.rest.drop 1, index := c.index + 1, line := c.line + 1, column := 0, fresh := true }

/-- A key may begin here, or not. -/
def allowKey (isAllowed : Bool) (c : Cursor) : Cursor := { c with keyAllowed := isAllowed }

/-- Text other than a comment follows on this line. -/
def hasText (c : Cursor) : Bool :=
  match c.rest.dropWhile isSpace with
  | [] => false
  | ch :: _ => ch != '\n' && ch != '#'

/-- A tab stands where the indentation of a block has to be. -/
def isTabbed (c : Cursor) : Bool :=
  c.rest.head? == some '\t' && (c.column : Int) < c.indent && c.hasText

/-- Passes over the blanks, line breaks and comments at the front of what is left. Outside of
    brackets a key may begin on each new line. -/
def skip (comment : Bool) (c : Cursor) : List Char → Option Cursor
  | [] => some c
  | ch :: cs =>
    if ch == '\n' then skip false (c.nextLine.allowKey (c.keyAllowed || !c.inFlow)) cs
    else if comment || ch == '#' then skip true (c.behindBlanks 1) cs
    else if isSpace ch then
      if !c.levels.isEmpty && c.fresh && c.isTabbed then none
      else skip false (c.behindBlanks 1) cs
    else some c

/-- The number of characters up to the end of the line if only blanks and a comment stand there,
    and of the blanks alone otherwise. A comment needs a blank in front of it. -/
def remarkLength? (cs : List Char) : Option Nat :=
  let blanks := (cs.takeWhile isSpace).length
  if (cs.drop blanks).head? == some '#' then
    if blanks == 0 then none else some (cs.takeWhile (· != '\n')).length
  else some blanks

/-! ## Tokens -/

/-- Adds a token at the end. -/
def push (t : Token) (c : Cursor) : Cursor :=
  { c with tokens := t :: c.tokens, count := c.count + 1 }

/-- Adds a token behind the given number of tokens. -/
def insert (number : Nat) (t : Token) (c : Cursor) : Cursor :=
  let later := c.count - number
  { c with tokens := c.tokens.take later ++ t :: c.tokens.drop later, count := c.count + 1 }

/-! ## Indentation -/

/-- Opens a block in the given column, if it is deeper than the one around it; the token for it goes
    behind the given number of tokens. -/
def openBlock (number column : Nat) (t : Token) (c : Cursor) : Cursor :=
  if c.inFlow then c
  else
    let c := match c.levels with
      | level :: levels =>
        if c.indent ≤ (column : Int) && !level.isBlock then
          { c with indent := level.indent, levels := levels }
        else c
      | [] => c
    if c.indent < (column : Int) then
      { c.insert number t with indent := column, levels := ⟨c.indent, true⟩ :: c.levels }
    else c

/-- What remains of an indentation and the levels around it when those deeper than a column are
    closed, and how many blocks end with them. -/
def closed (column : Int) : Int → List Level → Int × List Level × Nat
  | indent, [] => (indent, [], 0)
  | indent, level :: levels =>
    if column < indent then
      let (remaining, around, ended) := closed column level.indent levels
      (remaining, around, if level.isBlock then ended + 1 else ended)
    else (indent, level :: levels, 0)

/-- Closes the blocks deeper than a column. -/
def closeBlocks (column : Int) (c : Cursor) : Cursor :=
  if c.inFlow then c
  else
    let (indent, levels, ended) := closed column c.indent c.levels
    { c with
      tokens := List.replicate ended .blockEnd ++ c.tokens, count := c.count + ended,
      indent := indent, levels := levels }

/-- Demands one column more of what follows. -/
def demandColumn (c : Cursor) : Cursor :=
  match c.levels with
  | level :: _ =>
    if !c.inFlow && level.isBlock then
      { c with indent := c.indent + 1, levels := ⟨c.indent, false⟩ :: c.levels }
    else c
  | [] => c

/-- An indentation without the columns that were demanded last. -/
def undemanded : Int → List Level → Int × List Level
  | indent, [] => (indent, [])
  | indent, level :: levels =>
    if level.isBlock then (indent, level :: levels) else undemanded level.indent levels

/-- Demands no further columns. -/
def waiveColumns (c : Cursor) : Cursor :=
  let (indent, levels) := undemanded c.indent c.levels
  { c with indent := indent, levels := levels }

/-! ## Keys -/

/-- The longest key of a block mapping, in characters. -/
def keyLimit : Nat := 1024

/-- The candidate can still be a key. Outside of brackets a key stands on one line. -/
def isLive (c : Cursor) (k : Candidate) : Bool :=
  k.isPossible && (c.inFlow || (k.line == c.line && c.index ≤ k.index + keyLimit))

/-- A key may begin here: keeps the place, if keys are allowed. -/
def saveKey (c : Cursor) : Cursor :=
  if c.keyAllowed then
    let isRequired := !c.inFlow && c.indent == c.column &&
      (c.levels.head?.map (·.isBlock)).getD false
    { c with candidate := ⟨true, isRequired, c.index, c.line, c.column, c.count⟩ }
  else c

/-- Gives the candidate up; a key that is required must not be lost. -/
def dropKey (c : Cursor) : Option Cursor :=
  if c.candidate.isPossible && c.candidate.isRequired then none
  else some { c with candidate := { c.candidate with isPossible := false } }

/-- Gives the candidate up when it cannot be a key any more. -/
def retireKey (c : Cursor) : Option Cursor :=
  if c.candidate.isPossible && !c.isLive c.candidate then c.dropKey else some c

/-- The tokens in front of the first candidate: no token will be put between them. -/
def settled (c : Cursor) : List Token :=
  let bound := ((c.candidate :: c.candidates).filter c.isLive).foldr
    (fun k bound => min k.token bound) c.count
  (c.tokens.drop (c.count - bound)).reverse

end Cursor

/-! ## Steps -/

/-- Passes over characters of the same line. -/
def pass (length : Nat) : Scan Unit := modify (·.behind length)

/-- Passes over the blanks up to the end of the line, and over a comment there. -/
def passRemark : Scan Unit := do
  match Cursor.remarkLength? (← get).rest with
  | some length => modify (·.behindBlanks length)
  | none => failure

/-- Passes over blanks, line breaks and comments. -/
def skip : Scan Unit := do
  let c ← get
  match c.skip false c.rest with
  | some c => set c
  | none => failure

/-- Gives the candidate up. -/
def dropKey : Scan Unit := do
  match (← get).dropKey with
  | some c => set c
  | none => failure

/-- Adds a token. -/
def push (t : Token) : Scan Unit := modify (Cursor.push t)

end Reckoner.Yaml
