/-!
# `Reckoner.Yaml.Token` — the pieces of a YAML text

A text is a sequence of tokens. Blocks have no brackets of their own: their indentation has become
tokens, too. A text that breaks a rule ends in a `fault`.

## Contents
- **Characters.** Blanks, breaks and the marks of flow collections.
- **Tokens.** `Token`, and `Spelling` for how a scalar is written.
-/

namespace Reckoner.Yaml

/-! ## Characters -/

/-- A space or a tab. -/
def isSpace (c : Char) : Bool := c == ' ' || c == '\t'

/-- The text ends, or a blank or line break stands in front. -/
def opensBlank (cs : List Char) : Bool :=
  match cs with
  | [] => true
  | c :: _ => isSpace c || c == '\n'

/-- The text ends, or a line break stands in front. -/
def opensBreak (cs : List Char) : Bool :=
  match cs with
  | [] => true
  | c :: _ => c == '\n'

/-- The brackets and commas of flow collections. -/
def isFlowMark (c : Char) : Bool := ",[]\x7b\x7d".toList.contains c

/-- A mark of a flow collection stands in front. -/
def opensFlowMark (cs : List Char) : Bool := (cs.head?.map isFlowMark).getD false

/-- Three equal characters that mark a boundary of documents. -/
def opensBoundary (mark : Char) (cs : List Char) : Bool :=
  cs.take 3 == [mark, mark, mark] && opensBlank (cs.drop 3)

/-- A boundary of documents of either kind. -/
def opensAnyBoundary (cs : List Char) : Bool := opensBoundary '-' cs || opensBoundary '.' cs

/-! ## Tokens -/

/-- How a scalar is written. -/
inductive Spelling where
  | plain
  | quoted
  | block
deriving DecidableEq, Repr

/-- A piece of a text. -/
inductive Token where
  | documentStart
  | documentEnd
  /-- The directive that names a version. -/
  | version
  /-- The directive that makes a handle stand for a name space. -/
  | nameSpace (handle name : List Char)
  /-- Any other directive. -/
  | directive
  | listStart
  | mappingStart
  /-- The indentation of a list or a mapping ends. -/
  | blockEnd
  | flowListStart
  | flowListEnd
  | flowMappingStart
  | flowMappingEnd
  | comma
  /-- A dash in front of an item. -/
  | item
  | key
  | value
  | anchor (name : List Char)
  | alias (name : List Char)
  | tag (handle name : List Char)
  | scalar (spelling : Spelling) (text : List Char)
  /-- A rule is broken here. -/
  | fault
deriving DecidableEq, Repr

end Reckoner.Yaml
