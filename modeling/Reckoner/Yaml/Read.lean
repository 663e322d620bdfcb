import Reckoner.Yaml.Nodes
import Reckoner.Yaml.Tokens

/-!
# `Reckoner.Yaml.Read` — reading YAML documents

A text holds one document. What stands behind it is looked at only as far as it takes to see whether
another document begins there; what breaks a rule behind that place is passed over.

## Contents
- **Directives.** The lines in front of a document.
- **Further documents.** `beginsDocument`: another document follows.
- **Documents.** `Node.read?`: the single document of a text.
-/

namespace Reckoner.Yaml

/-! ## Directives -/

/-- The tokens behind directives, and the name spaces of handles; the version and each handle are
    declared once. `none` where a rule is broken. -/
def directives? (hasVersion : Bool) (spaces : List (List Char × List Char)) :
    List Token → Option (List Token × List (List Char × List Char))
  | .version :: ts => if hasVersion then none else directives? true spaces ts
  | .nameSpace handle name :: ts =>
    if (spaces.lookup handle).isSome then none
    else directives? hasVersion ((handle, name) :: spaces) ts
  | .directive :: ts => directives? hasVersion spaces ts
  | .fault :: _ => none
  | ts => some (ts, spaces)

/-- A directive is in front. -/
def opensDirective (ts : List Token) : Bool :=
  match ts with
  | .version :: _ | .nameSpace .. :: _ | .directive :: _ => true
  | _ => false

/-- A document begins with a mark or with directives here. -/
def opensExplicitly (ts : List Token) : Bool :=
  ts.head? == some .documentStart || opensDirective ts

/-- The tokens behind the directives and the mark of a document, and its name spaces. -/
def opened? (ts : List Token) : Option (List Token × List (List Char × List Char)) :=
  match directives? false [] ts with
  | some (.documentStart :: ts, spaces) => some (ts, spaces)
  | _ => none

/-- Nothing stands in a document. -/
def isBlank (ts : List Token) : Bool :=
  ts.isEmpty || ts.head? == some .documentEnd || opensExplicitly ts

/-! ## Further documents -/

/-- A node begins here. An alias begins none, as its anchor is not known any more. -/
def beginsNode (spaces : List (List Char × List Char)) (ts : List Token) : Bool :=
  match (properties.run { tokens := ts, spaces := spaces }) with
  | some (p, r) =>
    match r.tokens with
    | .fault :: _ => false
    | .scalar .. :: _ | .flowListStart :: _ | .flowMappingStart :: _ | .listStart :: _
    | .mappingStart :: _ => true
    | _ => p.anchor.isSome || p.tag.isSome
  | none => false

/-- A document begins here. Without a mark it may only begin behind the mark that ends another. -/
def beginsDocument (needsMark : Bool) (ts : List Token) : Bool :=
  let ts := ts.dropWhile (· == .documentEnd)
  if opensExplicitly ts then
    match opened? ts with
    | some (ts, spaces) => isBlank ts || beginsNode spaces ts
    | none => false
  else !needsMark && beginsNode [] ts

/-- The document may end in front of these tokens, and no other one follows. Directives need the mark
    that ends a document in front of them. -/
def endsText (ts : List Token) : Bool :=
  match ts with
  | .documentEnd :: ts => !beginsDocument false ts
  | .fault :: _ => false
  | ts => !opensDirective ts && !beginsDocument true ts

/-! ## Documents -/

/-- So many aliases are harmless, however few anchors there are. -/
def aliasAllowance : Nat := 100

/-- Aliases are not much more than anchors. -/
def isBalanced (r : Reading) : Bool := r.aliases < aliasAllowance || r.aliases ≤ 10 * r.anchors

/-- The only document of tokens. -/
def Node.ofTokens? (ts : List Token) : Option Node := do
  let ts := ts.dropWhile (· == .documentEnd)
  if ts.isEmpty then return .empty
  let (ts, spaces) ← if opensExplicitly ts then opened? ts else pure (ts, [])
  if isBlank ts then
    guard (endsText ts)
    return .empty
  else
    let (n, r) ← documentNode.run { tokens := ts, spaces := spaces }
    guard (isBalanced r && endsText r.tokens)
    return n

/-- The text with line feeds as its only line breaks. -/
def normalBreaks : List Char → List Char
  | '\r' :: '\n' :: cs => '\n' :: normalBreaks cs
  | '\r' :: cs => '\n' :: normalBreaks cs
  | c :: cs => c :: normalBreaks cs
  | [] => []

/-- The characters that count: a mark of the byte order in front does not, and a null character ends
    them. -/
def contentChars (text : String) : List Char :=
  let cs := text.toList
  let cs := if cs.head? == some '\ufeff' then cs.drop 1 else cs
  normalBreaks (cs.takeWhile (· != '\x00'))

/-- The node of a text that holds one document. -/
def Node.read? (text : String) : Option Node := Node.ofTokens? (Token.ofChars (contentChars text))

end Reckoner.Yaml
