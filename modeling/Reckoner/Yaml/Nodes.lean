import Reckoner.Yaml.Node

/-!
# `Reckoner.Yaml.Nodes` — nodes from tokens

Nodes are read by descent. An anchor stands for its node from the end of that node on; where its
alias stands, the node counts as written out once more.

## Contents
- **Readings.** `Reading`: the tokens that are left, and the anchors so far.
- **Properties.** Anchors, tags and aliases.
- **Flow collections.** Lists and mappings in brackets.
- **Block collections.** Lists and mappings by indentation.
- **Nodes.** `nodeWithin`: any node, and `documentNode` for that of a document.
-/

namespace Reckoner.Yaml

/-! ## Readings -/

/-- The node of an anchor. -/
structure Anchored where
  node : Node
  /-- The number of scalars and of ends of collections in it. -/
  size : Nat

/-- What is left of a document, and what its beginning has said. -/
structure Reading where
  tokens : List Token
  /-- The name spaces that handles stand for. -/
  spaces : List (List Char × List Char) := []
  /-- The number of anchors so far. -/
  anchors : Nat := 0
  /-- The numbers of anchors by their names, the latest first. -/
  names : List (List Char × Nat) := []
  /-- The nodes of anchors that have ended. -/
  nodes : List (Nat × Anchored) := []
  /-- The size of what was read so far. -/
  size : Nat := 0
  /-- The number of aliases so far. -/
  aliases : Nat := 0
  /-- The size of what aliases stand for so far. -/
  repeated : Nat := 0

/-- A step that reads on or fails. -/
abbrev Build := StateT Reading Option

/-- The token in front, if there is one; a fault is none. -/
def front : Build (Option Token) := do
  match (← get).tokens with
  | .fault :: _ => failure
  | tokens => return tokens.head?

/-- One of the tokens is in front. -/
def sees (tokens : List Token) : Build Bool := do
  return (← front).any tokens.contains

/-- Passes over the token in front. -/
def drop : Build Unit := modify fun r => { r with tokens := r.tokens.drop 1 }

/-- Passes over a token, if it is in front; whether it was is returned. -/
def accepts (t : Token) : Build Bool := do
  let isThere ← sees [t]
  if isThere then drop
  return isThere

/-- Adds to the size of what was read. -/
def grow (size : Nat) : Build Unit := modify fun r => { r with size := r.size + size }

/-- Nothing is written here. -/
def nothing : Build Node := do
  grow 1
  return .empty

/-- The number of steps that a loop may take. -/
def bound : Build Nat := return (← get).tokens.length + 1

/-! ## Properties -/

/-- The largest size that aliases may stand for. -/
def repeatLimit : Nat := 1000000

/-- The node of an alias. -/
def aliased (name : List Char) : Build Node := do
  let r ← get
  match (r.names.lookup name).bind fun number => r.nodes.lookup number with
  | some a => do
    let repeated := r.repeated + a.size
    guard (repeated ≤ repeatLimit)
    set { r with
      size := r.size + a.size, aliases := r.aliases + 1, repeated := repeated }
    return a.node
  | none => failure

/-- The name space of a handle: two exclamation marks stand for the core schema. Other handles of
    two marks have to be declared. -/
def space? (spaces : List (List Char × List Char)) (handle : List Char) : Option (List Char) :=
  match spaces.lookup handle with
  | some name => some name
  | none =>
    if handle == ['!', '!'] then some coreSpace
    else if 2 ≤ handle.length && handle.head? == some '!' && handle.getLast? == some '!' then none
    else some handle

/-- The tag of a handle and a name. -/
def tagOf (handle name : List Char) : Build Tag := do
  match space? (← get).spaces handle with
  | some space => return .ofName (space ++ name)
  | none => failure

/-- A tag, if one is in front. -/
def tag? : Build (Option Tag) := do
  match ← front with
  | some (.tag handle name) => do
    drop
    return some (← tagOf handle name)
  | _ => return none

/-- The number of an anchor, if one is in front. -/
def anchor? : Build (Option Nat) := do
  match ← front with
  | some (.anchor name) => do
    drop
    let r ← get
    set { r with anchors := r.anchors + 1, names := (name, r.anchors) :: r.names }
    return some r.anchors
  | _ => return none

/-- What may stand in front of a node. -/
structure Properties where
  anchor : Option Nat
  tag : Option Tag

/-- An anchor and a tag, in any order. -/
def properties : Build Properties := do
  match ← anchor? with
  | some number => return ⟨some number, ← tag?⟩
  | none => do
    match ← tag? with
    | some tag => return ⟨← anchor?, some tag⟩
    | none => return ⟨none, none⟩

/-- A node behind its properties, its anchor included from its end on. -/
def Properties.attach (p : Properties) (read : Build Node) : Build Node := do
  let start := (← get).size
  let n ← read
  if let some number := p.anchor then
    modify fun r => { r with nodes := (number, ⟨n, r.size - start⟩) :: r.nodes }
  return n

/-- A scalar behind its properties. Behind an anchor, quotes around nothing are nothing. -/
def Properties.scalar (p : Properties) (spelling : Spelling) (text : List Char) : Build Node := do
  grow 1
  let isNothing := p.anchor.isSome && spelling = .quoted && text.isEmpty
  return .scalar (if isNothing then .plain else spelling) (p.tag.getD .untagged) text

/-! ## Flow collections -/

/-- Where a node stands. -/
inductive Place where
  /-- An item of a block, or a document. -/
  | block
  /-- The key or the value of an entry of a block; the dashes of a list may have its column. -/
  | entry
  /-- Inside brackets. -/
  | flow
deriving DecidableEq

variable (node : Place → Build Node)

/-- A node, or nothing if one of the tokens is in front. -/
def nodeUnless (ends : List Token) (place : Place) : Build Node := do
  if ← sees ends then nothing else node place

/-- The value of an entry, if there is a colon. -/
def valueUnless (ends : List Token) (place : Place) : Build Node := do
  if ← accepts .value then nodeUnless node ends place else nothing

/-- An item of a list. It may be a mapping of one entry behind a key mark; where the mark has no key
    behind it, the next token is passed over. -/
def flowItem : Build Node := do
  if ← accepts .key then
    grow 2
    let isMissing ← sees [.value, .comma, .flowListEnd]
    if isMissing then drop
    let key ← if isMissing then nothing else node .flow
    return .mapping [(key, ← valueUnless node [.comma, .flowListEnd] .flow)]
  else node .flow

/-- The items of a list up to its bracket. -/
def flowItems : Nat → List Node → Build Node
  | 0, _ => failure
  | fuel + 1, items => do
    if !items.isEmpty && !(← sees [.flowListEnd]) then guard (← accepts .comma)
    if ← accepts .flowListEnd then return .list items.reverse
    else flowItems fuel ((← flowItem node) :: items)

/-- An entry of a mapping. -/
def flowEntry : Build (Node × Node) := do
  let ends : List Token := [.comma, .flowMappingEnd]
  if ← accepts .key then
    let key ← nodeUnless node (.value :: ends) .flow
    return (key, ← valueUnless node ends .flow)
  else if ← sees [.value] then
    let key ← nothing
    return (key, ← valueUnless node ends .flow)
  else
    let key ← node .flow
    return (key, ← nothing)

/-- The entries of a mapping up to its brace. -/
def flowEntries : Nat → List (Node × Node) → Build Node
  | 0, _ => failure
  | fuel + 1, entries => do
    if !entries.isEmpty && !(← sees [.flowMappingEnd]) then guard (← accepts .comma)
    if ← accepts .flowMappingEnd then return .mapping entries.reverse
    else flowEntries fuel ((← flowEntry node) :: entries)

/-! ## Block collections -/

/-- The items of a list up to the end of its indentation. -/
def blockItems : Nat → List Node → Build Node
  | 0, _ => failure
  | fuel + 1, items => do
    if ← accepts .blockEnd then return .list items.reverse
    else
      guard (← accepts .item)
      blockItems fuel ((← nodeUnless node [.item, .blockEnd] .block) :: items)

/-- The items of a list whose dashes have the column of the key it belongs to. -/
def entryItems : Nat → List Node → Build Node
  | 0, _ => failure
  | fuel + 1, items => do
    if ← accepts .item then
      let ends : List Token := [.item, .key, .value, .blockEnd]
      entryItems fuel ((← nodeUnless node ends .block) :: items)
    else return .list items.reverse

/-- An entry of a mapping. -/
def blockEntry : Build (Node × Node) := do
  let ends : List Token := [.key, .value, .blockEnd]
  if ← accepts .key then
    let key ← nodeUnless node ends .entry
    return (key, ← valueUnless node ends .entry)
  else
    guard (← sees [.value])
    let key ← nothing
    return (key, ← valueUnless node ends .entry)

/-- The entries of a mapping up to the end of its indentation. -/
def blockEntries : Nat → List (Node × Node) → Build Node
  | 0, _ => failure
  | fuel + 1, entries => do
    if ← accepts .blockEnd then return .mapping entries.reverse
    else blockEntries fuel ((← blockEntry node) :: entries)

/-! ## Nodes -/

/-- A collection, of which the first token is in front. -/
def collection (read : Nat → Build Node) : Build Node := do
  drop
  grow 2
  read (← bound)

/-- What stands behind properties: nothing may, if there are any. -/
def bare (p : Properties) (place : Place) : Build Node := do
  match ← front, place with
  | some (.scalar spelling text), _ => do
    drop
    p.scalar spelling text
  | some .flowListStart, _ => collection fun fuel => flowItems node fuel []
  | some .flowMappingStart, _ => collection fun fuel => flowEntries node fuel []
  | some .listStart, .block | some .listStart, .entry =>
    collection fun fuel => blockItems node fuel []
  | some .mappingStart, .block | some .mappingStart, .entry =>
    collection fun fuel => blockEntries node fuel []
  | some .item, .entry => do
    grow 2
    entryItems node (← bound) []
  | _, _ => do
    guard (p.anchor.isSome || p.tag.isSome)
    p.scalar .plain []

/-- How many collections may stand inside each other. -/
def depthLimit : Nat := 2000

/-- A node inside fewer collections than the given number. -/
def nodeWithin : Nat → Place → Build Node
  | 0, _ => failure
  | fuel + 1, place => do
    match ← front with
    | some (.alias name) => do
      drop
      aliased name
    | _ => do
      let p ← properties
      p.attach (bare (nodeWithin fuel) p place)

/-- The node of a document. -/
def documentNode : Build Node := nodeWithin (depthLimit + 1) .block

end Reckoner.Yaml
