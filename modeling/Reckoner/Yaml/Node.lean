import Reckoner.Document.Format
import Reckoner.Text.Base64
import Reckoner.Text.Blank
import Reckoner.Yaml.Number
import Reckoner.Yaml.Token

/-!
# `Reckoner.Yaml.Node` — YAML values and their decoding

A scalar has no type of its own: whoever decodes it says what it should be, and a tag may object.
Only a plain scalar can stand for nothing.

## Contents
- **Nodes.** `Tag` and `Node`.
- **Fields.** The entries of a mapping: its keys are distinct, and those of merged mappings are added
  where their keys are new.
- **Scalars.** Texts, numbers, choices and nothing.
- **Records.** Decoding of lists and records, and the instance of `Format`.
-/

namespace Reckoner.Yaml

open Document (Decoded Format Shape)

/-! ## Nodes -/

/-- What a tag says about a scalar. -/
inductive Tag where
  /-- There is no tag. -/
  | untagged
  | string
  | nothing
  /-- A type of the core schema that is no text. -/
  | typed
  /-- Bytes in base 64. -/
  | binary
  /-- A type of another schema. Only a simple name is kept. -/
  | other (name : List Char)
deriving DecidableEq, Repr

/-- The name space of the core schema. -/
def coreSpace : List Char := "tag:yaml.org,2002:".toList

/-- A name without the core schema's name space or exclamation marks in front of it. -/
def shortName (full : List Char) : List Char :=
  if coreSpace.isPrefixOf full then full.drop coreSpace.length else full.dropWhile (· == '!')

/-- The tag of a name in full. -/
def Tag.ofName (full : List Char) : Tag :=
  let name := shortName full
  match String.ofList name with
  | "str" => .string
  | "null" => .nothing
  | "int" | "float" | "bool" | "seq" | "map" => .typed
  | "binary" => .binary
  | _ => .other (if name.contains ':' || name.contains '!' then [] else name)

/-- Two tags are the same; those of other schemas are not told apart. -/
def Tag.isSame : Tag → Tag → Bool
  | .other _, .other _ => true
  | tag₁, tag₂ => tag₁ == tag₂

/-- The tag does not name another type than the given one. -/
def Tag.admits (type : String) : Tag → Bool
  | .other name => name.isEmpty || String.ofList name == type
  | _ => true

/-- A value. -/
inductive Node where
  | scalar (spelling : Spelling) (tag : Tag) (text : List Char)
  | list (items : List Node)
  | mapping (entries : List (Node × Node))

namespace Node

/-- The node where nothing is written. -/
def empty : Node := .scalar .plain .untagged ['~']

mutual

/-- The number of collections that stand inside each other. -/
def depth : Node → Nat
  | .scalar .. => 0
  | .list items => depthOfItems items + 1
  | .mapping entries => depthOfEntries entries + 1

/-- The greatest depth of items. -/
def depthOfItems : List Node → Nat
  | [] => 0
  | n :: ns => max n.depth (depthOfItems ns)

/-- The greatest depth of keys and values. -/
def depthOfEntries : List (Node × Node) → Nat
  | [] => 0
  | (key, value) :: rest => max (max key.depth value.depth) (depthOfEntries rest)

end

/-! ## Fields -/

mutual

/-- Two keys are the same: the spelling of their scalars does not matter. -/
def isSame : Node → Node → Bool
  | .scalar _ tag₁ text₁, .scalar _ tag₂ text₂ => tag₁.isSame tag₂ && text₁ == text₂
  | .list items₁, .list items₂ => areSame items₁ items₂
  | .mapping entries₁, .mapping entries₂ => areSameEntries entries₁ entries₂
  | _, _ => false

/-- Items are the same, one by one. -/
def areSame : List Node → List Node → Bool
  | [], [] => true
  | n₁ :: ns₁, n₂ :: ns₂ => n₁.isSame n₂ && areSame ns₁ ns₂
  | _, _ => false

/-- Entries are the same, one by one. -/
def areSameEntries : List (Node × Node) → List (Node × Node) → Bool
  | [], [] => true
  | (key₁, value₁) :: rest₁, (key₂, value₂) :: rest₂ =>
    key₁.isSame key₂ && value₁.isSame value₂ && areSameEntries rest₁ rest₂
  | _, _ => false

end

/-- A key occurs among entries. -/
def isKeyOf (key : Node) (entries : List (Node × Node)) : Bool := entries.any (·.1.isSame key)

/-- No key occurs twice. -/
def areDistinct : List (Node × Node) → Bool
  | [] => true
  | (key, _) :: rest => !key.isKeyOf rest && areDistinct rest

/-- Entries followed by those of other mappings whose keys are new. -/
def addMissing (entries others : List (Node × Node)) : List (Node × Node) :=
  others.foldl (fun known e => if e.1.isKeyOf known then known else known ++ [e]) entries

/-- The text of a plain scalar that stands for nothing. -/
def isNullText (text : List Char) : Bool :=
  text.isEmpty || text == ['~'] || text.map Char.toLower == ['n', 'u', 'l', 'l']

/-- The scalar is a word for nothing. -/
def isNull : Node → Bool
  | .scalar .plain _ text => isNullText text
  | _ => false

/-- The key that merges other mappings in. -/
def isMergeKey : Node → Bool
  | .scalar .plain .untagged text => text == ['<', '<']
  | _ => false

/-- The entries of a mapping that merge nothing. -/
def written (entries : List (Node × Node)) : List (Node × Node) :=
  entries.filter (!·.1.isMergeKey)

mutual

/-- The entries that a merged value stands for: those of mappings, of which later ones win. Of
    several entries with one key the first counts. -/
def merged? : Node → Option (List (Node × Node))
  | .mapping entries => (mergedEntries? entries).map (written entries ++ ·)
  | .list items => mergedItems? items
  | n => if n.isNull then some [] else none

/-- The entries that items stand for, those of later items first. -/
def mergedItems? : List Node → Option (List (Node × Node))
  | [] => some []
  | n :: ns => do return (← mergedItems? ns) ++ (← n.merged?)

/-- The entries that the merge keys of a mapping stand for, those of later ones first. -/
def mergedEntries? : List (Node × Node) → Option (List (Node × Node))
  | [] => some []
  | (key, value) :: rest => do
    let later ← mergedEntries? rest
    if key.isMergeKey then return later ++ (← value.merged?) else return later

end

/-- The fields of a mapping: merged ones give way to those written out, of which no key may occur
    twice. -/
def fields? (entries : List (Node × Node)) : Option (List (Node × Node)) :=
  if areDistinct (written entries) then (mergedEntries? entries).map (addMissing (written entries))
  else none

/-! ## Scalars -/

/-- A value that may be absent is absent. -/
def isAbsent : Node → Bool
  | .scalar _ .nothing _ => true
  | .scalar .plain _ text => isNullText text
  | .scalar .block _ text => text.isEmpty
  | _ => false

/-- A text, unless it is a word for nothing or has a tag of another type. -/
def asString (n : Node) : Decoded String :=
  match n with
  | .scalar _ .string text => .ok (String.ofList text)
  | .scalar _ .untagged text | .scalar _ (.other _) text =>
    if n.isNull then .error .mismatched else .ok (String.ofList text)
  | .scalar _ .binary text =>
    match Text.base64Text? text with
    | some text => if n.isNull then .error .mismatched else .ok text
    | none => .error .mismatched
  | _ => .error .mismatched

/-- A number. -/
def asFloat : Node → Decoded Float
  | .scalar _ _ text =>
    match float? (Text.trimChars text) with
    | some x => .ok x
    | none => .error .mismatched
  | _ => .error .mismatched

/-- A whole number of 64 bits. -/
def asWord : Node → Decoded UInt64
  | .scalar _ _ text =>
    match whole? (Text.trimChars text) with
    | some n => if n < UInt64.size then .ok (UInt64.ofNat n) else .error .mismatched
    | none => .error .mismatched
  | _ => .error .mismatched

/-- A value that may be absent. -/
def asOption {α : Type} (decode : Node → Decoded α) (n : Node) : Decoded (Option α) :=
  if n.isAbsent then .ok none else (decode n).map some

/-- One of the names of a type: a scalar, or a mapping of that one key to nothing. -/
def asChoice {α : Type} (type : String) (ofName? : String → Option α) (n : Node) : Decoded α :=
  let chosen (text : List Char) : Decoded α :=
    match ofName? (String.ofList text) with
    | some a => .ok a
    | none => .error .mismatched
  match n with
  | .scalar _ tag text => if tag.admits type then chosen text else .error .mismatched
  | .mapping [(.scalar _ _ text, content)] =>
    if content.isNull then chosen text else .error .mismatched
  | _ => .error .mismatched

/-! ## Records -/

/-- A scalar that nobody asked for is a value all the same. -/
def isReadableScalar (spelling : Spelling) (tag : Tag) (text : List Char) : Bool :=
  match tag with
  | .typed => false
  | .binary => spelling == .plain || (Text.base64Text? text).isSome
  | _ => true

/-- A node of the given depth at most that nobody asked for is a value all the same. -/
def isReadableWithin : Nat → Node → Bool
  | _, .scalar spelling tag text => isReadableScalar spelling tag text
  | 0, _ => false
  | depth + 1, .list items => items.all (isReadableWithin depth)
  | depth + 1, .mapping entries =>
    match fields? entries with
    | some fields => fields.all fun e => isReadableWithin depth e.1 && isReadableWithin depth e.2
    | none => false

/-- A node that nobody asked for is a value all the same. -/
def isReadable (n : Node) : Bool := isReadableWithin n.depth n

/-- A list; nothing is a list without items. -/
def asList {α : Type} (decode : Node → Decoded α) (n : Node) : Decoded (List α) :=
  match n with
  | .list items => items.mapM decode
  | .scalar _ .nothing _ => .ok []
  | _ => if n.isNull then .ok [] else .error .mismatched

/-- Reads fields. Those of other names are passed over. -/
def fromFields {ρ α : Type} (shape : Shape Node ρ α) (ρ₀ : ρ) : List (Node × Node) → Decoded ρ
  | [] => .ok ρ₀
  | (key, value) :: rest => do
    let name ← key.asString
    if name ∈ shape.fields then
      if shape.has ρ₀ name then .error .mismatched
      else do
        let ρ₁ ← shape.set ρ₀ name value
        fromFields shape ρ₁ rest
    else if value.isReadable then fromFields shape ρ₀ rest
    else .error .mismatched

/-- A record; nothing is a record whose fields are all missing. -/
def asRecord {ρ α : Type} (shape : Shape Node ρ α) (n : Node) : Decoded α :=
  match n with
  | .mapping entries =>
    match fields? entries with
    | some fields => do
      let ρ₁ ← fromFields shape shape.start fields
      shape.close ρ₁
    | none => .error .mismatched
  | .scalar _ .nothing _ => shape.close shape.start
  | _ => if n.isNull then shape.close shape.start else .error .mismatched

instance : Format Node := ⟨asString, asFloat, asWord, asOption, asList, asChoice, asRecord⟩

end Node

end Reckoner.Yaml
