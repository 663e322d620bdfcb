import Reckoner.Json.Draft

/-!
# `Reckoner.Json.Decode` — typed values from drafts

Decoders walk a draft in the order of the text. The first fault they meet is the answer: a value of
the wrong shape (`mismatched`), or the cut where the text stopped being JSON.

## Contents
- **Leaves.** `Draft.asString`, `asFloat`, `asWord`, `asOption`.
- **Skipping.** `Draft.skip`: a value nobody asked for must still be JSON.
- **Lists.** `Draft.asList`.
- **Choices.** `Draft.asChoice` reads one of several names.
- **Records.** `Draft.asRecord` reads the fields of a record from an object, or from an array that
  lists them in order.
-/

namespace Reckoner.Json

open Document (Decoded Fault Format Shape)

/-! ## Leaves -/

/-- A number as a double; a literal beyond the largest double is no number. -/
def literalFloat (literal : List Char) : Decoded Float :=
  let negative := literal.head? == some '-'
  let digits := if negative then literal.drop 1 else literal
  let x := Decimal.toFloat negative (Decimal.ofLiteral digits)
  if x.isFinite then .ok x else .error .malformed

/-- The fault of a value that has another shape than the one asked for. A leaf is read before it is
    refused, a list or an object is not. -/
def Draft.refuse : Draft → Fault
  | .number literal =>
    match literalFloat literal with
    | .ok _ => .mismatched
    | .error e => e
  | .string none => .malformed
  | .cut e => e.wanted
  | _ => .mismatched

/-- A string. -/
def Draft.asString : Draft → Decoded String
  | .string (some text) => .ok text
  | d => .error d.refuse

/-- A number. -/
def Draft.asFloat : Draft → Decoded Float
  | .number literal => literalFloat literal
  | d => .error d.refuse

/-- A whole number of 64 bits, written with digits only. -/
def Draft.asWord : Draft → Decoded UInt64
  | .number literal =>
    let n := Decimal.natOfDigits literal
    if literal.all Char.isDigit && n < UInt64.size then .ok (UInt64.ofNat n)
    else .error (Draft.number literal).refuse
  | d => .error d.refuse

/-- A value that may be null. -/
def Draft.asOption {α : Type} (decode : Draft → Decoded α) : Draft → Decoded (Option α)
  | .null => .ok none
  | d => (decode d).map some

/-! ## Skipping -/

/-- The fault of a list or object that is not closed, when it is wanted. -/
def closing (ending : Option Cut) : Decoded Unit :=
  match ending with
  | none => .ok ()
  | some e => .error e.wanted

mutual

/-- Passes over a value; only a cut inside it is a fault. -/
def Draft.skip : Draft → Decoded Unit
  | .array list ending => do
    skipItems list
    match ending with
    | none => return ()
    | some e => throw e.skipped
  | .object list ending => do
    skipMembers list
    match ending with
    | none => return ()
    | some e => throw e.skipped
  | .cut e => throw e.skipped
  | _ => return ()

/-- Passes over items. -/
def skipItems : List Draft → Decoded Unit
  | [] => return ()
  | d :: ds => do
    d.skip
    skipItems ds

/-- Passes over members. -/
def skipMembers : List (Option String × Draft) → Decoded Unit
  | [] => return ()
  | (_, d) :: ds => do
    d.skip
    skipMembers ds

end

/-! ## Lists -/

/-- A list. -/
def Draft.asList {α : Type} (decode : Draft → Decoded α) : Draft → Decoded (List α)
  | .array list ending => do
    let values ← list.mapM decode
    closing ending
    return values
  | d => .error d.refuse

/-! ## Choices -/

/-- One of several names: a string, or an object with that one member and no content. The name of
    their type is not written. -/
def Draft.asChoice {α : Type} (_ : String) (ofName? : String → Option α) : Draft → Decoded α
  | .string text => do
    match ofName? (← (Draft.string text).asString) with
    | some a => return a
    | none => throw .mismatched
  | .object [] (some e) => throw e.wanted
  | .object [] none => throw .malformed
  | .object ((none, _) :: _) _ => throw .malformed
  | .object ((some name, content) :: more) ending =>
    match ofName? name with
    | none => throw .mismatched
    | some a =>
      match content with
      | .null =>
        if !more.isEmpty then throw .malformed
        else
          match ending with
          | none => return a
          | some e => throw e.wanted
      | other => throw other.refuse
  | .cut e => throw e.wanted
  | _ => throw .malformed

/-! ## Records -/

/-- Reads the members of an object. Fields of other names are passed over. -/
def fromMembers {ρ α : Type} (shape : Shape Draft ρ α) (ρ₀ : ρ) :
    List (Option String × Draft) → Decoded ρ
  | [] => .ok ρ₀
  | (none, _) :: _ => .error .malformed
  | (some name, d) :: rest =>
    if name ∈ shape.fields then
      if shape.has ρ₀ name then .error .mismatched
      else do
        let ρ₁ ← shape.set ρ₀ name d
        fromMembers shape ρ₁ rest
    else do
      d.skip
      fromMembers shape ρ₀ rest

/-- Reads the items of a list as the fields in their order, and returns how many items are left. -/
def fromItems {ρ α : Type} (shape : Shape Draft ρ α) (ρ₀ : ρ) :
    List String → List Draft → Decoded (ρ × Nat)
  | _, [] => .ok (ρ₀, 0)
  | [], rest => .ok (ρ₀, rest.length)
  | name :: names, d :: rest => do
    let ρ₁ ← shape.set ρ₀ name d
    fromItems shape ρ₁ names rest

/-- Reads a record from an object or from a list of its fields. -/
def Draft.asRecord {ρ α : Type} (shape : Shape Draft ρ α) : Draft → Decoded α
  | .object list ending => do
    let ρ₁ ← fromMembers shape shape.start list
    closing ending
    shape.close ρ₁
  | .array list ending => do
    let (ρ₁, left) ← fromItems shape shape.start shape.fields list
    if 0 < left then throw .malformed
    closing ending
    shape.close ρ₁
  | d => .error d.refuse

instance : Format Draft where
  asString := Draft.asString
  asFloat := Draft.asFloat
  asWord := Draft.asWord
  asOption := Draft.asOption
  asList := Draft.asList
  asChoice := Draft.asChoice
  asRecord := Draft.asRecord

/-- The value of a whole text. -/
def decode {α : Type} (decoder : Draft → Decoded α) (text : String) : Decoded α :=
  let (draft, more) := Draft.read text
  match decoder draft with
  | .error e => .error e
  | .ok a => if more then .error .malformed else .ok a

end Reckoner.Json
