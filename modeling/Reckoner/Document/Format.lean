/-!
# `Reckoner.Document.Format` — decoding records from documents

A document format has its own spelling of texts, numbers, lists and records. What a record consists
of is described once, by a `Shape`, and decoded from every `Format`.

## Contents
- **Faults.** `Fault`: what may be wrong with a document, and `Decoded` for what a decoder returns.
- **Shapes.** `Shape`: how a record is put together, field by field.
- **Formats.** `Format`: the decoders that a document format provides.
-/

namespace Reckoner.Document

/-! ## Faults -/

/-- What is wrong with a document. -/
inductive Fault where
  /-- It ends too early. -/
  | truncated
  /-- It breaks the rules of its format. -/
  | malformed
  /-- It has another shape than the one asked for. -/
  | mismatched
deriving DecidableEq, Repr

/-- What a decoder returns. -/
abbrev Decoded := Except Fault

/-! ## Shapes -/

/-- How a record `α` is read from values `δ`: a partial record `ρ` collects the fields, `set`
    decodes one of them, and `has` tells whether it is there already. -/
structure Shape (δ ρ α : Type) where
  /-- The names of the fields, in order. -/
  fields : List String
  start : ρ
  has : ρ → String → Bool
  set : ρ → String → δ → Decoded ρ
  /-- The record, if no required field is missing. -/
  finish : ρ → Option α

/-- The record, or the fault of a missing field. -/
def Shape.close {δ ρ α : Type} (shape : Shape δ ρ α) (ρ₁ : ρ) : Decoded α :=
  match shape.finish ρ₁ with
  | some a => .ok a
  | none => .error .mismatched

/-! ## Formats -/

/-- The decoders of a document format with values `δ`. -/
class Format (δ : Type) where
  asString : δ → Decoded String
  asFloat : δ → Decoded Float
  /-- A whole number of 64 bits. -/
  asWord : δ → Decoded UInt64
  /-- A value that may be absent. -/
  asOption {α : Type} : (δ → Decoded α) → δ → Decoded (Option α)
  asList {α : Type} : (δ → Decoded α) → δ → Decoded (List α)
  /-- One of the names of a type, which is named as well. -/
  asChoice {α : Type} : String → (String → Option α) → δ → Decoded α
  asRecord {ρ α : Type} : Shape δ ρ α → δ → Decoded α

end Reckoner.Document
