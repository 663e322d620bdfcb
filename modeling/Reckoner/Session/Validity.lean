import Reckoner.Decimal.Layout
import Reckoner.Session.Saved

/-!
# `Reckoner.Session.Validity` — what a stored session must satisfy

## Contents
- **Violations.** `Violation`: the rules, each with its wording in `message`.
- **Checks.** `Session.violation?` finds the first variable that breaks a rule and the first rule it
  breaks; `savedViolation?` does so for a saved list.
-/

namespace Reckoner

/-! ## Violations -/

/-- A rule that a session or a saved list breaks. -/
inductive Violation where
  | blankVariableId
  | blankSymbol (id : String)
  | nonFinite (id : String)
  | reversedBounds (id : String) (min max : Float)
  | repeatedVariableId (id : String)
  | blankSavedId
  | repeatedSavedId (id : String)

/-- The violation in words. -/
def Violation.reason : Violation → String
  | .blankVariableId => "variable id is empty"
  | .blankSymbol id => "variable '" ++ id ++ "' has an empty symbol"
  | .nonFinite id => "variable '" ++ id ++ "' has a non-finite number"
  | .reversedBounds id min max =>
    "variable '" ++ id ++ "' has min " ++ Decimal.Layout.plain.render min ++
      " greater than max " ++ Decimal.Layout.plain.render max
  | .repeatedVariableId id => "duplicate variable id '" ++ id ++ "'"
  | .blankSavedId => "saved session id is empty"
  | .repeatedSavedId id => "duplicate saved session id '" ++ id ++ "'"

/-- The message about a document that breaks a rule. -/
def Violation.message (v : Violation) : String := "invalid session: " ++ v.reason

/-! ## Checks -/

namespace Variable

/-- The value and the bounds that are present. -/
def numbers (v : Variable) : List Float := v.value :: v.min.toList ++ v.max.toList

/-- The first rule a variable breaks on its own. -/
def violation? (v : Variable) : Option Violation :=
  if Text.isBlankText v.id then some .blankVariableId
  else if Text.isBlankText v.symbol then some (.blankSymbol v.id)
  else if v.numbers.any (!·.isFinite) then some (.nonFinite v.id)
  else
    match v.min, v.max with
    | some lo, some hi => if hi < lo then some (.reversedBounds v.id lo hi) else none
    | _, _ => none

end Variable

/-- The first violation in a table of variables, the given ids being taken. -/
def tableViolation? (taken : List String) : List Variable → Option Violation
  | [] => none
  | v :: vs =>
    match v.violation? with
    | some violation => some violation
    | none =>
      if v.id ∈ taken then some (.repeatedVariableId v.id) else tableViolation? (v.id :: taken) vs

/-- The first rule a session breaks. -/
def Session.violation? (s : Session) : Option Violation := tableViolation? [] s.table

/-- The session breaks no rule. -/
def Session.isValid (s : Session) : Bool := s.violation?.isNone

/-- The first rule a saved session breaks on its own. -/
def SavedSession.violation? (s : SavedSession) : Option Violation :=
  if Text.isBlankText s.id then some .blankSavedId else s.session.violation?

/-- The first violation in a saved list, the given ids being taken. -/
def savedViolation? (taken : List String) : List SavedSession → Option Violation
  | [] => none
  | s :: rest =>
    match s.violation? with
    | some violation => some violation
    | none =>
      if s.id ∈ taken then some (.repeatedSavedId s.id) else savedViolation? (s.id :: taken) rest

end Reckoner
