import Reckoner.Formula.Evaluate
import Reckoner.Formula.Lexeme
import Reckoner.Formula.Parser

/-!
# `Reckoner.Formula.Basic` — formulas

## Contents
- **Compilation.** `Formula.compile`: a text as a formula, or the error that explains why not.
- **Evaluation.** `Formula.evaluate` against bindings: an unbound symbol and a result that is not
  a finite number are errors, everything about units is a diagnostic.
- **Results.** `Evaluation`, the answer shown to a user, with the check of the expected unit.
-/

namespace Reckoner

/-! ## Compilation -/

/-- A compiled formula. -/
structure Formula where
  tree : Expr

namespace Formula

/-- The distinct symbols of a formula, in order of first mention. -/
def symbols (f : Formula) : List String := f.tree.symbols

/-- Reads a formula. -/
def compile (source : String) : Except FormulaError Formula :=
  if Text.isBlankText source then .error .empty
  else do
    let tree ← parse (← tokenize source)
    return ⟨tree⟩

end Formula

/-- The diagnostics that accompany a formula which does not compile: none when nothing was
    written. -/
def FormulaError.diagnostics : FormulaError → List Diagnostic
  | .empty => []
  | e => [.invalidFormula e.message]

/-! ## Evaluation -/

/-- Why a compiled formula has no value. -/
inductive EvalError where
  | unknownSymbol (name : String)
  | nonFinite
deriving DecidableEq, Repr

/-- The error in words. -/
def EvalError.message : EvalError → String
  | .unknownSymbol name => "unknown symbol '" ++ name ++ "'"
  | .nonFinite => "result is not a finite number"

/-- A failed evaluation, with the diagnostics that explain it. -/
structure EvalFailure where
  error : EvalError
  diagnostics : List Diagnostic

/-- Evaluates a formula. Unbound symbols are reported all together, the first of them as the
    error. -/
def Formula.evaluate (f : Formula) (b : Bindings) : Except EvalFailure Measure :=
  match f.symbols.filter fun name => !b.contains name with
  | name :: names =>
    .error ⟨.unknownSymbol name, (name :: names).map .missingVariable⟩
  | [] =>
    let m := f.tree.measure b
    let remarks := Diagnostic.distinct m.remarks
    if m.value.isFinite then .ok { m with remarks := remarks } else .error ⟨.nonFinite, remarks⟩

/-! ## Results -/

/-- The answer to an evaluation: a value and a unit label, or an error. -/
structure Evaluation where
  value : Option Float
  unit : String
  warnings : List Diagnostic
  error : Option String

/-- The answer when there is no value. -/
def Evaluation.failure (error : String) (warnings : List Diagnostic) : Evaluation :=
  ⟨none, "", warnings, some error⟩

/-- The remark on a computed unit that is not the expected one. A blank expectation is met by every
    unit. -/
def unexpectedUnit? (expected : String) (actual : CompoundUnit) : Option Diagnostic :=
  let expected := Text.trim expected
  if expected == "" || (CompoundUnit.parse expected).sameAs actual then none
  else some (.unitMismatch expected actual.display)

/-- Evaluates a formula and compares its unit with the expected one, if there is one. -/
def Formula.answer (f : Formula) (b : Bindings) (expected : Option String) : Evaluation :=
  match f.evaluate b with
  | .error failure => .failure failure.error.message failure.diagnostics
  | .ok m =>
    let mismatch := (expected.bind fun e => unexpectedUnit? e m.unit).toList
    ⟨some m.value, m.unit.label, m.remarks ++ mismatch, none⟩

/-- Compiles and evaluates in one go. -/
def evaluate (source : String) (table : List Variable) (expected : Option String) :
    Evaluation :=
  match Formula.compile source with
  | .ok f => f.answer (.ofVariables table) expected
  | .error e => .failure e.message e.diagnostics

/-- The value of a session's formula, compared with the session's expected unit. -/
def Session.evaluate (s : Session) : Evaluation :=
  Reckoner.evaluate s.formula s.table s.expectation?

end Reckoner
