import Reckoner.Formula.Basic

/-!
# `Reckoner.Sweep` — a formula along the range of one variable

Every variable keeps its value except the swept one, which moves in even steps from its lower to its
upper bound. The formula is compiled once, and one set of bindings is overwritten from step to step.

## Contents
- **Positions.** `positions`: the values of the swept variable.
- **Series.** `Sweep.run`, and the failures of a variable that cannot be swept.
-/

namespace Reckoner.Sweep

/-! ## Positions -/

/-- Evenly spaced values from the first bound to the second, which is met exactly. -/
def positions (lower upper : Float) (count : Nat) : List Float :=
  if count ≤ 1 then [lower]
  else
    let step := (upper - lower) / Float.ofNat (count - 1)
    (List.range (count - 1)).map (fun i => lower + step * Float.ofNat i) ++ [upper]

/-! ## Series -/

/-- A position and the value of the formula there, if it has one. -/
structure Point where
  x : Float
  y : Option Float

/-- The answer to a sweep. -/
structure Series where
  points : List Point
  xUnit : String
  yUnit : String
  warnings : List Diagnostic
  error : Option String

/-- The error of a sweep without a usable range. -/
def rangeMissing : String := "range missing"

/-- The answer when nothing could be swept. -/
def Series.failure (error : String) (warnings : List Diagnostic) : Series :=
  ⟨[], "", "", warnings, some error⟩

/-- The remark that a variable's symbol belongs to an earlier variable. -/
def shadowed (table : List Variable) (target : Variable) : Diagnostic :=
  let owner := match table.find? fun v => v.key == target.key with
    | some v => v.id
    | none => target.key
  .invalidFormula
    ("symbol '" ++ target.key ++ "' of '" ++ target.id ++ "' is shadowed by '" ++ owner ++ "'")

/-- The evaluations of a formula at the positions of one variable. Every position overwrites the one
    before it in the bindings. -/
def evaluations (f : Formula) (target : Variable) (expected : Option String) :
    Bindings → List Float → List (Float × Evaluation)
  | _, [] => []
  | b, x :: xs =>
    let b := b.assign target x
    (x, f.answer b expected) :: evaluations f target expected b xs

/-- Collects evaluations into a series. The unit is that of the first value. -/
def collect (xUnit : String) (evaluated : List (Float × Evaluation)) : Series where
  points := evaluated.map fun (x, e) => ⟨x, e.value⟩
  xUnit := xUnit
  yUnit := ((evaluated.find? fun (_, e) => e.error.isNone).map (·.2.unit)).getD ""
  warnings := evaluated.foldl (fun known (_, e) => Diagnostic.merge known e.warnings) []
  error := none

/-- Sweeps the variable with the given id, or the one the session names. -/
def run (s : Session) (id : Option String) : Series :=
  match (id <|> s.sweep.variableId).bind s.findVariable? with
  | none => .failure rangeMissing []
  | some target =>
    match target.range? with
    | none => .failure rangeMissing []
    | some (lower, upper) =>
      let xs := positions lower upper s.sweep.pointCount
      match Formula.compile s.formula with
      | .error e =>
        ⟨xs.map (⟨·, none⟩), target.unit, "", e.diagnostics, some e.message⟩
      | .ok f =>
        match (Bindings.ofVariables s.table).setValue? target lower with
        | none => .failure rangeMissing [shadowed s.table target]
        | some b => collect target.unit (evaluations f target s.expectation? b xs)

end Reckoner.Sweep
