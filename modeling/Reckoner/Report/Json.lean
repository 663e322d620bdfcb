import Reckoner.Json.Basic
import Reckoner.Session.Document
import Reckoner.Simulation.Basic
import Reckoner.Sweep

/-!
# `Reckoner.Report.Json` — answers as JSON

Every answer is an object with its members in a fixed order; an absent error is left out, an absent
number is null.
-/

namespace Reckoner

/-- A diagnostic, tagged with its kind. -/
def Diagnostic.toJson : Diagnostic → Json
  | .unitMismatch expected actual =>
    .object [("type", .string "unit-mismatch"), ("expected", .string expected),
      ("actual", .string actual)]
  | .missingVariable symbol =>
    .object [("type", .string "missing-variable"), ("symbol", .string symbol)]
  | .invalidFormula message =>
    .object [("type", .string "invalid-formula"), ("message", .string message)]

/-- The warnings and the error at the end of every answer. -/
def closingMembers (warnings : List Diagnostic) (error : Option String) : List (String × Json) :=
  ("warnings", .array (warnings.map Diagnostic.toJson)) ::
    Json.optionalMember "error" .string error

/-- The answer to an evaluation. -/
def Evaluation.toJson (e : Evaluation) : Json :=
  .object ([("value", .ofOption .number e.value), ("unit", .string e.unit)] ++
    closingMembers e.warnings e.error)

/-- A point of a sweep. -/
def Sweep.Point.toJson (p : Point) : Json :=
  .object [("x", .number p.x), ("y", .ofOption .number p.y)]

/-- The answer to a sweep. -/
def Sweep.Series.toJson (s : Series) : Json :=
  .object ([("points", .array (s.points.map Point.toJson)), ("xUnit", .string s.xUnit),
    ("yUnit", .string s.yUnit)] ++ closingMembers s.warnings s.error)

/-- A bin of a histogram. -/
def Statistics.Bin.toJson (b : Bin Float) : Json :=
  .object [("x0", .number b.lower), ("x1", .number b.upper), ("count", .whole b.count)]

/-- The statistics of a simulation. -/
def Simulation.Statistic.toJson (s : Statistic) : Json :=
  let number := Json.ofOption Json.number
  .object [("mean", number s.mean), ("stdev", number s.deviation), ("p05", number s.p05),
    ("p50", number s.p50), ("p95", number s.p95), ("unit", .ofOption .string s.unit)]

/-- The answer to a simulation. -/
def Simulation.Outcome.toJson (o : Outcome) : Json :=
  .object ([("stats", o.statistics.toJson),
    ("histogram", .array (o.histogram.map Statistics.Bin.toJson))] ++
    closingMembers o.warnings o.error)

/-- All analyses of one session. -/
structure Report where
  session : Session
  evaluation : Evaluation
  sweep : Sweep.Series
  simulation : Simulation.Outcome

/-- A report with its members in order. -/
def Report.toJson (r : Report) : Json :=
  .object [("session", r.session.toJson), ("evaluation", r.evaluation.toJson),
    ("sweep", r.sweep.toJson), ("monteCarlo", r.simulation.toJson)]

end Reckoner
