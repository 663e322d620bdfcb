import Reckoner.CompoundUnit.Label
import Reckoner.Decimal.Rounded
import Reckoner.Report.Json

/-!
# `Reckoner.Report.Text` — answers for a terminal

Everything is written line by line. Numbers of everyday size have up to six places, others one digit
before the point, four behind it, and a power of ten.
-/

namespace Reckoner.Report

/-! ## Numbers -/

/-- Drops zeros at the end of a fraction, and a point at the very end. -/
def trimFraction (cs : List Char) : List Char :=
  ((cs.reverse.dropWhile (· == '0')).dropWhile (· == '.')).reverse

/-- Magnitudes written without a power of ten. -/
def isEveryday (magnitude : Float) : Bool := 1e-3 ≤ magnitude && magnitude < 1e6

/-- The text of a number. -/
def number (x : Float) : String :=
  if x == 0.0 then "0"
  else
    match Reading.ofFloat x with
    | .finite b =>
      String.ofList (if isEveryday x.abs then trimFraction (Decimal.fixedChars 6 b)
        else Decimal.scientificRounded 4 b)
    | _ => Decimal.Layout.plain.render x

/-- The text of a number that may be absent. -/
def optionalNumber (x : Option Float) : String := (x.map number).getD "—"

/-! ## Lines -/

/-- A text at the right end of a column. -/
def rightAligned (width : Nat) (s : String) : String :=
  String.ofList (List.replicate (width - s.length) ' ') ++ s

/-- A text at the left end of a column. -/
def leftAligned (width : Nat) (s : String) : String :=
  s ++ String.ofList (List.replicate (width - s.length) ' ')

/-- Lines, each with its line break. -/
def unlines (lines : List String) : String := String.join (lines.map (· ++ "\n"))

/-- A line for each warning. -/
def warningLines (warnings : List Diagnostic) : List String :=
  warnings.map fun d => "  warning: " ++ d.text

/-- The warnings alone. -/
def warningsText (ds : List Diagnostic) : String := unlines (warningLines ds)

/-! ## Sessions -/

/-- Both bounds of a variable, if there are two. -/
def boundsText (v : Variable) : String :=
  match v.min, v.max with
  | some lo, some hi => " [" ++ number lo ++ ", " ++ number hi ++ "]"
  | _, _ => ""

/-- A line about a variable. -/
def variableLine (v : Variable) : String :=
  let distribution := match v.distribution with
    | some d => " " ++ d.name
    | none => ""
  "  " ++ v.symbol ++ " = " ++ number v.value ++ " " ++ CompoundUnit.displayLabel v.unit ++
    boundsText v ++ distribution

/-- A session. -/
def sessionText (s : Session) : String :=
  unlines (s.title.toList ++ ["formula: " ++ s.formula] ++
    (s.expectation?.map ("expected unit: " ++ ·)).toList ++ s.table.map variableLine)

/-- A line for each saved session. -/
def savedListText (list : List SavedSession) : String :=
  if list.isEmpty then "no saved sessions\n"
  else unlines (list.map fun s => s.id ++ "  " ++ s.updatedAt.minuteText ++ "  " ++ s.title)

/-! ## Answers -/

/-- The answer to an evaluation. -/
def evaluationText (e : Evaluation) : String :=
  let headline := match e.error, e.value with
    | some error, _ => "error: " ++ error
    | none, some value => "result: " ++ number value ++ " " ++ CompoundUnit.displayLabel e.unit
    | none, none => "result: " ++ optionalNumber none
  unlines (headline :: warningLines e.warnings)

/-- Two columns of a sweep. -/
def sweepLine (x y : String) : String := rightAligned 16 x ++ "  " ++ rightAligned 16 y

/-- The answer to a sweep. -/
def sweepText (s : Sweep.Series) : String :=
  let header := sweepLine ("x (" ++ CompoundUnit.displayLabel s.xUnit ++ ")")
    ("y (" ++ CompoundUnit.displayLabel s.yUnit ++ ")")
  let table :=
    if s.points.isEmpty then []
    else header :: s.points.map fun p => sweepLine (number p.x) (optionalNumber p.y)
  unlines ((s.error.map ("sweep error: " ++ ·)).toList ++ table ++ warningLines s.warnings)

/-- The length of the longest bar of a histogram. -/
def barLength : Nat := 40

/-- A line about a bin; the fullest bin has the longest bar. -/
def binLine (peak : Nat) (b : Statistics.Bin Float) : String :=
  rightAligned 12 (number b.lower) ++ " .. " ++ leftAligned 12 (number b.upper) ++ " " ++
    rightAligned 6 (toString b.count) ++ " " ++
    String.ofList (List.replicate (b.count * barLength / peak) '#')

/-- The lines of a histogram; none when it holds no value. -/
def histogramLines (o : Simulation.Outcome) : List String :=
  let peak := (o.histogram.map (·.count)).foldl max 0
  if peak == 0 then []
  else
    ("histogram (" ++ toString o.sampleCount ++ " samples):") :: o.histogram.map (binLine peak)

/-- The answer to a simulation. -/
def simulationText (o : Simulation.Outcome) : String :=
  let unit := (o.statistics.unit.map CompoundUnit.displayLabel).getD ""
  let row (name : String) (x : Option Float) : String :=
    rightAligned 6 name ++ ": " ++ optionalNumber x ++ " " ++ unit
  unlines ((o.error.map ("monte carlo error: " ++ ·)).toList ++
    [row "mean" o.statistics.mean, row "stdev" o.statistics.deviation,
      row "p05" o.statistics.p05, row "p50" o.statistics.p50, row "p95" o.statistics.p95] ++
    histogramLines o ++ warningLines o.warnings)

/-- All answers of a report. -/
def render (r : Report) : String :=
  sessionText r.session ++ "\n== Evaluation ==\n" ++ evaluationText r.evaluation ++
    "\n== Sweep ==\n" ++ sweepText r.sweep ++ "\n== Monte Carlo ==\n" ++ simulationText r.simulation

end Reckoner.Report
