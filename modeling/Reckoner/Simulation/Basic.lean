import Reckoner.Formula.Basic
import Reckoner.Simulation.Sampler
import Reckoner.Statistics.Histogram
import Reckoner.Statistics.Summary

/-!
# `Reckoner.Simulation.Basic` — Monte Carlo simulation of a session

Every iteration draws the variables that have a distribution and bounds, keeps the others, and
evaluates the formula. One set of bindings is overwritten from iteration to iteration. The values are
reduced to statistics and a histogram.

## Contents
- **Draws.** `drawAll`: one value for each sampled variable, in table order.
- **Iterations.** `Tally` collects the evaluations of all iterations.
- **Results.** `Outcome`, `Tally.outcome` and `run`.
-/

namespace Reckoner.Simulation

variable {σ : Type}

/-! ## Draws -/

/-- What a simulation can be told. -/
structure Options where
  /-- How many bins are counted. Any number is allowed: that the counters may not fit into the memory
      is left out. -/
  histogramBins : Nat := 20
  /-- A normal variable's range is this many standard deviations wide. -/
  sigmaDivisor : Float := 6.0

/-- The sampled variables with their samplers, in table order. -/
def samplers (options : Options) (table : List Variable) : List (Variable × Sampler) :=
  table.filterMap fun v => (Sampler.ofVariable? options.sigmaDivisor v).map (v, ·)

/-- Draws every sampled variable into the bindings; a shadowed variable is drawn without effect. -/
def drawAll (g : Generator σ) : List (Variable × Sampler) → Bindings → σ → Bindings × σ
  | [], b, s => (b, s)
  | (v, sampler) :: rest, b, s =>
    let (x, s) := sampler.draw g s
    drawAll g rest (b.assign v x) s

/-! ## Iterations -/

/-- What the iterations so far have shown. -/
structure Tally where
  values : Array Float := #[]
  warnings : List Diagnostic := []
  unit : Option String := none
  firstError : Option String := none
  failures : Nat := 0

/-- Adds the evaluation of an iteration. -/
def Tally.add (t : Tally) (e : Evaluation) : Tally :=
  let warnings := Diagnostic.merge t.warnings e.warnings
  match e.value with
  | some value =>
    { t with values := t.values.push value, warnings, unit := t.unit <|> some e.unit }
  | none =>
    { t with warnings, firstError := t.firstError <|> e.error, failures := t.failures + 1 }

/-- Runs a number of iterations. Each draws into the bindings that the one before it left. -/
def iterate (g : Generator σ) (f : Formula) (expected : Option String)
    (sampled : List (Variable × Sampler)) : Nat → Bindings → Tally → σ → Tally
  | 0, _, t, _ => t
  | n + 1, b, t, s =>
    let (b, s) := drawAll g sampled b s
    iterate g f expected sampled n b (t.add (f.answer b expected)) s

/-- The tally of a session's iterations. -/
def tally (g : Generator σ) (options : Options) (session : Session) (f : Formula) (s : σ) : Tally :=
  iterate g f session.expectation? (samplers options session.table)
    session.simulation.iterationCount (.ofVariables session.table) {} s

/-! ## Results -/

/-- The statistics of a simulation; absent when nothing succeeded. -/
structure Statistic where
  mean : Option Float := none
  deviation : Option Float := none
  p05 : Option Float := none
  p50 : Option Float := none
  p95 : Option Float := none
  unit : Option String := none

/-- The answer to a simulation. -/
structure Outcome where
  statistics : Statistic
  histogram : List (Statistics.Bin Float)
  warnings : List Diagnostic
  error : Option String

/-- The answer when there are no values. -/
def Outcome.failure (error : String) (warnings : List Diagnostic) : Outcome :=
  ⟨{}, [], warnings, some error⟩

/-- The number of values in the histogram. -/
def Outcome.sampleCount (o : Outcome) : Nat := o.histogram.foldr (fun bin n => bin.count + n) 0

/-- The remark that some iterations failed. -/
def failureRemark (failures iterations : Nat) : List Diagnostic :=
  if failures == 0 then []
  else
    [.invalidFormula
      (toString failures ++ " of " ++ toString iterations ++ " iterations failed to evaluate")]

/-- The answer to a simulation of so many iterations. -/
def Tally.outcome (t : Tally) (iterations bins : Nat) : Outcome :=
  let warnings := Diagnostic.merge t.warnings (failureRemark t.failures iterations)
  let values := t.values.toList
  match Statistics.Summary.ofSamples values with
  | none => .failure ("every iteration failed: " ++ t.firstError.getD "no result") warnings
  | some summary =>
    ⟨⟨some summary.mean, some summary.deviation, some summary.p05, some summary.p50,
      some summary.p95, t.unit⟩, Statistics.histogram values bins, warnings, none⟩

/-- Simulates a session with the words of a generator. -/
def run (g : Generator σ) (options : Options) (session : Session) (s : σ) : Outcome :=
  match Formula.compile session.formula with
  | .error e => .failure e.message e.diagnostics
  | .ok f =>
    (tally g options session f s).outcome session.simulation.iterationCount options.histogramBins

/-- Simulates a session from a seed, with the usual options. -/
def runSeeded (session : Session) (seed : UInt64) : Outcome :=
  run xoshiro {} session (.ofSeed seed)

/-- Simulates a session from its own seed, or from a word that was drawn when it has none. -/
def runDrawn (word : UInt64) (session : Session) : Outcome :=
  runSeeded session (session.simulation.seed.getD word)

end Reckoner.Simulation
