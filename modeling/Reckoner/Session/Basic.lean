import Reckoner.Text.Blank

/-!
# `Reckoner.Session.Basic` — sessions

A session is what a user edits: a formula, the variables it refers to, the unit its result should
have, and the plans for sweeping a variable and for simulating uncertain ones.
-/

namespace Reckoner

/-! ## Variables -/

/-- How a variable is drawn between its bounds. -/
inductive Distribution where
  | uniform
  | normal
deriving DecidableEq, Repr

/-- A named quantity of a session. -/
structure Variable where
  id : String
  symbol : String
  name : String := ""
  description : String := ""
  value : Float
  unit : String := ""
  min : Option Float := none
  max : Option Float := none
  distribution : Option Distribution := none
deriving BEq, DecidableEq

namespace Variable

/-- The symbol without surrounding blanks, under which formulas refer to the variable. -/
def key (v : Variable) : String := Text.trim v.symbol

/-- Both bounds, when they are present and in order. -/
def range? (v : Variable) : Option (Float × Float) :=
  match v.min, v.max with
  | some lo, some hi => if lo ≤ hi then some (lo, hi) else none
  | _, _ => none

/-- A variable that a simulation draws. -/
def isSampled (v : Variable) : Bool := v.distribution.isSome && v.range?.isSome

end Variable

/-! ## Plans -/

/-- Which variable is swept, at how many points. -/
structure SweepPlan where
  variableId : Option String := none
  points : UInt64 := 50
deriving DecidableEq

/-- The number of points, brought between 2 and 200. -/
def SweepPlan.pointCount (p : SweepPlan) : Nat := max 2 (min p.points.toNat 200)

/-- How often a simulation draws, and from which seed. -/
structure SimulationPlan where
  iterations : UInt64 := 1000
  seed : Option UInt64 := none
deriving DecidableEq

/-- The number of iterations, brought between 100 and 10000. -/
def SimulationPlan.iterationCount (p : SimulationPlan) : Nat :=
  max 100 (min p.iterations.toNat 10000)

/-! ## Sessions -/

/-- The document a user edits. -/
structure Session where
  title : Option String := none
  table : List Variable := []
  formula : String := ""
  expectedUnit : Option String := none
  sweep : SweepPlan := {}
  simulation : SimulationPlan := {}
deriving BEq, DecidableEq

namespace Session

/-- The first variable with an id. -/
def findVariable? (s : Session) (id : String) : Option Variable := s.table.find? (·.id == id)

/-- The expected unit without surrounding blanks, unless nothing is left. -/
def expectation? (s : Session) : Option String :=
  (s.expectedUnit.map Text.trim).filter (· != "")

end Session

end Reckoner
