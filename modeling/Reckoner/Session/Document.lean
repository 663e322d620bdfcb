import Reckoner.Json.Basic
import Reckoner.Json.Decode
import Reckoner.Session.Validity
import Reckoner.Timestamp.Text
import Reckoner.Yaml.Read
import Reckoner.Yaml.Write

/-!
# `Reckoner.Session.Document` — sessions as JSON and YAML

## Contents
- **Writing.** `Session.toJson` and `SavedSession.toJson`; absent options are left out.
- **Reading.** The shape of each part of a session, for every document format. Unknown members are
  passed over.
- **Documents.** `Session.ofJson`, `Session.ofYaml` and `SavedSession.listOfJson`: only documents
  that break no rule are accepted; `DocumentError` tells why others are not.
-/

namespace Reckoner

/-! ## Writing -/

/-- The name of a distribution. -/
def Distribution.name : Distribution → String
  | .uniform => "uniform"
  | .normal => "normal"

/-- A variable with its members in order. -/
def Variable.toJson (v : Variable) : Json :=
  .object (
    [("id", .string v.id), ("symbol", .string v.symbol), ("name", .string v.name),
      ("description", .string v.description), ("value", .number v.value),
      ("unit", .string v.unit)] ++
    Json.optionalMember "min" .number v.min ++ Json.optionalMember "max" .number v.max ++
    Json.optionalMember "distribution" (.string ·.name) v.distribution)

/-- A sweep plan with its members in order. -/
def SweepPlan.toJson (p : SweepPlan) : Json :=
  .object (Json.optionalMember "variableId" .string p.variableId ++
    [("points", .whole p.points.toNat)])

/-- A simulation plan with its members in order. -/
def SimulationPlan.toJson (p : SimulationPlan) : Json :=
  .object (("iterations", .whole p.iterations.toNat) ::
    Json.optionalMember "seed" (.whole ·.toNat) p.seed)

/-- A session with its members in order. -/
def Session.toJson (s : Session) : Json :=
  .object (
    Json.optionalMember "title" .string s.title ++
    [("variables", .array (s.table.map Variable.toJson)), ("formula", .string s.formula)] ++
    Json.optionalMember "expectedUnit" .string s.expectedUnit ++
    [("sweep", s.sweep.toJson), ("monteCarlo", s.simulation.toJson)])

/-- A saved session with its members in order. -/
def SavedSession.toJson (s : SavedSession) : Json :=
  .object [("id", .string s.id), ("title", .string s.title),
    ("updatedAt", .string s.updatedAt.render), ("session", s.session.toJson)]

/-! ## Reading -/

open Document (Decoded Format Shape)

variable {δ : Type} [Format δ]

/-- The distribution of a name. -/
def Distribution.ofName? : String → Option Distribution
  | "uniform" => some .uniform
  | "normal" => some .normal
  | _ => none

/-- A variable while it is read. -/
structure VariableFields where
  id : Option String := none
  symbol : Option String := none
  name : Option String := none
  description : Option String := none
  value : Option Float := none
  unit : Option String := none
  min : Option (Option Float) := none
  max : Option (Option Float) := none
  distribution : Option (Option Distribution) := none

/-- How a variable is read: id, symbol and value are required. -/
def Variable.shape : Shape δ VariableFields Variable where
  fields :=
    ["id", "symbol", "name", "description", "value", "unit", "min", "max", "distribution"]
  start := {}
  has r
    | "id" => r.id.isSome
    | "symbol" => r.symbol.isSome
    | "name" => r.name.isSome
    | "description" => r.description.isSome
    | "value" => r.value.isSome
    | "unit" => r.unit.isSome
    | "min" => r.min.isSome
    | "max" => r.max.isSome
    | "distribution" => r.distribution.isSome
    | _ => false
  set r name d :=
    match name with
    | "id" => do return { r with id := some (← Format.asString d) }
    | "symbol" => do return { r with symbol := some (← Format.asString d) }
    | "name" => do return { r with name := some (← Format.asString d) }
    | "description" => do return { r with description := some (← Format.asString d) }
    | "value" => do return { r with value := some (← Format.asFloat d) }
    | "unit" => do return { r with unit := some (← Format.asString d) }
    | "min" => do return { r with min := some (← Format.asOption Format.asFloat d) }
    | "max" => do return { r with max := some (← Format.asOption Format.asFloat d) }
    | "distribution" => do
      let choice := Format.asChoice "Distribution" Distribution.ofName?
      return { r with distribution := some (← Format.asOption choice d) }
    | _ => return r
  finish r := do
    return {
      id := ← r.id, symbol := ← r.symbol, name := r.name.getD "",
      description := r.description.getD "", value := ← r.value, unit := r.unit.getD "",
      min := r.min.getD none, max := r.max.getD none,
      distribution := r.distribution.getD none }

/-- A sweep plan while it is read. -/
structure SweepFields where
  variableId : Option (Option String) := none
  points : Option UInt64 := none

/-- How a sweep plan is read. -/
def SweepPlan.shape : Shape δ SweepFields SweepPlan where
  fields := ["variableId", "points"]
  start := {}
  has r
    | "variableId" => r.variableId.isSome
    | "points" => r.points.isSome
    | _ => false
  set r name d :=
    match name with
    | "variableId" => do
      return { r with variableId := some (← Format.asOption Format.asString d) }
    | "points" => do return { r with points := some (← Format.asWord d) }
    | _ => return r
  finish r :=
    let default : SweepPlan := {}
    some ⟨r.variableId.getD none, r.points.getD default.points⟩

/-- A simulation plan while it is read. -/
structure SimulationFields where
  iterations : Option UInt64 := none
  seed : Option (Option UInt64) := none

/-- How a simulation plan is read. -/
def SimulationPlan.shape : Shape δ SimulationFields SimulationPlan where
  fields := ["iterations", "seed"]
  start := {}
  has r
    | "iterations" => r.iterations.isSome
    | "seed" => r.seed.isSome
    | _ => false
  set r name d :=
    match name with
    | "iterations" => do return { r with iterations := some (← Format.asWord d) }
    | "seed" => do return { r with seed := some (← Format.asOption Format.asWord d) }
    | _ => return r
  finish r :=
    let default : SimulationPlan := {}
    some ⟨r.iterations.getD default.iterations, r.seed.getD none⟩

/-- A session while it is read. -/
structure SessionFields where
  title : Option (Option String) := none
  table : Option (List Variable) := none
  formula : Option String := none
  expectedUnit : Option (Option String) := none
  sweep : Option SweepPlan := none
  simulation : Option SimulationPlan := none

/-- How a session is read: every member may be missing. -/
def Session.shape : Shape δ SessionFields Session where
  fields := ["title", "variables", "formula", "expectedUnit", "sweep", "monteCarlo"]
  start := {}
  has r
    | "title" => r.title.isSome
    | "variables" => r.table.isSome
    | "formula" => r.formula.isSome
    | "expectedUnit" => r.expectedUnit.isSome
    | "sweep" => r.sweep.isSome
    | "monteCarlo" => r.simulation.isSome
    | _ => false
  set r name d :=
    match name with
    | "title" => do return { r with title := some (← Format.asOption Format.asString d) }
    | "variables" => do
      return { r with table := some (← Format.asList (Format.asRecord Variable.shape) d) }
    | "formula" => do return { r with formula := some (← Format.asString d) }
    | "expectedUnit" => do
      return { r with expectedUnit := some (← Format.asOption Format.asString d) }
    | "sweep" => do return { r with sweep := some (← Format.asRecord SweepPlan.shape d) }
    | "monteCarlo" => do
      return { r with simulation := some (← Format.asRecord SimulationPlan.shape d) }
    | _ => return r
  finish r :=
    some ⟨r.title.getD none, r.table.getD [], r.formula.getD "", r.expectedUnit.getD none,
      r.sweep.getD {}, r.simulation.getD {}⟩

/-- An instant. -/
def Timestamp.decode (d : δ) : Decoded Timestamp := do
  match read? (← Format.asString d) with
  | some t => return t
  | none => throw .mismatched

/-- A saved session while it is read. -/
structure SavedFields where
  id : Option String := none
  title : Option String := none
  updatedAt : Option Timestamp := none
  session : Option Session := none

/-- How a saved session is read: every member is required. -/
def SavedSession.shape : Shape δ SavedFields SavedSession where
  fields := ["id", "title", "updatedAt", "session"]
  start := {}
  has r
    | "id" => r.id.isSome
    | "title" => r.title.isSome
    | "updatedAt" => r.updatedAt.isSome
    | "session" => r.session.isSome
    | _ => false
  set r name d :=
    match name with
    | "id" => do return { r with id := some (← Format.asString d) }
    | "title" => do return { r with title := some (← Format.asString d) }
    | "updatedAt" => do return { r with updatedAt := some (← Timestamp.decode d) }
    | "session" => do return { r with session := some (← Format.asRecord Session.shape d) }
    | _ => return r
  finish r := do return ⟨← r.id, ← r.title, ← r.updatedAt, ← r.session⟩

/-! ## Documents -/

/-- Why a text is not a document. -/
inductive DocumentError where
  | json (fault : Document.Fault)
  | yaml
  | invalid (violation : Violation)

/-- A decoded document that breaks no rule. -/
def accept {α : Type} (violation : Option Violation) (a : α) : Except DocumentError α :=
  match violation with
  | some v => .error (.invalid v)
  | none => .ok a

/-- The session of a JSON text. -/
def Session.ofJson (text : String) : Except DocumentError Session :=
  match Json.decode (Format.asRecord Session.shape) text with
  | .error fault => .error (.json fault)
  | .ok s => accept s.violation? s

/-- The session of a YAML text. -/
def Session.ofYaml (text : String) : Except DocumentError Session :=
  match (Yaml.Node.read? text).map (Format.asRecord Session.shape) with
  | some (.ok s) => accept s.violation? s
  | _ => .error .yaml

/-- The YAML text of a session. -/
def Session.toYaml (s : Session) : String := Yaml.write s.toJson

/-- The saved list of a JSON text. -/
def SavedSession.listOfJson (text : String) : Except DocumentError (List SavedSession) :=
  match Json.decode (Format.asList (Format.asRecord SavedSession.shape)) text with
  | .error fault => .error (.json fault)
  | .ok list => accept (savedViolation? [] list) list

/-- The JSON text of a saved list. -/
def SavedSession.listToJson (list : List SavedSession) : String :=
  (Json.array (list.map SavedSession.toJson)).compact

end Reckoner
