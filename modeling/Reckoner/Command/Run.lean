import Reckoner.Command.Basic
import Reckoner.Report.Text
import Reckoner.Store

/-!
# `Reckoner.Command.Run` — carrying out commands

A command that loads a session remembers it as the last one, whatever becomes of the command.

## Contents
- **Errors.** `RunError` with its wording.
- **Loading.** `load`: a session from its source.
- **Commands.** `run`: the product of a command and the storage after it; `answer`: what is printed
  in the end.
-/

namespace Reckoner.Command

/-! ## Errors -/

/-- Why a command fails. -/
inductive RunError where
  | unreadable (path : String)
  | invalid (path : String) (cause : DocumentError)
  | notSaved (id : String)
  | nothingToLoad
  | noLastSession
  | unwritable (path : String)
  | unfinished

/-- How many seconds a simulation is waited for. -/
def simulationLimit : Nat := 300

/-- The error in words. -/
def RunError.message : RunError → String
  | .unreadable path => "Failed to read " ++ path
  | .invalid path _ => "Invalid session in " ++ path
  | .notSaved id => "No saved session with id '" ++ id ++ "'"
  | .nothingToLoad => "No session file given and no last session stored"
  | .noLastSession => "No last session stored"
  | .unwritable path => "Failed to write " ++ path
  | .unfinished => "Monte Carlo did not finish within " ++ toString simulationLimit ++ "s"

/-! ## Loading -/

/-- What surrounds a command. -/
structure Setting where
  /-- Answers are printed as JSON. -/
  json : Bool
  /-- The texts of the files that can be read. -/
  files : String → Option String
  now : Timestamp
  /-- A random word for ids. -/
  word : UInt32
  /-- A random seed for simulations that name none. -/
  seed : UInt64

/-- The name of a file: the last part of its path. -/
def fileName (path : String) : List Char :=
  let parts := Text.words (· == '/') path.toList
  (parts.filter (· != ['.'])).getLastD []

/-- What follows the last point of a file's name; a point in front of everything opens none. -/
def extension? (path : String) : Option String :=
  let name := fileName path
  let ending := (name.reverse.takeWhile (· != '.')).reverse
  if name == ['.', '.'] || name.length ≤ ending.length + 1 then none
  else some (String.ofList ending)

/-- Files with these endings hold YAML, all others JSON. -/
def isYamlFile (path : String) : Bool :=
  match extension? path with
  | some ending => ending == "yaml" || ending == "yml"
  | none => false

/-- The session of a file. -/
def readFile (setting : Setting) (path : String) : Except RunError Session :=
  match setting.files path with
  | none => .error (.unreadable path)
  | some text =>
    match if isYamlFile path then Session.ofYaml text else Session.ofJson text with
    | .ok session => .ok session
    | .error cause => .error (.invalid path cause)

variable {σ : Type} [Storage σ]

/-- The saved session of an id. -/
def findSaved (s : σ) (id : String) : Except RunError SavedSession :=
  match Store.find? s id with
  | some saved => .ok saved
  | none => .error (.notSaved id)

/-- The session of a source. -/
def fetch (setting : Setting) (source : Source) (s : σ) : Except RunError Session :=
  match source.file, source.saved with
  | some path, _ => readFile setting path
  | none, some id => (findSaved s id).map (·.session)
  | none, none =>
    match Store.readLast s with
    | some session => .ok session
    | none => .error .nothingToLoad

/-- The session of a source, which is then the last one. -/
def load (setting : Setting) (source : Source) (s : σ) : Except RunError Session × σ :=
  match fetch setting source s with
  | .ok session => (.ok session, Store.writeLast s session)
  | .error e => (.error e, s)

/-! ## Commands -/

/-- What a command produces. -/
inductive Product where
  | print (text : String)
  /-- A file to be written, which is then reported. -/
  | file (path content : String)

/-- What is printed in the end, given whether a file could be written. -/
def Product.report (written : Bool) : Product → Except RunError String
  | .print text => .ok text
  | .file path _ =>
    if written then .ok ("exported to " ++ path ++ "\n") else .error (.unwritable path)

/-- An answer in the form that is wanted. -/
def Setting.present (setting : Setting) (json : Json) (text : String) : Product :=
  .print (if setting.json then json.pretty ++ "\n" else text)

/-- The sweep of a session whose plan is changed. -/
def sweepWith (change : SweepChange) (session : Session) : Sweep.Series :=
  let points := change.points.getD session.sweep.points
  Sweep.run { session with sweep := { session.sweep with points } } change.variableId

/-- The simulation of a session whose plan is changed. -/
def simulateWith (setting : Setting) (change : SimulationChange) (session : Session) :
    Simulation.Outcome :=
  let iterations := change.iterations.getD session.simulation.iterations
  let plan : SimulationPlan := ⟨iterations, change.seed <|> session.simulation.seed⟩
  Simulation.runDrawn setting.seed { session with simulation := plan }

/-- All analyses of a session. -/
def reportWith (setting : Setting) (swept : SweepChange) (simulated : SimulationChange)
    (session : Session) : Report :=
  ⟨session, session.evaluate, sweepWith swept session, simulateWith setting simulated session⟩

/-- A session as a document. -/
def documentOf (format : ExportFormat) (session : Session) : String :=
  match format with
  | .json => session.toJson.pretty ++ "\n"
  | .yaml => session.toYaml

/-- The product of a loaded session. -/
def produce (setting : Setting) (session : Session) : Command → Product
  | .evaluate _ expectation =>
    let result := Session.evaluate
      { session with expectedUnit := expectation <|> session.expectedUnit }
    setting.present result.toJson (Report.evaluationText result)
  | .sweep _ change =>
    let result := sweepWith change session
    setting.present result.toJson (Report.sweepText result)
  | .simulate _ change =>
    let result := simulateWith setting change session
    setting.present result.toJson (Report.simulationText result)
  | .report _ sweepChange simulationChange =>
    let result := reportWith setting sweepChange simulationChange session
    setting.present result.toJson result.render
  | .writeOut _ format target =>
    match target with
    | some path => .file path (documentOf format session)
    | none => .print (documentOf format session)
  | _ => setting.present session.toJson (Report.sessionText session)

/-- The saved list in the form that is wanted. -/
def showList (setting : Setting) (list : List SavedSession) : Product :=
  setting.present (.array (list.map SavedSession.toJson)) (Report.savedListText list)

/-- Loads a session and goes on with it. -/
def withSession (setting : Setting) (source : Source) (s : σ)
    (next : Session → σ → Product × σ) : Except RunError Product × σ :=
  match load setting source s with
  | (.ok session, s) => let (product, s) := next session s; (.ok product, s)
  | (.error e, s) => (.error e, s)

/-- Carries out a command. -/
def run (setting : Setting) (command : Command) (s : σ) : Except RunError Product × σ :=
  match command with
  | .evaluate source _ | .sweep source _ | .simulate source _ | .report source _ _
  | .writeOut source _ _ =>
    withSession setting source s fun session s => (produce setting session command, s)
  | .saveSession source title id =>
    withSession setting source s fun session s =>
      let chosen := id.getD (Store.freshId setting.now setting.word)
      let (saved, s) := Store.save s session title chosen setting.now
      (setting.present saved.toJson ("saved " ++ saved.id ++ " (" ++ saved.title ++ ")\n"), s)
  | .listSaved => (.ok (showList setting (Store.readSaved s)), s)
  | .showSaved id =>
    ((findSaved s id).map fun saved =>
      setting.present saved.toJson (Report.sessionText saved.session), s)
  | .deleteSaved id =>
    match findSaved s id with
    | .error e => (.error e, s)
    | .ok _ => let (rest, s) := Store.delete s id; (.ok (showList setting rest), s)
  | .showLast =>
    match Store.readLast s with
    | some session => (.ok (setting.present session.toJson (Report.sessionText session)), s)
    | none => (.error .noLastSession, s)

/-- The command waits for a simulation. -/
def simulates : Command → Bool
  | .simulate .. | .report .. => true
  | _ => false

/-- What a command answers in the end, given whether its file, if it has one, could be written, and
    whether its simulation, if it has one, ended while it was waited for. -/
def answer (command : Command) (written inTime : Bool) (result : Except RunError Product) :
    Except RunError String :=
  result.bind fun product =>
    if command.simulates && !inTime then .error .unfinished else product.report written

end Reckoner.Command
