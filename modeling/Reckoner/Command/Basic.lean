/-!
# `Reckoner.Command.Basic` — what can be asked for

A command works on a session from a file, from the saved list, or on the one worked on last. Some of
a session's plans can be overridden for one command.
-/

namespace Reckoner

namespace Command

/-- Where a session comes from: a file, else the saved list, else the last session. -/
structure Source where
  file : Option String := none
  saved : Option String := none

/-- What replaces parts of a sweep plan. -/
structure SweepChange where
  variableId : Option String := none
  points : Option UInt64 := none

/-- What replaces parts of a simulation plan. -/
structure SimulationChange where
  iterations : Option UInt64 := none
  seed : Option UInt64 := none

/-- The document formats of an export. -/
inductive ExportFormat where
  | json
  | yaml
deriving DecidableEq, Repr

end Command

/-- A command. -/
inductive Command where
  /-- Evaluates, perhaps with another expected unit. -/
  | evaluate (source : Command.Source) (expectation : Option String)
  | sweep (source : Command.Source) (change : Command.SweepChange)
  | simulate (source : Command.Source) (change : Command.SimulationChange)
  /-- All three analyses. -/
  | report (source : Command.Source) (sweep : Command.SweepChange)
      (simulation : Command.SimulationChange)
  | listSaved
  | showSaved (id : String)
  /-- Saves under a title, and in place of the entry of an id, if one is given. -/
  | saveSession (source : Command.Source) (title : String) (id : Option String)
  | deleteSaved (id : String)
  | showLast
  /-- Writes the session as a document, to a file if one is named. -/
  | writeOut (source : Command.Source) (format : Command.ExportFormat) (target : Option String)

/-- The file that a command reads. -/
def Command.inputFile? : Command → Option String
  | .evaluate source _ | .sweep source _ | .simulate source _ | .report source _ _
  | .saveSession source _ _ | .writeOut source _ _ => source.file
  | .listSaved | .showSaved _ | .deleteSaved _ | .showLast => none

end Reckoner
