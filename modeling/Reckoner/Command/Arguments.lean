import Reckoner.Command.Basic
import Reckoner.Decimal.Literal

/-!
# `Reckoner.Command.Arguments` — command lines

A command line is read from left to right. A value is checked when the next argument has been
recognised or the line ends, so that an unknown argument is reported before a bad value in front of
it.

## Contents
- **Errors.** `UsageError`: why a command line is not understood.
- **Values.** `ValueKind.read`.
- **Grammar.** `Level`: the parameters, operand and commands that may stand at a point, and
  `commandLine`, the grammar of this program.
- **Scanning.** `Scan`: what a line has shown so far.
- **Reading.** `Invocation.parse`.
-/

namespace Reckoner.Command

/-! ## Errors -/

/-- Why a command line is not understood; asking for help is among the reasons. -/
inductive UsageError where
  | unknownCommand (text : String)
  | unknownArgument (text : String)
  /-- An argument is repeated, or does not go together with another one. -/
  | conflict (name : String)
  | missingValue (name : String)
  | invalidChoice (name text : String)
  | invalidNumber (name text : String)
  /-- A value is given to an argument that takes none. -/
  | unwantedValue (name text : String)
  | missingOperand (name : String)
  | missingCommand
  /-- Nothing stands where a command is required. -/
  | nothingGiven
  | helpWanted
deriving DecidableEq, Repr

/-- The error in words. -/
def UsageError.message : UsageError → String
  | .unknownCommand text => "unrecognized subcommand '" ++ text ++ "'"
  | .unknownArgument text => "unexpected argument '" ++ text ++ "'"
  | .conflict name => "argument '" ++ name ++ "' cannot be used here again or with others"
  | .missingValue name => "a value is required for '" ++ name ++ "'"
  | .invalidChoice name text => "invalid value '" ++ text ++ "' for '" ++ name ++ "'"
  | .invalidNumber name text => "invalid number '" ++ text ++ "' for '" ++ name ++ "'"
  | .unwantedValue name text => "unexpected value '" ++ text ++ "' for '" ++ name ++ "'"
  | .missingOperand name => "missing argument " ++ name
  | .missingCommand | .nothingGiven => "a subcommand is required"
  | .helpWanted => "help"

/-! ## Values -/

/-- What kind of value an argument takes. -/
inductive ValueKind where
  | text
  | path
  | count
  | format
deriving DecidableEq, Repr

/-- The value of an argument. -/
inductive Value where
  | text (value : String)
  | count (value : UInt64)
  | format (value : ExportFormat)

/-- A whole number of 64 bits, perhaps with a plus sign. -/
def count? (text : String) : Option UInt64 :=
  let cs := text.toList
  let ds := if cs.head? == some '+' then cs.drop 1 else cs
  let n := Decimal.natOfDigits ds
  if !ds.isEmpty && ds.all Char.isDigit && n < UInt64.size then some (UInt64.ofNat n) else none

/-- The value that a text stands for. -/
def ValueKind.read (kind : ValueKind) (name text : String) : Except UsageError Value :=
  match kind with
  | .text => .ok (.text text)
  | .path => if text.isEmpty then .error (.missingValue name) else .ok (.text text)
  | .count =>
    match count? text with
    | some n => .ok (.count n)
    | none => .error (.invalidNumber name text)
  | .format =>
    match text with
    | "json" => .ok (.format .json)
    | "yaml" => .ok (.format .yaml)
    | _ => .error (.invalidChoice name text)

/-! ## Grammar -/

/-- An argument with a name; without a kind of value it is a flag. -/
structure Parameter where
  name : String
  short : Option Char := none
  kind : Option ValueKind := none

/-- An argument without a name. -/
structure Operand where
  name : String
  kind : ValueKind
  isRequired : Bool := false
  /-- The parameter that takes its place. -/
  instead : Option String := none

/-- The arguments found, the latest first; a flag has no value. -/
abbrev Found := List (String × Option Value)

namespace Found

/-- An argument was given. -/
def has (f : Found) (name : String) : Bool := f.any (·.1 == name)

/-- The text given for an argument. -/
def text? (f : Found) (name : String) : Option String :=
  match f.lookup name with
  | some (some (.text value)) => some value
  | _ => none

/-- The number given for an argument. -/
def count? (f : Found) (name : String) : Option UInt64 :=
  match f.lookup name with
  | some (some (.count value)) => some value
  | _ => none

/-- The format given for an argument. -/
def format? (f : Found) (name : String) : Option ExportFormat :=
  match f.lookup name with
  | some (some (.format value)) => some value
  | _ => none

end Found

/-- What may follow at a point of a command line. -/
inductive Level where
  /-- The arguments of a command. -/
  | action (parameters : List Parameter) (operand : Option Operand) (build : Found → Command)
  /-- One of several commands. -/
  | group (commands : List (String × Level))

namespace Level

/-- The name of the parameter that asks for help, and of the command that does. -/
def helpName : String := "help"

/-- The parameters that are understood everywhere. -/
def globals : List Parameter :=
  [⟨helpName, some 'h', none⟩, ⟨"data-dir", some 'd', some .path⟩,
    ⟨"log-level", some 'l', some .text⟩, ⟨"json", none, none⟩]

/-- The parameters understood at a level. -/
def parameters : Level → List Parameter
  | .action own _ _ => own ++ globals
  | .group _ => globals

/-- The operand of a level. -/
def operand? : Level → Option Operand
  | .action _ operand _ => operand
  | .group _ => none

/-- The command of a name. -/
def command? : Level → String → Option Level
  | .action .., _ => none
  | .group commands, name => commands.lookup name

/-- The name is that of a command here, the command for help among them. -/
def isCommand (level : Level) (name : String) : Bool :=
  match level with
  | .action .. => false
  | .group commands => name == helpName || (commands.lookup name).isSome

/-- A file, or a saved session in its place. -/
def fileOperand : Operand := ⟨"FILE", .path, false, some "saved"⟩

/-- The parameter for a saved session. -/
def savedParameter : Parameter := ⟨"saved", none, some .text⟩

/-- The parameters that change a sweep plan. -/
def sweepParameters : List Parameter :=
  [⟨"variable", none, some .text⟩, ⟨"points", none, some .count⟩]

/-- The parameters that change a simulation plan. -/
def simulationParameters : List Parameter :=
  [⟨"iterations", none, some .count⟩, ⟨"seed", none, some .count⟩]

/-- The id of a saved session. -/
def idOperand : Operand := ⟨"ID", .text, true, none⟩

/-- Where the session comes from. -/
def sourceOf (f : Found) : Source := ⟨f.text? "FILE", f.text? "saved"⟩

/-- The change of a sweep plan. -/
def sweepOf (f : Found) : SweepChange := ⟨f.text? "variable", f.count? "points"⟩

/-- The change of a simulation plan. -/
def simulationOf (f : Found) : SimulationChange := ⟨f.count? "iterations", f.count? "seed"⟩

/-- The commands on saved sessions. -/
def savedCommands : List (String × Level) :=
  [("list", .action [] none fun _ => .listSaved),
    ("show", .action [] (some idOperand) fun f => .showSaved ((f.text? "ID").getD "")),
    ("save", .action
      [savedParameter, ⟨"title", some 't', some .text⟩, ⟨"id", none, some .text⟩]
      (some fileOperand) fun f =>
        .saveSession (sourceOf f) ((f.text? "title").getD "") (f.text? "id")),
    ("delete", .action [] (some idOperand) fun f => .deleteSaved ((f.text? "ID").getD "")),
    ("last", .action [] none fun _ => .showLast)]

/-- The grammar of command lines. -/
def commandLine : Level :=
  .group [
    ("eval", .action [savedParameter, ⟨"expect", none, some .text⟩] (some fileOperand) fun f =>
      .evaluate (sourceOf f) (f.text? "expect")),
    ("sweep", .action (savedParameter :: sweepParameters) (some fileOperand) fun f =>
      .sweep (sourceOf f) (sweepOf f)),
    ("monte-carlo", .action (savedParameter :: simulationParameters) (some fileOperand) fun f =>
      .simulate (sourceOf f) (simulationOf f)),
    ("report", .action (savedParameter :: sweepParameters ++ simulationParameters)
      (some fileOperand) fun f => .report (sourceOf f) (sweepOf f) (simulationOf f)),
    ("sessions", .group savedCommands),
    ("export", .action [savedParameter, ⟨"format", none, some .format⟩,
      ⟨"output", some 'o', some .path⟩] (some fileOperand) fun f =>
        .writeOut (sourceOf f) ((f.format? "format").getD .yaml) (f.text? "output"))]

end Level

/-! ## Scanning -/

/-- An argument that is not checked yet; its value may still be to come. -/
structure Pending where
  name : String
  kind : ValueKind
  text : Option String

/-- What a level of the line has shown so far. -/
structure Scan where
  found : Found := []
  pending : Option Pending := none

namespace Scan

/-- The next argument is the value of the last one. -/
def awaitsValue (s : Scan) : Bool :=
  match s.pending with
  | some ⟨_, _, none⟩ => true
  | _ => false

/-- The argument was given, checked or not. -/
def uses (s : Scan) (name : String) : Bool :=
  s.found.has name || (s.pending.map (·.name)) == some name

/-- Adds an argument; each may be given once. -/
def add (s : Scan) (name : String) (value : Except UsageError (Option Value)) :
    Except UsageError Scan :=
  if s.found.has name then .error (.conflict name)
  else value.map fun v => { s with found := (name, v) :: s.found }

/-- Adds an argument with its value. -/
def addText (s : Scan) (name : String) (kind : ValueKind) (text : String) :
    Except UsageError Scan := s.add name ((kind.read name text).map some)

/-- Checks the last argument. -/
def settle (s : Scan) : Except UsageError Scan :=
  match s.pending with
  | none => .ok s
  | some ⟨name, _, none⟩ => .error (.missingValue name)
  | some ⟨name, kind, some text⟩ => ({ s with pending := none } : Scan).addText name kind text

/-- Takes a flag. -/
def takeFlag (s : Scan) (name : String) : Except UsageError Scan := do
  let s ← s.settle
  if name == Level.helpName then .error .helpWanted else s.add name (.ok none)

/-- Takes a parameter with its value, which may be the next argument. -/
def takeParameter (s : Scan) (name : String) (kind : ValueKind) (attached : Option String) :
    Except UsageError Scan := do
  let s ← s.settle
  match attached with
  | some text => s.addText name kind text
  | none => return { s with pending := some ⟨name, kind, none⟩ }

/-- Takes a parameter by its long name. -/
def takeLong (level : Level) (s : Scan) (name : String) (attached : Option String) :
    Except UsageError Scan :=
  match level.parameters.find? (·.name == name) with
  | none => .error (.unknownArgument ("--" ++ name))
  | some p =>
    match p.kind, attached with
    | some kind, _ => s.takeParameter p.name kind attached
    | none, some text => .error (.unwantedValue p.name text)
    | none, none => s.takeFlag p.name

/-- Takes parameters by their short names; the first that has a value takes what is left, an equals
    sign in front of it aside. -/
def takeShorts (level : Level) (s : Scan) : List Char → Except UsageError Scan
  | [] => .ok s
  | c :: cs =>
    match level.parameters.find? (·.short == some c) with
    | none => .error (.unknownArgument ("-" ++ String.singleton c))
    | some p =>
      match p.kind with
      | none => do takeShorts level (← s.takeFlag p.name) cs
      | some kind =>
        let attached := match cs with
          | [] => none
          | '=' :: rest => some (String.ofList rest)
          | rest => some (String.ofList rest)
        s.takeParameter p.name kind attached

/-- Takes an argument without a name; behind a double dash commands are not looked for. -/
def takeOperand (level : Level) (escaped : Bool) (s : Scan) (text : String) :
    Except UsageError Scan :=
  match level, level.operand? with
  | _, some operand =>
    if s.uses operand.name then .error (.unknownArgument text)
    else do
      let s ← s.settle
      return { s with pending := some ⟨operand.name, operand.kind, some text⟩ }
  | .group _, none =>
    .error (if escaped && level.isCommand text then .unknownArgument text else .unknownCommand text)
  | .action .., none => .error (.unknownArgument text)

/-- The end of a line: everything is checked and complete. -/
def finish (level : Level) (s : Scan) : Except UsageError (Found × Command) := do
  let s ← s.settle
  match level with
  | .group _ => throw (if s.found.isEmpty then .nothingGiven else .missingCommand)
  | .action _ operand build =>
    match operand with
    | none => return (s.found, build s.found)
    | some operand =>
      let clash := (operand.instead.map s.found.has).getD false
      if s.found.has operand.name && clash then throw (.conflict operand.name)
      else if operand.isRequired && !s.found.has operand.name then
        throw (.missingOperand operand.name)
      else return (s.found, build s.found)

end Scan

/-! ## Reading -/

/-- An argument, by its dashes. -/
inductive Shape where
  | escape
  | long (name : String) (attached : Option String)
  | shorts (names : List Char)
  | bare
deriving DecidableEq

/-- The shape of an argument. A single dash is no name. -/
def Shape.of (text : String) : Shape :=
  match text.toList with
  | ['-', '-'] => .escape
  | '-' :: '-' :: cs =>
    let value := cs.dropWhile (· != '=')
    .long (String.ofList (cs.takeWhile (· != '=')))
      (if value.isEmpty then none else some (String.ofList (value.drop 1)))
  | '-' :: c :: cs => .shorts (c :: cs)
  | _ => .bare

/-- The answer to a request for help on commands: they have to exist. -/
def helpOn : Level → List String → UsageError
  | _, [] => .helpWanted
  | level, name :: rest =>
    match level.command? name with
    | some next => helpOn next rest
    | none =>
      if level.isCommand name then
        match rest with
        | [] => .helpWanted
        | other :: _ => .unknownCommand other
      else .unknownCommand name

/-- Reads the arguments of a level. A command hands over to its own level; its arguments are checked
    before those in front of it. -/
def readLevel (level : Level) (s : Scan) (escaped : Bool) :
    List String → Except UsageError (Found × Command)
  | [] => s.finish level
  | text :: rest =>
    if escaped then do readLevel level (← s.takeOperand level true text) true rest
    else
      match if s.awaitsValue then none else level.command? text with
      | some next => do
        let (found, command) ← readLevel next {} false rest
        let s ← s.settle
        return (found ++ s.found, command)
      | none =>
        if !s.awaitsValue && level.isCommand text then .error (helpOn level rest)
        else
          match Shape.of text with
          | .escape => readLevel level s true rest
          | .long name attached => do
            readLevel level (← s.takeLong level name attached) false rest
          | .shorts names => do readLevel level (← s.takeShorts level names) false rest
          | .bare =>
            match s.pending with
            | some ⟨name, kind, none⟩ =>
              readLevel level { s with pending := some ⟨name, kind, some text⟩ } false rest
            | _ => do readLevel level (← s.takeOperand level false text) false rest

end Command

/-- A command with the settings around it. -/
structure Invocation where
  dataDirectory : Option String
  logLevel : String
  /-- Answers are printed as JSON. -/
  json : Bool
  command : Command

/-- The level of logging that is used when none is given. -/
def Invocation.usualLogLevel : String := "info"

/-- Reads a command line. -/
def Invocation.parse (arguments : List String) : Except Command.UsageError Invocation := do
  let (found, command) ← Command.readLevel Command.Level.commandLine {} false arguments
  return ⟨found.text? "data-dir", (found.text? "log-level").getD usualLogLevel, found.has "json",
    command⟩

end Reckoner
