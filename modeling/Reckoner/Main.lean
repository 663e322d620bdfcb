import Reckoner.Command.Arguments
import Reckoner.Command.Run
import Reckoner.Log
import Reckoner.Storage.Directory
import Std.Time.DateTime.Timestamp

/-!
# `Reckoner.Main` — the program

The outer layer: it reads the files a command needs, lets the command run on them, and writes back
what has changed.
-/

namespace Reckoner.Main

/-- What is printed when help is asked for. -/
def help : String :=
  "Unit-aware formula sanity checks: evaluate, sweep and Monte Carlo\n\n" ++
  "Commands:\n" ++
  "  eval [FILE]          evaluate the formula (--expect UNIT)\n" ++
  "  sweep [FILE]         sweep one variable (--variable ID, --points N)\n" ++
  "  monte-carlo [FILE]   simulate uncertain variables (--iterations N, --seed N)\n" ++
  "  report [FILE]        all of these together\n" ++
  "  sessions             list | show ID | save [FILE] (-t TITLE, --id ID) | delete ID | last\n" ++
  "  export [FILE]        write the session (--format json|yaml, -o FILE)\n\n" ++
  "Options:\n" ++
  "  --saved ID           load a saved session instead of a file\n" ++
  "  -d, --data-dir DIR   where sessions are kept\n" ++
  "  -l, --log-level LVL  how much is logged\n" ++
  "  --json               print results as JSON\n"

/-- The directory that sessions are kept in when none is named. -/
def usualDirectory : IO String := do
  return (← IO.getEnv "HOME").getD "." ++ "/.sanity"

/-- The text of a file that can be read. -/
def readText? (path : String) : IO (Option String) := do
  try return some (← IO.FS.readFile path)
  catch _ => return none

/-- Writes a file and tells whether that went well. -/
def writeText (path text : String) : IO Bool := do
  try
    IO.FS.writeFile path text
    return true
  catch _ => return false

/-- A file of a directory. -/
def inside (directory name : String) : String := directory ++ "/" ++ name

/-- The keys whose files a command may change. -/
def keys : List String := [Store.lastKey, Store.savedKey]

/-- The files of a directory that hold sessions. -/
def snapshot (directory : String) : IO Directory := do
  let entries ← keys.filterMapM fun key => do
    let name := Directory.fileName key
    return (← readText? (inside directory name)).map fun text => (name, .file text.toUTF8)
  return { present := true, entries }

/-- Takes a step on disk. -/
def perform (directory : String) : DirectoryStep → IO Unit
  | .create => IO.FS.createDirAll directory
  | .write name content => IO.FS.writeBinFile (inside directory name) content
  | .rename source target => IO.FS.rename (inside directory source) (inside directory target)
  | .delete name => IO.FS.removeFile (inside directory name)

/-- The entry is a file with this content. -/
def isFileOf (content : ByteArray) : DirectoryEntry → Bool
  | .file old => old.data == content.data
  | .folder => false

/-- Writes the files that have changed, as far as possible. -/
def commit (directory : String) (before after : Directory) : IO Unit := do
  for key in keys do
    let name := Directory.fileName key
    match after.find? name with
    | some (.file content) =>
      if !(before.find? name).any (isFileOf content) then
        try (Directory.setSteps key content).forM (perform directory)
        catch _ => pure ()
    | _ => pure ()

/-- Makes sure that there is a log, and that it is not too long. -/
def prepareLog (directory : String) : IO Unit := do
  IO.FS.createDirAll directory
  let path := inside directory Log.fileName
  let bytes ← try IO.FS.readBinFile path catch _ => pure ByteArray.empty
  let kept := Log.rotate Log.sizeLimit Log.keptSize bytes.toList
  if kept.length != bytes.size then IO.FS.writeBinFile path ⟨kept.toArray⟩
  IO.FS.withFile path .append fun _ => pure ()

/-- A number of random bytes as one number. -/
def randomNat (count : USize) : IO Nat := do
  return (← IO.getRandomBytes count).toList.foldl (fun n b => 256 * n + b.toNat) 0

/-- The present instant. -/
def now : IO Timestamp := do
  return ⟨(← Std.Time.Timestamp.now).toNanosecondsSinceUnixEpoch.val⟩

/-- Carries out an invocation and returns the exit code. -/
def carryOut (invocation : Invocation) : IO UInt32 := do
  let directory ← match invocation.dataDirectory with
    | some directory => pure directory
    | none => usualDirectory
  prepareLog directory
  let input ← match invocation.command.inputFile? with
    | some path => readText? path
    | none => pure none
  let before ← snapshot directory
  let setting : Command.Setting :=
    ⟨invocation.json, fun _ => input, ← now, UInt32.ofNat (← randomNat 4),
      UInt64.ofNat (← randomNat 8)⟩
  let (result, after) := Command.run setting invocation.command before
  commit directory before after
  let written ← match result with
    | .ok (.file path content) => writeText path content
    | _ => pure true
  -- a simulation is waited for as long as it takes
  match Command.answer invocation.command written true result with
  | .ok text =>
    IO.print text
    return 0
  | .error e =>
    IO.eprintln ("Error: " ++ e.message)
    return 1

end Reckoner.Main

def main (arguments : List String) : IO UInt32 := do
  match Reckoner.Invocation.parse arguments with
  | .ok invocation => Reckoner.Main.carryOut invocation
  | .error .helpWanted =>
    IO.print Reckoner.Main.help
    return 0
  | .error .nothingGiven =>
    IO.eprint Reckoner.Main.help
    return 2
  | .error e =>
    IO.eprintln ("error: " ++ e.message)
    return 2
