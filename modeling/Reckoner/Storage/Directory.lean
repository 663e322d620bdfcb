import Reckoner.Storage.Basic

/-!
# `Reckoner.Storage.Directory` — one file for each key

A text is written beside its file first and then renamed onto it, so that no reader ever sees half
a text.

## Contents
- **Directories.** `Directory`: named files and directories, and the steps that change them.
- **Keys.** Which keys have a file, and its name.
- **Storage.** `setSteps` lists the steps of a write; a failed step stops it.
-/

namespace Reckoner

/-! ## Directories -/

/-- What a name stands for. -/
inductive DirectoryEntry where
  | file (content : ByteArray)
  | folder

/-- The entry is a directory. -/
def DirectoryEntry.isFolder : DirectoryEntry → Bool
  | .file _ => false
  | .folder => true

/-- The names in a directory, each once. A directory that does not exist yet has none. -/
structure Directory where
  present : Bool := false
  entries : List (String × DirectoryEntry) := []
  /-- The longest name in bytes, where there is one. -/
  nameLimit : Option Nat := some 255

/-- A step that changes a directory. -/
inductive DirectoryStep where
  /-- Makes sure that the directory is there. -/
  | create
  /-- Writes a file. -/
  | write (name : String) (content : ByteArray)
  /-- Gives a file another name, in place of the file of that name, at once. -/
  | rename (source target : String)
  /-- Deletes a file. -/
  | delete (name : String)

namespace Directory

/-- The entry of a name. -/
def find? (d : Directory) (name : String) : Option DirectoryEntry := d.entries.lookup name

/-- The entries without a name. -/
def without (d : Directory) (name : String) : List (String × DirectoryEntry) :=
  d.entries.filter fun entry => entry.1 != name

/-- The directory with an entry under a name. -/
def insert (d : Directory) (name : String) (entry : DirectoryEntry) : Directory :=
  { d with entries := (name, entry) :: d.without name }

/-- The directory is there, and the name is too long to be looked for in it. -/
def refusesName (d : Directory) (name : String) : Bool :=
  d.present && d.nameLimit.any (· < name.utf8ByteSize)

/-- A file may be put under the name. -/
def admitsFile (d : Directory) (name : String) : Bool :=
  d.present && !d.refusesName name && !(d.find? name).any DirectoryEntry.isFolder

/-- The text of a file; nothing when no such name is there. -/
def read (d : Directory) (name : String) : Except StorageError (Option String) :=
  if d.refusesName name then .error .io
  else
    match d.find? name with
    | some (.file content) =>
      match String.fromUTF8? content with
      | some text => .ok (some text)
      | none => .error .io
    | some .folder => .error .io
    | none => .ok none

/-- The directory after a step, or nothing when the step fails. -/
def apply (d : Directory) : DirectoryStep → Option Directory
  | .create => some { d with present := true }
  | .write name content =>
    if d.admitsFile name then some (d.insert name (.file content)) else none
  | .rename source target =>
    match d.find? source with
    | some (.file content) =>
      if d.admitsFile target then
        some ({ d with entries := d.without source }.insert target (.file content))
      else none
    | _ => none
  | .delete name =>
    if d.refusesName name then none
    else
      match d.find? name with
      | some .folder => none
      | _ => some { d with entries := d.without name }

/-- Takes steps up to the first that fails, and tells whether none did. -/
def run (d : Directory) : List DirectoryStep → Bool × Directory
  | [] => (true, d)
  | step :: steps =>
    match d.apply step with
    | some d' => d'.run steps
    | none => (false, d)

/-- The names in a directory, in order. -/
def names (d : Directory) : List String := (d.entries.map (·.1)).mergeSort (· ≤ ·)

/-! ## Keys -/

/-- The characters of a key. -/
def isKeyChar (c : Char) : Bool := c.isAlphanum || c == '.' || c == '_' || c == '-'

/-- A key that can be the name of a file: not empty, not hidden, and without a path. -/
def isKey (key : String) : Bool :=
  match key.toList with
  | [] => false
  | c :: cs => c != '.' && isKeyChar c && cs.all isKeyChar

/-- The file of a key. -/
def fileName (key : String) : String := key ++ ".json"

/-- The file beside it, in which a text is prepared. -/
def draftName (key : String) : String := key ++ ".json.tmp"

/-! ## Storage -/

/-- The steps of a write. -/
def setSteps (key : String) (content : ByteArray) : List DirectoryStep :=
  [.create, .write (draftName key) content, .rename (draftName key) (fileName key)]

/-- Takes the steps of an operation on a key. -/
def operate (d : Directory) (key : String) (steps : List DirectoryStep) :
    Except StorageError Unit × Directory :=
  if isKey key then
    match d.run steps with
    | (true, d') => (.ok (), d')
    | (false, d') => (.error .io, d')
  else (.error (.invalidKey key), d)

end Directory

instance : Storage Directory where
  get d key :=
    if Directory.isKey key then d.read (Directory.fileName key) else .error (.invalidKey key)
  set d key text := d.operate key (Directory.setSteps key text.toUTF8)
  remove d key := d.operate key [.delete (Directory.fileName key)]

end Reckoner
