import Reckoner.Session.Document
import Reckoner.Storage.Basic

/-!
# `Reckoner.Store` — the last session and the saved list

Two documents are kept in a storage: the session last worked on, and the saved sessions, the most
recent first. What cannot be read back counts as absent, and a write that fails is given up
silently.

## Contents
- **Keys.** Where the documents are kept.
- **Documents.** Reading and writing the two documents.
- **Saved sessions.** `save`, `delete` and `find?`.
-/

namespace Reckoner.Store

variable {σ : Type} [Storage σ]

/-! ## Keys -/

/-- The key of the last session. -/
def lastKey : String := "sanity.lastSession"

/-- The key of the saved list. -/
def savedKey : String := "sanity.savedSessions"

/-- The length of the saved list. -/
def capacity : Nat := 25

/-! ## Documents -/

/-- The text under a key; a storage that fails counts as empty. -/
def readText (s : σ) (key : String) : Option String :=
  match Storage.get s key with
  | .ok text => text
  | .error _ => none

/-- Writes a text under a key, as far as possible. -/
def writeText (s : σ) (key text : String) : σ := (Storage.set s key text).2

/-- The last session. -/
def readLast (s : σ) : Option Session :=
  (readText s lastKey).bind fun text => (Session.ofJson text).toOption

/-- Remembers a session as the last one. -/
def writeLast (s : σ) (session : Session) : σ := writeText s lastKey session.toJson.compact

/-- The saved sessions, the most recent first. -/
def readSaved (s : σ) : List SavedSession :=
  ((readText s savedKey).bind fun text => (SavedSession.listOfJson text).toOption).getD []

/-- Replaces the saved list, as far as it fits. -/
def writeSaved (s : σ) (list : List SavedSession) : σ :=
  writeText s savedKey (SavedSession.listToJson (list.take capacity))

/-! ## Saved sessions -/

/-- The title of a session that has none. -/
def untitled : String := "Untitled session"

/-- The title a session is saved under: the given one, its own, or none of both. -/
def effectiveTitle (session : Session) (title : String) : String :=
  let given := Text.trim title
  if given != "" then given
  else ((session.title.map Text.trim).filter (· != "")).getD untitled

/-- A list with an entry in front, in place of an earlier one of that id, cut to the capacity. -/
def pushFront (saved : SavedSession) (list : List SavedSession) : List SavedSession :=
  (saved :: list.filter fun s => s.id != saved.id).take capacity

/-- A list without the entry of an id. -/
def withoutId (id : String) (list : List SavedSession) : List SavedSession :=
  list.filter fun s => s.id != id

/-- Saves a session under an id, in front of all others. -/
def save (s : σ) (session : Session) (title id : String) (now : Timestamp) : SavedSession × σ :=
  let saved : SavedSession := ⟨id, effectiveTitle session title, now, session⟩
  (saved, writeSaved s (pushFront saved (readSaved s)))

/-- Deletes the entry of an id and returns the list without it. Nothing is written when there is no
    such entry. -/
def delete (s : σ) (id : String) : List SavedSession × σ :=
  let list := readSaved s
  let rest := withoutId id list
  (rest, if rest.length == list.length then s else writeSaved s rest)

/-- The saved session of an id. -/
def find? (s : σ) (id : String) : Option SavedSession := (readSaved s).find? (·.id == id)

/-- The id of a session saved without one: the time in milliseconds and a random word. -/
def freshId (now : Timestamp) (word : UInt32) : String :=
  let digits := (List.range 8).map fun i => Json.hexDigit (word.toNat / Nat.pow 16 (7 - i) % 16)
  "session-" ++ toString now.milliseconds ++ "-" ++ String.ofList digits

end Reckoner.Store
