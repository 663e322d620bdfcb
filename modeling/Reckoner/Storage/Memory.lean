import Reckoner.Storage.Basic

/-!
# `Reckoner.Storage.Memory` — storage in memory, with an optional quota

The quota bounds the bytes of all keys and texts together. A write that would exceed it is refused
and changes nothing.
-/

namespace Reckoner

/-- Entries, each key once, and the quota in bytes. -/
structure MemoryStorage where
  entries : List (String × String) := []
  quota : Option Nat := none

namespace MemoryStorage

/-- The bytes of a key and its text. -/
def entrySize (entry : String × String) : Nat := entry.1.utf8ByteSize + entry.2.utf8ByteSize

/-- The bytes of all entries. -/
def used (m : MemoryStorage) : Nat := m.entries.foldr (fun entry n => entrySize entry + n) 0

/-- The text under a key. -/
def get (m : MemoryStorage) (key : String) : Option String := m.entries.lookup key

/-- The entries without a key. -/
def without (m : MemoryStorage) (key : String) : List (String × String) :=
  m.entries.filter fun entry => entry.1 != key

/-- The storage without a key. -/
def remove (m : MemoryStorage) (key : String) : MemoryStorage := { m with entries := m.without key }

/-- The storage with a text under a key, whatever the quota. -/
def insert (m : MemoryStorage) (key text : String) : MemoryStorage :=
  { m with entries := (key, text) :: m.without key }

/-- The storage with a text under a key, if the quota admits it. -/
def set (m : MemoryStorage) (key text : String) : Except StorageError MemoryStorage :=
  match m.quota with
  | none => .ok (m.insert key text)
  | some quota =>
    if (m.insert key text).used ≤ quota then .ok (m.insert key text)
    else .error (.quotaExceeded quota)

end MemoryStorage

instance : Storage MemoryStorage where
  get m key := .ok (m.get key)
  set m key text :=
    match m.set key text with
    | .ok m' => (.ok (), m')
    | .error e => (.error e, m)
  remove m key := (.ok (), m.remove key)

end Reckoner
