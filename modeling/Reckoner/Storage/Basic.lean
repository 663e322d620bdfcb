/-!
# `Reckoner.Storage.Basic` — texts under keys

A storage keeps a text under each key. Every operation may fail; a failed write may leave traces,
but whether it does is up to the storage.
-/

namespace Reckoner

/-- Why an operation on a storage failed. -/
inductive StorageError where
  /-- The medium failed. -/
  | io
  | invalidKey (key : String)
  | quotaExceeded (quota : Nat)
deriving DecidableEq, Repr

/-- The error in words; of a failure of the medium nothing more is known. -/
def StorageError.message : StorageError → String
  | .io => "IO error"
  | .invalidKey key => "Invalid key: " ++ key
  | .quotaExceeded quota =>
    "Storage not available: quota of " ++ toString quota ++ " bytes exceeded"

/-- Texts under keys. -/
class Storage (σ : Type) where
  /-- The text under a key, if there is one. -/
  get : σ → String → Except StorageError (Option String)
  /-- Puts a text under a key, in place of an earlier one. -/
  set : σ → String → String → Except StorageError Unit × σ
  /-- Removes a key, if it is there. -/
  remove : σ → String → Except StorageError Unit × σ

end Reckoner
