import Reckoner.Session.Basic
import Reckoner.Timestamp.Basic

/-!
# `Reckoner.Session.Saved` — sessions in the saved list
-/

namespace Reckoner

/-- A session under an id and a title, with the instant it was saved. -/
structure SavedSession where
  id : String
  title : String
  updatedAt : Timestamp
  session : Session
deriving BEq, DecidableEq

end Reckoner
