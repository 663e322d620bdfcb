/-!
# `Reckoner.Log` — keeping a log file small

A log that has grown beyond a limit keeps its end only. The cut may fall inside a line: the rest of
that line is dropped too, and a marker line takes the place of all that is gone.
-/

namespace Reckoner.Log

/-- The size beyond which a log is cut, in bytes. -/
def sizeLimit : Nat := 5 * 1024 * 1024

/-- How much of a log is kept, in bytes. -/
def keptSize : Nat := 1024 * 1024

/-- The name of the log file. -/
def fileName : String := "sanity.log"

/-- The byte that ends a line. -/
def newline : UInt8 := 10

/-- The line in place of what is gone. -/
def marker : List UInt8 :=
  "--- Log rotated (older entries removed) ---\n".toUTF8.toList

/-- What follows the first line end; everything, if there is none. -/
def afterFirstLine (bytes : List UInt8) : List UInt8 :=
  match bytes.dropWhile (· != newline) with
  | [] => bytes
  | _ :: rest => rest

/-- The log after a check of its size. -/
def rotate (limit keep : Nat) (bytes : List UInt8) : List UInt8 :=
  if bytes.length ≤ limit then bytes
  else marker ++ afterFirstLine (bytes.drop (bytes.length - keep))

end Reckoner.Log
