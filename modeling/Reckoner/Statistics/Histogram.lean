import Reckoner.Statistics.Scalar

/-!
# `Reckoner.Statistics.Histogram` — counting values in bins

The range of the values is divided into bins of equal width. A bin holds the values from its lower
edge up to but not its upper edge; the last one holds its upper edge too. Values that are all equal,
and a single bin asked for, make one bin with all values.
-/

namespace Reckoner.Statistics

variable {α : Type} [Scalar α]

/-- A bin: its edges and the number of values in it. -/
structure Bin (α : Type) where
  lower : α
  upper : α
  count : Nat

/-- What compares with itself; in doubles this leaves out what is not a number. -/
def isComparable (x : α) : Bool := Scalar.le x x

/-- The least of the comparable values; of equal ones the last. -/
def least (values : List α) : α :=
  match values.filter isComparable with
  | [] => Scalar.leastOfNone
  | x :: xs => xs.foldl (fun acc y => if Scalar.le y acc then y else acc) x

/-- The greatest of the comparable values; of equal ones the last. -/
def greatest (values : List α) : α :=
  match values.filter isComparable with
  | [] => Scalar.greatestOfNone
  | x :: xs => xs.foldl (fun acc y => if Scalar.le acc y then y else acc) x

/-- The bin a value falls in. -/
def binIndex (lower width : α) (bins : Nat) (value : α) : Nat :=
  min (Scalar.index (Scalar.floor ((value - lower) / width))) (bins - 1)

/-- How often each index below `bins` occurs. -/
def tally (bins : Nat) (indices : List Nat) : Array Nat :=
  indices.foldl (fun counts i => counts.modify i (· + 1)) (Array.replicate bins 0)

/-- The lower edge of a bin. -/
def edge (lower width : α) (i : Nat) : α := lower + width * Scalar.ofNat i

/-- Counts values in `bins` bins of equal width. -/
def histogram (values : List α) (bins : Nat) : List (Bin α) :=
  if values.isEmpty then []
  else
    let lower := least values
    let upper := greatest values
    let range := upper - lower
    if Scalar.le range (Scalar.ofNat 0) || bins ≤ 1 then [⟨lower, upper, values.length⟩]
    else
      let width := range / Scalar.ofNat bins
      let counts := tally bins (values.map (binIndex lower width bins))
      counts.toList.mapIdx fun i count =>
        ⟨edge lower width i, if i + 1 == bins then upper else edge lower width (i + 1), count⟩

end Reckoner.Statistics
