import Reckoner.Statistics.Scalar

/-!
# `Reckoner.Statistics.Quantile` — quantiles of sorted samples

The quantile at `p` lies at rank `p · (n - 1)` among `n` sorted values; between two ranks it is
interpolated.
-/

namespace Reckoner.Statistics

variable {α : Type} [Scalar α]

/-- A probability: between 0 and 1. -/
def isProbability (p : α) : Bool := Scalar.le (Scalar.ofNat 0) p && Scalar.le p (Scalar.ofNat 1)

/-- The value at a rank with a whole part and a fraction; beyond the last rank, the last value. -/
def atRank (sorted : Array α) (whole : Nat) (fraction : α) : Option α :=
  match sorted[whole]?, sorted[whole + 1]? with
  | some x, some y => some ((Scalar.ofNat 1 - fraction) * x + fraction * y)
  | _, _ => sorted.back?

/-- The quantile of sorted values at a probability. -/
def quantile (sorted : Array α) (p : α) : Option α :=
  if sorted.isEmpty || !isProbability p then none
  else if sorted.size == 1 then sorted[0]?
  else
    let rank := Scalar.ofNat (sorted.size - 1) * p
    atRank sorted (Scalar.index rank) (rank - Scalar.floor rank)

end Reckoner.Statistics
