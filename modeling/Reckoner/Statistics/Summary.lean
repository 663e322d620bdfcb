import Reckoner.Decimal.Basic
import Reckoner.Statistics.Quantile

/-!
# `Reckoner.Statistics.Summary` — mean, deviation and quantiles of samples

## Contents
- **Order.** `totalOrder` ranks doubles by their bits, from negative to positive; it tells the two
  zeros apart and has a place for what is not a number.
- **Moments.** `mean`, and `deviation` with the denominator `n - 1`.
- **Summaries.** `Summary.ofSamples` sorts first, so that the order of the samples has no
  influence.
-/

namespace Reckoner.Statistics

/-! ## Order -/

/-- The rank of a double among all doubles. -/
def rank (x : Float) : Int :=
  let n := x.toBits.toNat
  if n < Binary.signWeight then n else (Binary.signWeight : Int) - 1 - n

/-- The total order of the doubles. -/
def totalOrder (x y : Float) : Bool := rank x ≤ rank y

/-- Samples in the total order. -/
def sortSamples (samples : List Float) : List Float := samples.mergeSort totalOrder

/-! ## Moments -/

/-- The sum from left to right. -/
def sum (values : List Float) : Float := values.foldl (· + ·) (-0.0)

/-- The arithmetic mean. -/
def mean (values : List Float) : Option Float :=
  if values.isEmpty then none else some (sum values / Float.ofNat values.length)

/-- The sample standard deviation around a given centre; a single value has none. -/
def deviation (values : List Float) (centre : Float) : Float :=
  if values.length < 2 then 0.0
  else
    let squares := values.map fun v => (v - centre) * (v - centre)
    Float.sqrt (sum squares / Float.ofNat (values.length - 1))

/-! ## Summaries -/

/-- Mean, standard deviation and the quantiles at 5, 50 and 95 percent. -/
structure Summary where
  mean : Float
  deviation : Float
  p05 : Float
  p50 : Float
  p95 : Float

/-- The summary of sorted values. -/
def Summary.ofSorted (sorted : List Float) : Option Summary := do
  let centre ← Statistics.mean sorted
  let values := sorted.toArray
  return ⟨centre, Statistics.deviation sorted centre, ← quantile values 0.05,
    ← quantile values 0.50, ← quantile values 0.95⟩

/-- The summary of samples in any order; nothing when there are none. -/
def Summary.ofSamples (samples : List Float) : Option Summary :=
  Summary.ofSorted (sortSamples samples)

end Reckoner.Statistics
