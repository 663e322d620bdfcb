import Reckoner.Session.Basic
import Reckoner.Simulation.Generator
import Reckoner.Simulation.Layers

/-!
# `Reckoner.Simulation.Sampler` — drawing a variable between its bounds

## Contents
- **Fractions.** Doubles made of the leading bits of a word.
- **Uniform.** A scale and an offset, the scale being the largest that stays below the upper bound.
- **Normal.** A standard normal value is drawn by the ziggurat method: a random point of a random
  layer is accepted when it lies under the density. A draw that is rejected at each of so many
  attempts has no value.
- **Samplers.** `Sampler.ofVariable?` and `Sampler.draw`.
-/

namespace Reckoner.Simulation

variable {σ : Type}

/-! ## Fractions -/

/-- The double with the given exponent whose mantissa is the leading 52 bits of a word. -/
def withExponent (exponent : UInt64) (word : UInt64) : Float :=
  Float.ofBits (((exponent + 1023) <<< 52) ||| (word >>> 12))

/-- A number from 0 up to but not 1. -/
def unitFraction (word : UInt64) : Float := withExponent 0 word - 1.0

/-- A number strictly between 0 and 1. -/
def openFraction (word : UInt64) : Float :=
  withExponent 0 word - (1.0 - Float.ofBits 0x3ca0000000000000)

/-- A number from -1 up to but not 1. -/
def signedFraction (word : UInt64) : Float := withExponent 1 word - 3.0

/-- A number from 0 up to but not 1, of the leading 53 bits of a word. -/
def fineFraction (word : UInt64) : Float :=
  Float.ofNat (word >>> 11).toNat * Float.ofBits 0x3ca0000000000000

/-- How often a draw may be repeated. -/
def attempts : Nat := 0x100000000

/-! ## Uniform -/

/-- The largest value of `unitFraction`. -/
def largestFraction : Float := unitFraction 0xffffffffffffffff

/-- The greatest double, among those with at most the given bits, that scales the largest fraction
    to at most the upper bound. -/
def fittingScale (lower upper : Float) : Nat → Float
  | 0 => 0.0
  | bits + 1 =>
    let scale := Float.ofBits (UInt64.ofNat (bits + 1))
    if upper < scale * largestFraction + lower then fittingScale lower upper bits else scale

/-- The scale of a uniform distribution, unless the range is too wide. -/
def uniformScale? (lower upper : Float) : Option Float :=
  let scale := (upper - lower) / largestFraction
  if scale.isFinite then some (fittingScale lower upper scale.toBits.toNat) else none

/-! ## Normal -/

/-- A distance beyond the start of the tail, drawn exponentially. -/
def tailDistance (g : Generator σ) : Nat → Float → Float → σ → Option (Float × σ)
  | 0, _, _, _ => none
  | n + 1, x, y, s =>
    if -2.0 * y < x * x then
      let (a, s) := g.next s
      let (b, s) := g.next s
      tailDistance g n (Float.log (openFraction a) / tailStart) (Float.log (openFraction b)) s
    else some (x, s)

/-- A value of the tail on the side of a fraction's sign. -/
def tailValue (g : Generator σ) (n : Nat) (u : Float) (s : σ) : Option (Float × σ) :=
  (tailDistance g n 1.0 0.0 s).map fun (x, s) =>
    (if u < 0.0 then x - tailStart else tailStart - x, s)

/-- The normal density, without its constant factor. -/
def density (x : Float) : Float := Float.exp (-x * x / 2.0)

/-- A standard normal value. -/
def standardNormal (g : Generator σ) : Nat → σ → Option (Float × σ)
  | 0, _ => none
  | n + 1, s =>
    let (bits, s) := g.next s
    let i := (bits &&& 0xff).toNat
    let u := signedFraction bits
    let x := u * layerEdge i
    if x.abs < layerEdge (i + 1) then some (x, s)
    else if i == 0 then tailValue g (n + 1) u s
    else
      let (word, s) := g.next s
      let height :=
        layerHeight (i + 1) + (layerHeight i - layerHeight (i + 1)) * fineFraction word
      if height < density x then some (x, s) else standardNormal g n s

/-! ## Samplers -/

/-- How a variable is drawn. -/
inductive Sampler where
  | constant (value : Float)
  | uniform (lower scale : Float)
  | normal (mean deviation : Float)

namespace Sampler

/-- The middle of a range, for distributions that cannot be used. -/
def midpoint (lower upper : Float) : Float := (lower + upper) / 2.0

/-- The sampler of a distribution between two different bounds. -/
def ofDistribution (sigmaDivisor : Float) (d : Distribution) (lower upper : Float) : Sampler :=
  match d with
  | .uniform =>
    match uniformScale? lower upper with
    | some scale => .uniform lower scale
    | none => .constant (midpoint lower upper)
  | .normal =>
    let deviation := (upper - lower) / sigmaDivisor
    if deviation.isFinite then .normal (midpoint lower upper) deviation
    else .constant (midpoint lower upper)

/-- The sampler of a variable with a distribution and bounds in order. Bounds that meet leave one
    value. -/
def ofVariable? (sigmaDivisor : Float) (v : Variable) : Option Sampler := do
  let d ← v.distribution
  let (lower, upper) ← v.range?
  return if lower == upper then .constant lower else ofDistribution sigmaDivisor d lower upper

/-- Draws a value. A normal draw that does not come to an end, because all attempts are rejected,
    leaves the mean. -/
def draw (g : Generator σ) (sampler : Sampler) (s : σ) : Float × σ :=
  match sampler with
  | constant value => (value, s)
  | uniform lower scale =>
    let (word, s) := g.next s
    (unitFraction word * scale + lower, s)
  | normal mean deviation =>
    match standardNormal g attempts s with
    | some (z, s) => (mean + deviation * z, s)
    | none => (mean, s)

end Sampler

end Reckoner.Simulation
