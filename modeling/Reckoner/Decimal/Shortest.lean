import Reckoner.Decimal.Basic

/-!
# `Reckoner.Decimal.Shortest` — the shortest decimal that reads back

A decimal reads back as a double when it lies in the double's rounding interval: no further from
it than half the gap to its neighbours, the ends included when the mantissa is even. Among these
decimals `shortest` finds one with the fewest digits, and of those the nearest.

The search is exact: every grid of `1, 2, … 17` digits is tested at the two neighbours of the
value on it, in natural numbers.
-/

namespace Reckoner.Decimal

/-- Which of two equally near decimals is taken. -/
inductive Tie where
  | toEven
  | up
deriving DecidableEq, Repr

/-- The lower of two neighbours `below` and `below + 1`, or the upper one, on a tie. -/
def Tie.choose (tie : Tie) (below : Nat) : Nat :=
  match tie with
  | .toEven => if below % 2 == 0 then below else below + 1
  | .up => below + 1

/-- A rounding interval, in units common to all its parts: the value `num / den`, and how far it
    reaches down and up. -/
structure Interval where
  num : Nat
  den : Nat
  down : Nat
  up : Nat
  closed : Bool

/-- The rounding interval of a positive double, in quarters of its last place. -/
def Interval.ofBinary (b : Binary) : Interval :=
  let down := if b.atPowerOfTwo then 1 else 2
  let q := b.exponent - 2
  if 0 ≤ q then
    let unit := Nat.pow 2 q.toNat
    ⟨4 * b.mantissa * unit, 1, down * unit, 2 * unit, b.mantissa % 2 == 0⟩
  else ⟨4 * b.mantissa, Nat.pow 2 (-q).toNat, down, 2, b.mantissa % 2 == 0⟩

/-- The interval after division by `10 ^ k`. -/
def Interval.scale (i : Interval) (k : Int) : Interval :=
  if 0 ≤ k then { i with den := i.den * Nat.pow 10 k.toNat }
  else
    let unit := Nat.pow 10 (-k).toNat
    { i with num := i.num * unit, down := i.down * unit, up := i.up * unit }

/-- A point at the given distance from the value is inside a side of that reach. -/
def Interval.admits (i : Interval) (distance reach : Nat) : Bool :=
  if i.closed then distance ≤ reach else distance < reach

/-- The whole number of the interval that is nearest to its value, if there is one. -/
def Interval.whole (tie : Tie) (i : Interval) : Option Nat :=
  let below := i.num / i.den
  let rest := i.num % i.den
  let lower := i.admits rest i.down
  let upper := i.admits (i.den - rest) i.up
  match lower, upper with
  | false, false => none
  | true, false => some below
  | false, true => some (below + 1)
  | true, true =>
    if 2 * rest < i.den then some below
    else if i.den < 2 * rest then some (below + 1)
    else some (tie.choose below)

/-- The power of ten of the first digit of a positive fraction. -/
def leadingExponent (num den : Nat) : Int :=
  let guess : Int := (digitsOf num).length - (digitsOf den).length
  let reached : Bool :=
    if 0 ≤ guess then den * Nat.pow 10 guess.toNat ≤ num
    else den ≤ num * Nat.pow 10 (-guess).toNat
  if reached then guess else guess - 1

/-- The shortest decimal that reads back as a positive double. -/
def shortest (tie : Tie) (b : Binary) : Decimal :=
  let i := Interval.ofBinary b
  let top := leadingExponent i.num i.den
  let grid (places : Nat) : Option Decimal :=
    let k := top - places
    ((i.scale k).whole tie).map fun c => ⟨c, k⟩
  match (List.range 18).findSome? grid with
  | some d => d.normalize
  | none => ⟨b.mantissa, 0⟩

end Reckoner.Decimal
