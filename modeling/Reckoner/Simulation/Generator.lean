/-!
# `Reckoner.Simulation.Generator` — sources of random words

## Contents
- **Generators.** `Generator σ`: any state machine that yields words of 64 bits.
- **Xoshiro.** `xoshiro`: the generator xoshiro256++, seeded by `splitMix`.
- **Cycles.** `cycle`: a fixed list of words over and over.
-/

namespace Reckoner.Simulation

/-! ## Generators -/

/-- A state machine that yields words. -/
structure Generator (σ : Type) where
  next : σ → UInt64 × σ

/-! ## Xoshiro -/

/-- A word rotated to the left. -/
def rotateLeft (x : UInt64) (k : UInt64) : UInt64 := (x <<< k) ||| (x >>> (64 - k))

/-- The output of SplitMix64 at a state. -/
def splitMix (state : UInt64) : UInt64 :=
  let z := (state ^^^ (state >>> 30)) * 0xbf58476d1ce4e5b9
  let z := (z ^^^ (z >>> 27)) * 0x94d049bb133111eb
  z ^^^ (z >>> 31)

/-- The increment of the states of SplitMix64. -/
def goldenGamma : UInt64 := 0x9e3779b97f4a7c15

/-- The state of xoshiro256. -/
structure Xoshiro where
  s0 : UInt64
  s1 : UInt64
  s2 : UInt64
  s3 : UInt64
deriving DecidableEq, Repr

/-- Four outputs of SplitMix64 from a seed. -/
def Xoshiro.ofSeed (seed : UInt64) : Xoshiro :=
  ⟨splitMix (seed + goldenGamma), splitMix (seed + 2 * goldenGamma),
    splitMix (seed + 3 * goldenGamma), splitMix (seed + 4 * goldenGamma)⟩

/-- One step of xoshiro256++. -/
def Xoshiro.next (s : Xoshiro) : UInt64 × Xoshiro :=
  let output := rotateLeft (s.s0 + s.s3) 23 + s.s0
  let s2 := s.s2 ^^^ s.s0
  let s3 := s.s3 ^^^ s.s1
  (output, ⟨s.s0 ^^^ s3, s.s1 ^^^ s2, s2 ^^^ (s.s1 <<< 17), rotateLeft s3 45⟩)

/-- The generator xoshiro256++. -/
def xoshiro : Generator Xoshiro := ⟨Xoshiro.next⟩

/-! ## Cycles -/

/-- A list of words, and those of them that are still to come in this round. -/
structure Cycle where
  words : List UInt64
  left : List UInt64

/-- The next word; an empty list yields zeros. -/
def Cycle.next (c : Cycle) : UInt64 × Cycle :=
  match c.left, c.words with
  | w :: rest, _ => (w, { c with left := rest })
  | [], w :: rest => (w, { c with left := rest })
  | [], [] => (0, c)

/-- A generator that repeats a list of words. -/
def cycle : Generator Cycle := ⟨Cycle.next⟩

end Reckoner.Simulation
