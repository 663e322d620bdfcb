/-!
# `Reckoner.CompoundUnit.Basic` — products of powers of named units

A compound unit such as `kg m/s^2` is a list of factors, a name with a whole exponent each. No
physical knowledge is involved: two names are different units unless they are the same text.

## Contents
- **Exponents.** `Exponent`: a whole number of 32 bits; its operations are exact or undefined.
- **Units.** `CompoundUnit` with the look-up `exponentOf`, and `addFactor`, which cancels.
- **Algebra.** `combine`, `power`, and the comparison `sameAs`.
-/

namespace Reckoner

/-! ## Exponents -/

/-- The whole numbers that an exponent may be. -/
def Exponent.Fits (n : Int) : Prop := -2147483648 ≤ n ∧ n ≤ 2147483647

instance (n : Int) : Decidable (Exponent.Fits n) := inferInstanceAs (Decidable (_ ∧ _))

/-- A whole number of 32 bits. -/
structure Exponent where
  val : Int
  fits : Exponent.Fits val := by decide
deriving DecidableEq

namespace Exponent

/-- The largest exponent. -/
def largest : Exponent := ⟨2147483647, by decide⟩

/-- The exponent of a factor written without one. -/
def one : Exponent := ⟨1, by decide⟩

/-- A number as an exponent, if it fits. -/
def ofInt? (n : Int) : Option Exponent := if h : Fits n then some ⟨n, h⟩ else none

/-- The exact sum, if it fits. -/
def add? (a b : Exponent) : Option Exponent := ofInt? (a.val + b.val)

/-- The exact negation, if it fits. -/
def neg? (a : Exponent) : Option Exponent := ofInt? (-a.val)

/-- The exact product with a number, if it fits. -/
def mul? (a : Exponent) (n : Int) : Option Exponent := ofInt? (a.val * n)

theorem ext {a b : Exponent} (h : a.val = b.val) : a = b := by
  cases a
  cases b
  simp_all

theorem ofInt?_eq_some_iff {n : Int} {e : Exponent} : ofInt? n = some e ↔ e.val = n := by
  unfold ofInt?
  split
  · rename_i h
    exact ⟨fun hs => by simp only [Option.some.injEq] at hs; rw [← hs], fun hs => by
      simp only [Option.some.injEq]; exact ext hs.symm⟩
  · rename_i h
    exact ⟨fun hs => by simp at hs, fun hs => absurd (hs ▸ e.fits) h⟩

theorem ofInt?_isSome_iff {n : Int} : (ofInt? n).isSome = true ↔ Fits n := by
  unfold ofInt?
  split <;> simp_all

end Exponent

/-! ## Units -/

/-- A named unit raised to an exponent. -/
structure Factor where
  name : String
  exponent : Exponent
deriving DecidableEq

/-- A product of factors, in the order in which they are written. -/
structure CompoundUnit where
  factors : List Factor
deriving DecidableEq

/-- The two ways to put units together. -/
inductive Combination where
  | multiply
  | divide
deriving DecidableEq, Repr

namespace CompoundUnit

/-- The unit of a pure number. -/
def dimensionless : CompoundUnit := ⟨[]⟩

/-- A unit without factors. -/
def isDimensionless (u : CompoundUnit) : Bool := u.factors.isEmpty

/-- The exponent of the first factor of that name, and 0 where there is none. -/
def exponentIn (name : String) : List Factor → Int
  | [] => 0
  | f :: fs => if f.name = name then f.exponent.val else exponentIn name fs

/-- The exponent of a name in a unit. -/
def exponentOf (u : CompoundUnit) (name : String) : Int := exponentIn name u.factors

/-- Adds an exponent to the first factor of that name, or appends a factor; a factor whose
    exponent becomes 0 disappears. -/
def addFactorTo (name : String) (e : Exponent) : List Factor → Option (List Factor)
  | [] => some (if e.val = 0 then [] else [⟨name, e⟩])
  | f :: fs =>
    if f.name = name then
      (f.exponent.add? e).map fun sum => if sum.val = 0 then fs else ⟨name, sum⟩ :: fs
    else (addFactorTo name e fs).map (f :: ·)

/-- The unit times one more factor, unless the exponent leaves its range. -/
def addFactor (u : CompoundUnit) (f : Factor) : Option CompoundUnit :=
  (addFactorTo f.name f.exponent u.factors).map CompoundUnit.mk

/-! ## Algebra -/

/-- A factor as it enters a product or, inverted, a quotient. -/
def Combination.factor? : Combination → Factor → Option Factor
  | .multiply, f => some f
  | .divide, ⟨name, e⟩ => e.neg?.map (⟨name, ·⟩)

/-- The product or quotient, unless an exponent leaves its range on the way. -/
def combine (how : Combination) (a b : CompoundUnit) : Option CompoundUnit :=
  b.factors.foldlM (fun u f => Combination.factor? how f >>= u.addFactor) a

/-- A whole power, unless an exponent leaves its range. -/
def power (u : CompoundUnit) (n : Int) : Option CompoundUnit :=
  if n = 0 then some dimensionless
  else (u.factors.mapM fun f : Factor => (f.exponent.mul? n).map (⟨f.name, ·⟩)).map CompoundUnit.mk

/-- Equally many factors, and the other unit has the exponent of each: the same unit whatever the
    order of the factors. -/
def sameAs (a b : CompoundUnit) : Bool :=
  a.factors.length == b.factors.length &&
    a.factors.all fun f => b.exponentOf f.name == f.exponent.val

/-- Names are distinct and no exponent is 0: the form that parsing and combining keep. -/
def Normal (u : CompoundUnit) : Prop :=
  (u.factors.map Factor.name).Nodup ∧ ∀ f ∈ u.factors, f.exponent.val ≠ 0

end CompoundUnit

end Reckoner
