import Reckoner.Decimal.Layout
import Reckoner.Diagnostic
import Reckoner.Formula.Bindings
import Reckoner.Formula.Expr
import Reckoner.Formula.Power

/-!
# `Reckoner.Formula.Evaluate` — value and unit of a tree

Values and units are computed side by side. A sum has the unit of its left operand, products and
quotients combine units, a power multiplies exponents; where the units do not fit, a diagnostic is
raised and evaluation goes on.

## Contents
- **Operators.** `BinaryOp.apply` on values, with `raise` for powers and its special values;
  `BinaryOp.unit` on units.
- **Trees.** `Expr.measure`: the value, the unit and the diagnostics of a tree.
-/

namespace Reckoner

/-- A value with its unit, and what was remarked while computing them. -/
structure Measure where
  value : Float
  unit : CompoundUnit
  remarks : List Diagnostic

/-! ## Operators -/

/-- The double is an odd whole number. -/
def isOdd (x : Float) : Bool :=
  match whole? x with
  | some n => n % 2 != 0
  | none => false

/-- A double raised to an infinity of the given sign: where its powers tend to. -/
def raiseToInfinity (x : Float) (negative : Bool) : Float :=
  if x.abs == 1.0 then 1.0
  else if decide (x.abs < 1.0) == negative then 1.0 / 0.0
  else 0.0

/-- An infinity of the given sign raised to a double, which is neither an infinity nor zero. -/
def raiseInfinity (negative : Bool) (y : Float) : Float :=
  let magnitude : Float := if y < 0.0 then 0.0 else 1.0 / 0.0
  if negative && isOdd y then -magnitude else magnitude

/-- A double raised to a double. Powers of 1 and powers with the exponent 0 are exactly 1, even where
    the other number is not a number; infinities follow the standard on floating-point arithmetic. -/
def raise (x y : Float) : Float :=
  if x == 1.0 || y == 0.0 then 1.0
  else if x.isNaN || y.isNaN then 0.0 / 0.0
  else if y.isInf then raiseToInfinity x (y < 0.0)
  else if x.isInf then raiseInfinity (x < 0.0) y
  else Float.pow x y

/-- The value of an operation. -/
def BinaryOp.apply : BinaryOp → Float → Float → Float
  | .add, x, y => x + y
  | .sub, x, y => x - y
  | .mul, x, y => x * y
  | .div, x, y => x / y
  | .pow, x, y => raise x y

/-- A unit, or the dimensionless one with the remark that an exponent left its range. -/
def orOverflow (base : CompoundUnit) : Option CompoundUnit → CompoundUnit × List Diagnostic
  | some u => (u, [])
  | none =>
    (.dimensionless, [.invalidFormula ("unit exponent overflow in '" ++ base.label ++ "'")])

/-- The unit of a sum or difference. -/
def sumUnit (left right : CompoundUnit) : CompoundUnit × List Diagnostic :=
  (left, if left.sameAs right then [] else [.unitMismatch left.display right.display])

/-- The unit of a power, given the value of its exponent. -/
def powerUnit (base exponentUnit : CompoundUnit) (exponent : Float) :
    CompoundUnit × List Diagnostic :=
  let misplaced : List Diagnostic :=
    if exponentUnit.isDimensionless then []
    else [.unitMismatch CompoundUnit.dimensionlessLabel exponentUnit.display]
  if base.isDimensionless then (.dimensionless, misplaced)
  else
    match wholeExponent? exponent with
    | some n =>
      let (unit, remarks) := orOverflow base (base.power n)
      (unit, misplaced ++ remarks)
    | none =>
      (.dimensionless, misplaced ++ [.invalidFormula
        ("non-integer exponent " ++ Decimal.Layout.plain.render exponent ++ " applied to unit '" ++
          base.label ++ "'")])

/-- The unit of an operation, given the value of its right operand. -/
def BinaryOp.unit (op : BinaryOp) (left right : CompoundUnit) (y : Float) :
    CompoundUnit × List Diagnostic :=
  match op with
  | .add | .sub => sumUnit left right
  | .mul => orOverflow left (CompoundUnit.combine .multiply left right)
  | .div => orOverflow left (CompoundUnit.combine .divide left right)
  | .pow => powerUnit left right y

/-! ## Trees -/

/-- The value, unit and remarks of a tree; the remarks of the operands come first. A symbol without
    a binding stands for no number. -/
def Expr.measure (b : Bindings) : Expr → Measure
  | .number value => ⟨value, .dimensionless, []⟩
  | .symbol name =>
    match b.find? name with
    | some binding => ⟨binding.value, binding.unit, []⟩
    | none => ⟨0.0 / 0.0, .dimensionless, []⟩
  | .neg operand =>
    let m := operand.measure b
    ⟨-m.value, m.unit, m.remarks⟩
  | .binary op left right =>
    let l := left.measure b
    let r := right.measure b
    let (unit, remarks) := op.unit l.unit r.unit r.value
    ⟨op.apply l.value r.value, unit, l.remarks ++ r.remarks ++ remarks⟩

end Reckoner
