/-!
# `Reckoner.Formula.Expr` — formula trees

## Contents
- **Operators.** `BinaryOp` with its precedence and the precedence its right operand starts at.
- **Trees.** `Expr`, its height, and the symbols it mentions.
-/

namespace Reckoner

/-! ## Operators -/

/-- The operators between two operands. -/
inductive BinaryOp where
  | add
  | sub
  | mul
  | div
  | pow
deriving DecidableEq, Repr

/-- How tightly an operator binds. -/
def BinaryOp.precedence : BinaryOp → Nat
  | .add | .sub => 10
  | .mul | .div => 20
  | .pow => 40

/-- How tightly a sign binds: tighter than a product, less tightly than a power. -/
def signPrecedence : Nat := 30

/-- The loosest operator inside a right operand: its own kind only for the power, which groups to
    the right. -/
def BinaryOp.rightPrecedence (op : BinaryOp) : Nat :=
  match op with
  | .pow => op.precedence
  | _ => op.precedence + 1

/-! ## Trees -/

/-- A formula without its parentheses and plus signs. -/
inductive Expr where
  | number (value : Float)
  | symbol (name : String)
  | neg (operand : Expr)
  | binary (op : BinaryOp) (left right : Expr)

namespace Expr

/-- The number of nodes on the longest path. -/
def height : Expr → Nat
  | .number _ | .symbol _ => 1
  | .neg operand => operand.height + 1
  | .binary _ left right => max left.height right.height + 1

/-- Every mention of a symbol, from left to right. -/
def mentions : Expr → List String
  | .number _ => []
  | .symbol name => [name]
  | .neg operand => operand.mentions
  | .binary _ left right => left.mentions ++ right.mentions

/-- The distinct symbols, in order of first mention. -/
def symbols (e : Expr) : List String :=
  e.mentions.foldl (fun known name => if name ∈ known then known else known ++ [name]) []

end Expr

end Reckoner
