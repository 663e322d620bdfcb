import Reckoner.Formula.Expr
import Reckoner.Formula.Token

/-!
# `Reckoner.Formula.Parser` — from tokens to a tree

Operator precedence parsing. `expression` reads one operand and then every operator that binds at
least as tightly as asked, together with its right operand. Sums and products group to the left,
powers to the right; a sign stands between products and powers, so `-x^2` is `-(x^2)`.

Parentheses, signs and right operands each use up one level of nesting, and the height of the tree
is checked as it grows against the greatest height `tallest`: `parse` bounds both by `maxDepth`. The
levels left are what the recursion descends on; the chain of operators at one level descends on the
tokens.
-/

namespace Reckoner.Formula

/-- A tree read from the front of a token list, its height, and the tokens behind it. -/
structure Parsed (ts : List Placed) where
  tree : Expr
  height : Nat
  rest : List Placed
  shorter : rest.length < ts.length

/-- A reader of operands: the loosest operator it may contain, and the tokens. -/
abbrev OperandReader := Nat → (ts : List Placed) → Except FormulaError (Parsed ts)

/-- The operator of a token. -/
def operator? : Token → Option BinaryOp
  | .plus => some .add
  | .minus => some .sub
  | .star => some .mul
  | .slash => some .div
  | .caret => some .pow
  | _ => none

/-- The height of a node above a tree, unless it is too great. -/
def grow (tallest height : Nat) : Except FormulaError Nat :=
  if tallest < height + 1 then .error .tooDeep else .ok (height + 1)

/-- A number, a symbol, or a formula in parentheses. -/
def atom (operand : OperandReader) : (ts : List Placed) → Except FormulaError (Parsed ts)
  | [] => .error (.unexpectedEnd .operand)
  | t :: ts =>
    match t.token with
    | .number value => .ok ⟨.number value, 1, ts, by simp⟩
    | .symbol name => .ok ⟨.symbol name, 1, ts, by simp⟩
    | .openParen => do
      let inner ← operand 0 ts
      match hr : inner.rest with
      | [] => .error (.unexpectedEnd .closeParen)
      | close :: rest =>
        match close.token with
        | .closeParen =>
          return ⟨inner.tree, inner.height, rest, by
            have := inner.shorter
            simp only [hr, List.length_cons] at this ⊢
            omega⟩
        | _ => .error (.unexpectedToken close .closeParen)
    | _ => .error (.unexpectedToken t .operand)

/-- An operand with its signs. -/
def signed (tallest : Nat) (operand : OperandReader) :
    (ts : List Placed) → Except FormulaError (Parsed ts)
  | [] => .error (.unexpectedEnd .operand)
  | t :: ts =>
    match t.token with
    | .minus => do
      let inner ← operand signPrecedence ts
      let height ← grow tallest inner.height
      return ⟨.neg inner.tree, height, inner.rest, Nat.lt_succ_of_lt inner.shorter⟩
    | .plus => do
      let inner ← operand signPrecedence ts
      return ⟨inner.tree, inner.height, inner.rest, Nat.lt_succ_of_lt inner.shorter⟩
    | _ => atom operand (t :: ts)

/-- A left operand followed by all operators that bind at least as tightly as `loosest`. The
    result leaves fewer tokens than `bound`. -/
def chain (tallest : Nat) (operand : OperandReader) (loosest bound : Nat) (left : Expr)
    (height : Nat) (ts : List Placed) (h : ts.length < bound) :
    Except FormulaError { p : Expr × Nat × List Placed // p.2.2.length < bound } :=
  match ts with
  | [] => .ok ⟨(left, height, []), h⟩
  | t :: rest =>
    match operator? t.token with
    | none => .ok ⟨(left, height, t :: rest), h⟩
    | some op =>
      if op.precedence < loosest then .ok ⟨(left, height, t :: rest), h⟩
      else
        match operand op.rightPrecedence rest with
        | .error e => .error e
        | .ok right =>
          match grow tallest (max height right.height) with
          | .error e => .error e
          | .ok height' =>
            chain tallest operand loosest bound (.binary op left right.tree) height' right.rest (by
              have := right.shorter
              simp only [List.length_cons] at h
              omega)
termination_by ts.length
decreasing_by
  have := right.shorter
  simp only [List.length_cons]
  omega

/-- A formula whose operators bind at least as tightly as asked, with that many levels of nesting
    left. -/
def expression (tallest : Nat) : Nat → OperandReader
  | 0, _, _ => .error .tooDeep
  | levels + 1, loosest, ts => do
    let first ← signed tallest (expression tallest levels) ts
    let ⟨(tree, height, rest), shorter⟩ ←
      chain tallest (expression tallest levels) loosest ts.length first.tree first.height first.rest
        first.shorter
    return ⟨tree, height, rest, shorter⟩

/-- The tree of a whole token list. -/
def parse (ts : List Placed) : Except FormulaError Expr :=
  if ts.isEmpty then .error .empty
  else do
    let parsed ← expression maxDepth maxDepth 0 ts
    match parsed.rest with
    | [] => return parsed.tree
    | t :: _ => .error (.unexpectedToken t .operatorOrEnd)

end Reckoner.Formula
