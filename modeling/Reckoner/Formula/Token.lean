import Reckoner.Decimal.Layout

/-!
# `Reckoner.Formula.Token` — tokens and the errors of a formula

## Contents
- **Tokens.** `Token`, and `Placed` for a token with its position.
- **Errors.** `FormulaError`: why a text is not a formula, with `message` for the wording.
-/

namespace Reckoner

/-! ## Tokens -/

/-- A token of a formula. -/
inductive Token where
  | plus
  | minus
  | star
  | slash
  | caret
  | openParen
  | closeParen
  | number (value : Float)
  | symbol (name : String)

/-- A token as error messages name it. -/
def Token.describe : Token → String
  | .plus => "'+'"
  | .minus => "'-'"
  | .star => "'*'"
  | .slash => "'/'"
  | .caret => "'^'"
  | .openParen => "'('"
  | .closeParen => "')'"
  | .number value => "number " ++ Decimal.Layout.plain.render value
  | .symbol name => "symbol '" ++ name ++ "'"

/-- A token and the position of its first character, counted in characters from 1. -/
structure Placed where
  token : Token
  position : Nat

/-! ## Errors -/

/-- What a parser could have gone on with. -/
inductive Expected where
  | operand
  | closeParen
  | operatorOrEnd
deriving DecidableEq, Repr

/-- The expectation in words. -/
def Expected.text : Expected → String
  | .operand => "a number, symbol or '('"
  | .closeParen => "')'"
  | .operatorOrEnd => "an operator or end of formula"

/-- The deepest nesting and the greatest height of a formula. -/
def maxDepth : Nat := 256

/-- Why a text is not a formula. -/
inductive FormulaError where
  | empty
  | unexpectedCharacter (found : String) (position : Nat)
  | unexpectedToken (found : Placed) (expected : Expected)
  | unexpectedEnd (expected : Expected)
  | tooDeep

/-- The error in words. -/
def FormulaError.message : FormulaError → String
  | .empty => "formula is empty"
  | .unexpectedCharacter found position =>
    "unexpected character '" ++ found ++ "' at position " ++ toString position
  | .unexpectedToken found expected =>
    "unexpected " ++ found.token.describe ++ " at position " ++ toString found.position ++
      ", expected " ++ expected.text
  | .unexpectedEnd expected => "unexpected end of formula, expected " ++ expected.text
  | .tooDeep => "formula nests deeper than " ++ toString maxDepth ++ " levels"

end Reckoner
