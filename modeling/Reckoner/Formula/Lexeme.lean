import Reckoner.Decimal.Literal
import Reckoner.Formula.Token
import Reckoner.Text.Letter
import Reckoner.Text.Numeral

/-!
# `Reckoner.Formula.Lexeme` — from characters to tokens

## Contents
- **Lexemes.** `numberText` and `symbolText`: the longest number or symbol at the front of a text;
  `lexeme?`: the longest lexeme of any kind, with its token.
- **Scanning.** `tokenize` skips spaces, tabs and line breaks, takes the longest lexeme, and stops
  at the first character that starts none.
-/

namespace Reckoner.Formula

/-! ## Lexemes -/

/-- Characters between lexemes: space, tab, carriage return, line feed, form feed. -/
def isSkipped (c : Char) : Bool :=
  c == ' ' || c == '\t' || c == '\r' || c == '\n' || c == '\x0c'

/-- The first character of a symbol. -/
def isSymbolStart (c : Char) : Bool := Text.isLetter c || c == '_'

/-- The further characters of a symbol. -/
def isSymbolPart (c : Char) : Bool := Text.isLetter c || Text.isNumeral c || c == '_'

/-- The longest symbol at the front, empty if there is none. -/
def symbolText : List Char → List Char
  | c :: cs => if isSymbolStart c then c :: cs.takeWhile isSymbolPart else []
  | [] => []

/-- Digits and point at the front of a number: a whole part with an optional fraction, or a
    fraction alone. -/
def mantissaText (cs : List Char) : List Char :=
  let whole := cs.takeWhile Char.isDigit
  match cs.dropWhile Char.isDigit with
  | '.' :: rest =>
    let places := rest.takeWhile Char.isDigit
    if whole.isEmpty && places.isEmpty then [] else whole ++ '.' :: places
  | _ => whole

/-- The longest number at the front, empty if there is none. -/
def numberText (cs : List Char) : List Char :=
  let mantissa := mantissaText cs
  if mantissa.isEmpty then []
  else mantissa ++ Decimal.exponentPart (cs.drop mantissa.length)

/-- The longest operator or parenthesis at the front. -/
def signText : List Char → Option (List Char × Token)
  | '*' :: '*' :: _ => some (['*', '*'], .caret)
  | '+' :: _ => some (['+'], .plus)
  | '-' :: _ => some (['-'], .minus)
  | '*' :: _ => some (['*'], .star)
  | '/' :: _ => some (['/'], .slash)
  | '^' :: _ => some (['^'], .caret)
  | '(' :: _ => some (['('], .openParen)
  | ')' :: _ => some ([')'], .closeParen)
  | _ => none

/-- The longest lexeme at the front with its token. The three kinds start with different
    characters. -/
def lexeme? (cs : List Char) : Option (List Char × Token) :=
  match signText cs with
  | some found => some found
  | none =>
    let number := numberText cs
    if !number.isEmpty then some (number, .number (Decimal.floatOfLiteral number))
    else
      let symbol := symbolText cs
      if !symbol.isEmpty then some (symbol, .symbol (String.ofList symbol)) else none

theorem signText_ne_nil {cs t : List Char} {token : Token} (h : signText cs = some (t, token)) :
    t ≠ [] := by
  rintro rfl
  unfold signText at h
  split at h <;> simp at h

/-- A lexeme has a character. -/
theorem lexeme?_ne_nil {cs t : List Char} {token : Token} (h : lexeme? cs = some (t, token)) :
    t ≠ [] := by
  unfold lexeme? at h
  split at h
  · rename_i hs
    simp only [Option.some.injEq] at h
    exact signText_ne_nil (h ▸ hs)
  · simp only at h
    split at h
    · rename_i hn
      simp only [Option.some.injEq, Prod.mk.injEq] at h
      obtain ⟨rfl, -⟩ := h
      simpa using hn
    · split at h
      · rename_i hs
        simp only [Option.some.injEq, Prod.mk.injEq] at h
        obtain ⟨rfl, -⟩ := h
        simpa using hs
      · simp at h

/-! ## Scanning -/

/-- The tokens of a text whose first character has the given position. -/
def tokensFrom (position : Nat) (cs : List Char) : Except FormulaError (List Placed) :=
  match cs with
  | [] => .ok []
  | c :: rest =>
    if isSkipped c then tokensFrom (position + 1) rest
    else
      match _h : lexeme? (c :: rest) with
      | none => .error (.unexpectedCharacter (String.singleton c) position)
      | some (text, token) => do
        let tokens ← tokensFrom (position + text.length) ((c :: rest).drop text.length)
        return ⟨token, position⟩ :: tokens
termination_by cs.length
decreasing_by
  · simp
  · have := List.length_pos_iff.mpr (lexeme?_ne_nil (by assumption))
    simp only [List.length_drop, List.length_cons]
    omega

/-- The tokens of a formula. -/
def tokenize (source : String) : Except FormulaError (List Placed) := tokensFrom 1 source.toList

end Reckoner.Formula
