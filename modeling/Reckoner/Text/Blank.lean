/-!
# `Reckoner.Text.Blank` — white space and trimming

## Contents
- **The class.** `isBlank`: the Unicode property `White_Space`.
- **Trimming.** `trim`, and `isBlankText` for texts that trim to nothing.
-/

namespace Reckoner.Text

/-! ## The class -/

/-- A character with the Unicode property `White_Space`. -/
def isBlank (c : Char) : Bool :=
  let n := c.toNat
  (9 ≤ n && n ≤ 13) || n == 0x20 || n == 0x85 || n == 0xA0 || n == 0x1680 ||
    (0x2000 ≤ n && n ≤ 0x200A) || n == 0x2028 || n == 0x2029 || n == 0x202F ||
    n == 0x205F || n == 0x3000

/-! ## Trimming -/

/-- The characters without the blanks at either end. -/
def trimChars (cs : List Char) : List Char :=
  ((cs.dropWhile isBlank).reverse.dropWhile isBlank).reverse

/-- The text without the blanks at either end. -/
def trim (s : String) : String := String.ofList (trimChars s.toList)

/-- A text of blanks only. -/
def isBlankText (s : String) : Bool := s.toList.all isBlank

end Reckoner.Text
