/-!
# `Reckoner.Text.Surrogate` — characters written as two code units

A character beyond the first 65536 is written as a leading and a trailing surrogate where code units
have 16 bits.
-/

namespace Reckoner.Text

/-- The first code unit of a pair. -/
def isLeadingSurrogate (unit : Nat) : Bool := 0xD800 ≤ unit && unit < 0xDC00

/-- The second code unit of a pair. -/
def isTrailingSurrogate (unit : Nat) : Bool := 0xDC00 ≤ unit && unit < 0xE000

/-- The character of a pair. -/
def surrogatePair (leading trailing : Nat) : Char :=
  Char.ofNat (0x10000 + (leading - 0xD800) * 0x400 + (trailing - 0xDC00))

end Reckoner.Text
