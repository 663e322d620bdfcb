/-!
# `Reckoner.Text.Base64` — texts written with 64 digits

Three bytes are four digits. A shorter group at the end is padded with equals signs, and the bits
that it has left over are zero.

## Contents
- **Digits.** `base64Digit?`.
- **Bytes and texts.** `base64Bytes?`, and `base64Text?`, which passes over white space.
-/

namespace Reckoner.Text

/-! ## Digits -/

/-- The value of a digit. -/
def base64Digit? (c : Char) : Option Nat :=
  if 'A' ≤ c && c ≤ 'Z' then some (c.toNat - 65)
  else if 'a' ≤ c && c ≤ 'z' then some (c.toNat - 71)
  else if '0' ≤ c && c ≤ '9' then some (c.toNat + 4)
  else if c == '+' then some 62
  else if c == '/' then some 63
  else none

/-- The number that digits make. -/
def base64Number? (digits : List Char) : Option Nat :=
  (digits.mapM base64Digit?).map fun ds => ds.foldl (fun n d => 64 * n + d) 0

/-! ## Bytes and texts -/

/-- The bytes of digits in groups of four. -/
def base64Bytes? : List Char → Option (List UInt8)
  | [] => some []
  | [a, b, '=', '='] => do
    let n ← base64Number? [a, b]
    guard (n % 16 == 0)
    return [UInt8.ofNat (n / 16)]
  | [a, b, c, '='] => do
    let n ← base64Number? [a, b, c]
    guard (n % 4 == 0)
    return [UInt8.ofNat (n / 1024), UInt8.ofNat (n / 4)]
  | a :: b :: c :: d :: cs => do
    let n ← base64Number? [a, b, c, d]
    let bytes ← base64Bytes? cs
    return UInt8.ofNat (n / 65536) :: UInt8.ofNat (n / 256) :: UInt8.ofNat n :: bytes
  | _ => none

/-- White space that may stand between the digits. -/
def isBase64Space (c : Char) : Bool :=
  c == ' ' || c == '\t' || c == '\n' || c == '\x0c' || c == '\r'

/-- The text whose bytes are written. -/
def base64Text? (cs : List Char) : Option String := do
  let bytes ← base64Bytes? (cs.filter (!isBase64Space ·))
  String.fromUTF8? ⟨bytes.toArray⟩

end Reckoner.Text
