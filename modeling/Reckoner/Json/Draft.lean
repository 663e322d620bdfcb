import Reckoner.Decimal.Literal
import Reckoner.Document.Format
import Reckoner.Text.Surrogate

/-!
# `Reckoner.Json.Draft` — reading JSON as far as it goes

A text is read into a `Draft`: the tree of its values up to the first place where it stops being
JSON. Whoever decodes a draft walks it in the order of the text, and so reports whatever comes
first: a value of the wrong shape, or the cut.

## Contents
- **Cuts.** `Cut`: the end of what could be read.
- **Drafts.** `Draft`: trees with cuts.
- **Scanning.** Words, numbers and strings, each with its cut.
- **Reading.** `Draft.read`, by descent on the text.
-/

namespace Reckoner.Json

open Document (Fault)

/-! ## Cuts -/

/-- Where reading stopped: the fault when the value there is wanted, and when it is skipped. -/
structure Cut where
  wanted : Fault
  skipped : Fault
deriving DecidableEq, Repr

/-- The text ends too early. -/
def Cut.truncated : Cut := ⟨.truncated, .truncated⟩

/-- The text is not JSON. -/
def Cut.malformed : Cut := ⟨.malformed, .malformed⟩

/-! ## Drafts -/

/-- A value as far as it could be read. -/
inductive Draft where
  | null
  | bool (value : Bool)
  /-- A literal, sign included. -/
  | number (literal : List Char)
  /-- A string; none when it escapes half a surrogate pair. -/
  | string (text : Option String)
  /-- Items, and the cut behind the last one if the list is not closed there. -/
  | array (items : List Draft) (cut : Option Cut)
  /-- Members, and the cut behind the last one if the object is not closed there. -/
  | object (members : List (Option String × Draft)) (cut : Option Cut)
  | cut (at_ : Cut)

/-! ## Scanning -/

/-- White space between tokens. -/
def isSpace (c : Char) : Bool := c == ' ' || c == '\t' || c == '\n' || c == '\r'

/-- The text from the next token on. -/
def skipSpaces (cs : List Char) : List Char := cs.dropWhile isSpace

theorem skipSpaces_length_le (cs : List Char) : (skipSpaces cs).length ≤ cs.length := by
  simpa [skipSpaces] using (List.dropWhile_sublist isSpace).length_le

/-- The text behind a word, or the cut inside it. -/
def word : List Char → List Char → Except Cut (List Char)
  | [], cs => .ok cs
  | _ :: _, [] => .error .truncated
  | w :: ws, c :: cs => if w == c then word ws cs else .error .malformed

theorem word_length_le {w cs rest : List Char} (h : word w cs = .ok rest) :
    rest.length ≤ cs.length := by
  fun_induction word w cs with
  | case1 cs => simp only [Except.ok.injEq] at h; simp [h]
  | case2 => simp at h
  | case3 w ws c cs _ ih => exact Nat.le_succ_of_le (ih h)
  | case4 => simp at h

/-- A number that breaks off. A value that is skipped is not told apart from one that goes on
    badly. -/
def numberCut : List Char → Cut
  | [] => ⟨.truncated, .malformed⟩
  | _ => .malformed

/-- The power of ten at the front, if a mark stands there. -/
def power (cs : List Char) : Except Cut (List Char) :=
  match cs with
  | e :: rest =>
    if Decimal.isExponentMark e then
      let ds := match rest with
        | '+' :: ds => ds
        | '-' :: ds => ds
        | ds => ds
      if (ds.takeWhile Char.isDigit).isEmpty then .error (numberCut ds)
      else .ok (Decimal.exponentPart cs)
    else .ok []
  | [] => .ok []

/-- The fraction at the front, if a point stands there. -/
def places (cs : List Char) : Except Cut (List Char) :=
  match cs with
  | '.' :: rest =>
    let ds := rest.takeWhile Char.isDigit
    if ds.isEmpty then .error (numberCut rest) else .ok ('.' :: ds)
  | _ => .ok []

/-- The digits before the point: no zero in front of others. -/
def wholePart (cs : List Char) : Except Cut (List Char) :=
  match cs.takeWhile Char.isDigit with
  | [] => .error (numberCut cs)
  | '0' :: _ :: _ => .error .malformed
  | ds => .ok ds

/-- The number at the front. -/
def numberLiteral (cs : List Char) : Except Cut (List Char) := do
  let sign := if cs.head? == some '-' then ['-'] else []
  let cs := cs.drop sign.length
  let whole ← wholePart cs
  let fraction ← places (cs.drop whole.length)
  let scale ← power (cs.drop (whole.length + fraction.length))
  return sign ++ whole ++ fraction ++ scale

/-- The value of a hexadecimal digit. -/
def hexValue? (c : Char) : Option Nat :=
  if c.isDigit then some (c.toNat - 48)
  else if 'a' ≤ c && c ≤ 'f' then some (c.toNat - 87)
  else if 'A' ≤ c && c ≤ 'F' then some (c.toNat - 55)
  else none

/-- The number of bytes of a text. -/
def byteLength (cs : List Char) : Nat := cs.foldr (fun c n => c.utf8Size + n) 0

/-- The code unit of four hexadecimal digits. With fewer than four bytes left the text counts as
    truncated, whatever they are. -/
def codeUnit (cs : List Char) : Except Cut Nat :=
  if byteLength (cs.take 4) < 4 then .error .truncated
  else
    match (cs.take 4).mapM hexValue? with
    | some [a, b, c, d] => .ok (((a * 16 + b) * 16 + c) * 16 + d)
    | _ => .error .malformed

/-- What a piece of a string stands for, and its length. A character is absent when half a
    surrogate pair stands alone. -/
structure Piece where
  char : Option Char
  length : Nat

/-- The character of a code unit, joined with a second escape where it is a leading surrogate. -/
def unitPiece (unit : Nat) (behind : List Char) : Except Cut Piece :=
  if Text.isLeadingSurrogate unit then
    match behind with
    | [] => .error .truncated
    | ['\\'] => .error .truncated
    | '\\' :: 'u' :: more =>
      match codeUnit more with
      | .error e => .error e
      | .ok low =>
        if Text.isTrailingSurrogate low then .ok ⟨some (Text.surrogatePair unit low), 12⟩
        else .ok ⟨none, 6⟩
    | _ => .ok ⟨none, 6⟩
  else if Text.isTrailingSurrogate unit then .ok ⟨none, 6⟩
  else .ok ⟨some (Char.ofNat unit), 6⟩

/-- The piece at the front of a string that is not closed there. -/
def piece : List Char → Except Cut Piece
  | [] => .error .truncated
  | '\\' :: [] => .error .truncated
  | '\\' :: c :: rest =>
    match c with
    | '"' | '\\' | '/' => .ok ⟨some c, 2⟩
    | 'b' => .ok ⟨some '\x08', 2⟩
    | 'f' => .ok ⟨some '\x0c', 2⟩
    | 'n' => .ok ⟨some '\n', 2⟩
    | 'r' => .ok ⟨some '\r', 2⟩
    | 't' => .ok ⟨some '\t', 2⟩
    | 'u' =>
      match codeUnit rest with
      | .error e => .error e
      | .ok unit => unitPiece unit (rest.drop 4)
    | _ => .error .malformed
  | c :: _ => if c.toNat < 32 then .error .malformed else .ok ⟨some c, 1⟩

/-- The characters of a string up to its closing quote, and the text behind it. -/
def stringBody (cs : List Char) : Except Cut (Option (List Char) × List Char) :=
  match cs with
  | [] => .error .truncated
  | '"' :: rest => .ok (some [], rest)
  | c :: rest =>
    match piece (c :: rest) with
    | .error e => .error e
    | .ok p =>
      match stringBody (rest.drop (p.length - 1)) with
      | .ok (text, behind) =>
        .ok (p.char.bind fun c => text.map (c :: ·), behind)
      | .error e => .error (if p.char.isNone then ⟨.malformed, e.skipped⟩ else e)
termination_by cs.length
decreasing_by
  simp only [List.length_drop, List.length_cons]
  omega

theorem stringBody_length {cs rest : List Char} {text : Option (List Char)}
    (h : stringBody cs = .ok (text, rest)) : rest.length < cs.length := by
  fun_induction stringBody cs generalizing text rest with
  | case1 => simp at h
  | case2 behind =>
    simp only [Except.ok.injEq, Prod.mk.injEq] at h
    simp [h.2]
  | case3 => simp at h
  | case4 c tail _ p _ text' behind hb ih =>
    simp only [Except.ok.injEq, Prod.mk.injEq] at h
    have := ih hb
    simp only [List.length_drop, ← h.2, List.length_cons] at this ⊢
    omega
  | case5 => simp at h

/-! ## Reading -/

/-- A draft of the front of a text, and the text behind it. -/
abbrev Rest (cs : List Char) (α : Type) := α × { rest : List Char // rest.length ≤ cs.length }

/-- Nothing is read behind a cut. -/
def Rest.stop {α : Type} (cs : List Char) (a : α) : Rest cs α := (a, ⟨[], by simp⟩)

/-- A word read at the front. -/
def wordDraft (w : String) (draft : Draft) (cs : List Char) : Rest cs Draft :=
  match h : word w.toList cs with
  | .ok rest => (draft, ⟨rest, word_length_le h⟩)
  | .error e => .stop cs (.cut e)

/-- A string read behind its opening quote. -/
def stringDraft (cs : List Char) : Rest cs Draft :=
  match h : stringBody cs with
  | .ok (text, rest) =>
    (.string (text.map String.ofList), ⟨rest, Nat.le_of_lt (stringBody_length h)⟩)
  | .error e => .stop cs (.cut e)

/-- A number read at the front. -/
def numberDraft (cs : List Char) : Rest cs Draft :=
  match numberLiteral cs with
  | .ok literal => (.number literal, ⟨cs.drop literal.length, by simp⟩)
  | .error e => .stop cs (.cut e)

/-- What a string stands for as the name of a member. -/
def Draft.name? : Draft → Except Cut (Option String)
  | .string text => .ok text
  | .cut e => .error e
  | _ => .error .malformed

mutual

/-- The value at the front of a text. -/
def value (cs : List Char) : Rest cs Draft :=
  match cs with
  | [] => .stop _ (.cut .truncated)
  | c :: tail =>
    if isSpace c then
      let (draft, rest) := value tail
      (draft, ⟨rest.1, Nat.le_succ_of_le rest.2⟩)
    else if c == '"' then
      let (draft, rest) := stringDraft tail
      (draft, ⟨rest.1, Nat.le_succ_of_le rest.2⟩)
    else if c == '-' || c.isDigit then numberDraft (c :: tail)
    else if c == 'n' then wordDraft "null" .null (c :: tail)
    else if c == 't' then wordDraft "true" (.bool true) (c :: tail)
    else if c == 'f' then wordDraft "false" (.bool false) (c :: tail)
    else if c == '[' then
      match skipSpaces tail with
      | ']' :: _ =>
        (.array [] none, ⟨(skipSpaces tail).drop 1, by
          have := skipSpaces_length_le tail
          simp only [List.length_drop, List.length_cons]
          omega⟩)
      | [] => .stop _ (.array [] (some .truncated))
      | _ =>
        let ((list, cut), rest) := items tail
        (.array list cut, ⟨rest.1, Nat.le_succ_of_le rest.2⟩)
    else if c == '\x7b' then
      match skipSpaces tail with
      | '\x7d' :: _ =>
        (.object [] none, ⟨(skipSpaces tail).drop 1, by
          have := skipSpaces_length_le tail
          simp only [List.length_drop, List.length_cons]
          omega⟩)
      | [] => .stop _ (.object [] (some .truncated))
      | _ =>
        let ((list, cut), rest) := members tail
        (.object list cut, ⟨rest.1, Nat.le_succ_of_le rest.2⟩)
    else .stop _ (.cut .malformed)
termination_by 2 * cs.length

/-- The items of a list, from the next one on. -/
def items (cs : List Char) : Rest cs (List Draft × Option Cut) :=
  let (first, rest) := value cs
  match h : skipSpaces rest.1 with
  | [] => .stop _ ([first], some .truncated)
  | ']' :: behind => (([first], none), ⟨behind, by
      have := skipSpaces_length_le rest.1
      have := rest.2
      simp only [h, List.length_cons] at *
      omega⟩)
  | ',' :: behind =>
    let ((more, cut), rest') := items behind
    ((first :: more, cut), ⟨rest'.1, by
      have := skipSpaces_length_le rest.1
      have := rest.2
      have := rest'.2
      simp only [h, List.length_cons] at *
      omega⟩)
  | _ => .stop _ ([first], some .malformed)
termination_by 2 * cs.length + 1
decreasing_by
  · omega
  · have := skipSpaces_length_le rest.1
    have := rest.2
    simp only [h, List.length_cons] at *
    omega

/-- The members of an object, from the next one on. -/
def members (cs : List Char) : Rest cs (List (Option String × Draft) × Option Cut) :=
  match hq : skipSpaces cs with
  | '"' :: tail =>
    let (key, afterKey) := stringDraft tail
    match key.name? with
    | .error e => .stop _ ([], some e)
    | .ok name =>
      match hc : skipSpaces afterKey.1 with
      | ':' :: behindColon =>
        let (first, rest) := value behindColon
        match h : skipSpaces rest.1 with
        | [] => .stop _ ([(name, first)], some .truncated)
        | '\x7d' :: behind => (([(name, first)], none), ⟨behind, by
            have := skipSpaces_length_le cs
            have := skipSpaces_length_le afterKey.1
            have := skipSpaces_length_le rest.1
            have := rest.2
            have := afterKey.2
            simp only [h, hq, hc, List.length_cons] at *
            omega⟩)
        | ',' :: behind =>
          let ((more, cut), rest') := members behind
          (((name, first) :: more, cut), ⟨rest'.1, by
            have := skipSpaces_length_le cs
            have := skipSpaces_length_le afterKey.1
            have := skipSpaces_length_le rest.1
            have := rest.2
            have := afterKey.2
            have := rest'.2
            simp only [h, hq, hc, List.length_cons] at *
            omega⟩)
        | _ => .stop _ ([(name, first)], some .malformed)
      | [] => .stop _ ([(name, .cut .truncated)], none)
      | _ => .stop _ ([(name, .cut .malformed)], none)
  | [] => .stop _ ([], some .truncated)
  | _ => .stop _ ([], some .malformed)
termination_by 2 * cs.length
decreasing_by
  · have := skipSpaces_length_le cs
    have := skipSpaces_length_le afterKey.1
    have := afterKey.2
    simp only [hq, hc, List.length_cons] at *
    omega
  · have := skipSpaces_length_le cs
    have := skipSpaces_length_le afterKey.1
    have := skipSpaces_length_le rest.1
    have := rest.2
    have := afterKey.2
    simp only [h, hq, hc, List.length_cons] at *
    omega

end

/-- A text as one draft, and whether anything but white space follows it. -/
def Draft.read (text : String) : Draft × Bool :=
  let (draft, rest) := value text.toList
  (draft, !(skipSpaces rest.1).isEmpty)

end Reckoner.Json
