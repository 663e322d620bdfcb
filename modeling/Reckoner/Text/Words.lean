/-!
# `Reckoner.Text.Words` — splitting at separators

`splitOn` cuts a text at every separator and keeps the empty pieces; `words` drops them.
-/

namespace Reckoner.Text

/-- The pieces between separators: one more than there are separators. -/
def splitOn (isSeparator : Char → Bool) : List Char → List (List Char)
  | [] => [[]]
  | c :: cs =>
    if isSeparator c then [] :: splitOn isSeparator cs
    else
      match splitOn isSeparator cs with
      | [] => [[c]]
      | piece :: pieces => (c :: piece) :: pieces

/-- The maximal non-empty runs without a separator. -/
def words (isSeparator : Char → Bool) (cs : List Char) : List (List Char) :=
  (splitOn isSeparator cs).filter fun piece => !piece.isEmpty

/-- There is always a first piece. -/
theorem splitOn_ne_nil (isSeparator : Char → Bool) (cs : List Char) :
    splitOn isSeparator cs ≠ [] := by
  cases cs with
  | nil => simp [splitOn]
  | cons c cs =>
    unfold splitOn
    split
    · simp
    · split <;> simp

/-- A separator at the front starts an empty piece. -/
theorem splitOn_cons_sep {isSeparator : Char → Bool} {c : Char} (h : isSeparator c = true)
    (cs : List Char) : splitOn isSeparator (c :: cs) = [] :: splitOn isSeparator cs := by
  simp [splitOn, h]

/-- A separator at the front changes no word. -/
theorem words_cons_sep {isSeparator : Char → Bool} {c : Char} (h : isSeparator c = true)
    (cs : List Char) : words isSeparator (c :: cs) = words isSeparator cs := by
  simp [words, splitOn_cons_sep h]

end Reckoner.Text
