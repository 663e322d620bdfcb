import Reckoner.Json.Basic
import Reckoner.Json.Draft

/-!
# `Reckoner.Proofs.Json.Strings` — a quoted string is read back

## Contents
- **Digits.** Hexadecimal digits and the code unit of four of them.
- **Characters.** `stringBody_escape`: one escaped character.
- **Strings.** `stringBody_quoted` and `stringDraft_quoted`.
-/

namespace Reckoner.Json

/-! ## Digits -/

theorem hexValue_hexDigit : ∀ n < 16, hexValue? (hexDigit n) = some n := by decide

theorem utf8Size_hexDigit : ∀ n < 16, (hexDigit n).utf8Size = 1 := by decide

/-- The code unit of a control character's escape. -/
theorem codeUnit_control {n : Nat} (h : n < 32) (tail : List Char) :
    codeUnit ('0' :: '0' :: hexDigit (n / 16) :: hexDigit (n % 16) :: tail) = .ok n := by
  have hhigh : n / 16 < 16 := by omega
  have hlow : n % 16 < 16 := by omega
  have hzero : hexValue? '0' = some 0 := by decide
  have hsize : '0'.utf8Size = 1 := by decide
  have htake : ('0' :: '0' :: hexDigit (n / 16) :: hexDigit (n % 16) :: tail).take 4 =
      ['0', '0', hexDigit (n / 16), hexDigit (n % 16)] := rfl
  have hlength : ¬ byteLength ['0', '0', hexDigit (n / 16), hexDigit (n % 16)] < 4 := by
    simp [byteLength, hsize, utf8Size_hexDigit _ hhigh, utf8Size_hexDigit _ hlow]
  rw [codeUnit, htake, if_neg hlength]
  simp only [List.mapM_cons, List.mapM_nil, hzero, hexValue_hexDigit _ hhigh,
    hexValue_hexDigit _ hlow, Option.pure_def, Option.bind_eq_bind, Option.bind_some]
  congr 1
  omega

/-! ## Characters -/

variable {text tail rest : List Char}

/-- A piece of a string is the character in front of what the rest stands for. -/
theorem stringBody_piece {c d : Char} {more : List Char} (hquote : d ≠ '"')
    (hpiece : piece (d :: (more ++ tail)) = .ok ⟨some c, more.length + 1⟩)
    (h : stringBody tail = .ok (some text, rest)) :
    stringBody (d :: (more ++ tail)) = .ok (some (c :: text), rest) := by
  have hdrop : (more ++ tail).drop (more.length + 1 - 1) = tail := by simp
  unfold stringBody
  split
  · rename_i heq
    exact absurd heq (List.cons_ne_nil _ _)
  · rename_i heq
    exact absurd (List.cons.inj heq).1 hquote
  · rename_i d' more' hd' heq
    obtain ⟨rfl, rfl⟩ := List.cons.inj heq
    rw [hpiece]
    simp only [hdrop, h, Option.bind_some, Option.map_some]

/-- The escape of a control character that has no letter of its own. -/
theorem piece_control {c : Char} (h : c.toNat < 32) :
    piece ('\\' :: (['u', '0', '0', hexDigit (c.toNat / 16), hexDigit (c.toNat % 16)] ++ tail)) =
      .ok ⟨some c, 6⟩ := by
  have hlead : Text.isLeadingSurrogate c.toNat = false := by
    simp [Text.isLeadingSurrogate]
    omega
  have htrail : Text.isTrailingSurrogate c.toNat = false := by
    simp [Text.isTrailingSurrogate]
    omega
  simp only [List.cons_append, List.nil_append, piece, codeUnit_control h, unitPiece, hlead, htrail,
    Char.ofNat_toNat]
  rfl

/-- A character that is not escaped stands for itself. -/
theorem piece_plain {c : Char} (hbackslash : c ≠ '\\') (h : ¬ c.toNat < 32) :
    piece (c :: tail) = .ok ⟨some c, 1⟩ := by
  unfold piece
  split
  · rename_i heq
    exact absurd heq (List.cons_ne_nil _ _)
  · rename_i heq
    exact absurd (List.cons.inj heq).1 hbackslash
  · rename_i heq
    exact absurd (List.cons.inj heq).1 hbackslash
  · rename_i heq
    obtain ⟨rfl, rfl⟩ := List.cons.inj heq
    rw [if_neg h]

/-- One character. -/
theorem stringBody_escape (c : Char) (h : stringBody tail = .ok (some text, rest)) :
    stringBody (escape c ++ tail) = .ok (some (c :: text), rest) := by
  unfold escape
  split
  · change stringBody ('\\' :: (['"'] ++ tail)) = _
    exact stringBody_piece (by decide) rfl h
  · exact stringBody_piece (by decide) rfl h
  · exact stringBody_piece (by decide) rfl h
  · exact stringBody_piece (by decide) rfl h
  · exact stringBody_piece (by decide) rfl h
  · exact stringBody_piece (by decide) rfl h
  · exact stringBody_piece (by decide) rfl h
  · rename_i hquote hbackslash _ _ _ _ _
    split
    · rename_i hcontrol
      exact stringBody_piece (by decide) (piece_control hcontrol) h
    · rename_i hcontrol
      exact stringBody_piece hquote (piece_plain hbackslash hcontrol) h

/-! ## Strings -/

/-- **Strings.** What is quoted is read back, with the text behind the closing quote. -/
theorem stringBody_quoted (cs rest : List Char) :
    stringBody (cs.flatMap escape ++ '"' :: rest) = .ok (some cs, rest) := by
  induction cs with
  | nil =>
      rw [List.flatMap_nil, List.nil_append, stringBody]
  | cons c cs ih =>
      rw [List.flatMap_cons, List.append_assoc]
      exact stringBody_escape c ih

theorem stringDraft_quoted (s : String) (rest : List Char) :
    (stringDraft (s.toList.flatMap escape ++ '"' :: rest)).1 = .string (some s) ∧
      (stringDraft (s.toList.flatMap escape ++ '"' :: rest)).2.1 = rest := by
  unfold stringDraft
  split
  · rename_i text behind h
    rw [stringBody_quoted] at h
    obtain ⟨rfl, rfl⟩ := Prod.mk.inj (Except.ok.inj h)
    simp
  · rename_i e h
    rw [stringBody_quoted] at h
    exact absurd h nofun

end Reckoner.Json
