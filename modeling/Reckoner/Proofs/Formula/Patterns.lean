import Mathlib.Computability.Language
import Reckoner.Formula.Lexeme
import Reckoner.Proofs.Decimal.Digits

/-!
# `Reckoner.Proofs.Formula.Patterns` — the longest lexeme

The patterns of tokens are regular: they are put together from classes of characters by union,
concatenation and closure. `lexeme?` takes runs of characters and never goes back. It finds the
longest word of any pattern all the same, as what could go on after a word is seen from the next
character, and a power of ten is taken as a whole or not at all.

## Contents
- **Patterns.** `numberPattern`, `symbolPattern` and `signs`; `Spells`: a word with its token.
- **Members.** The words of each pattern, by their parts.
- **Readers.** What `exponentPart`, `mantissaText`, `numberText` and `symbolText` find belongs to
  the pattern and goes on as far as any word of it.
- **First characters.** Signs, numbers and symbols begin differently.
- **Lexemes.** `lexeme?_eq_some_iff`: the longest word at the front; `lexeme?_eq_none_iff`.
- **Gaps.** `Spells.isLexeme`: a word ends where a gap begins.
-/

namespace Reckoner.Formula

open Decimal (exponentPart isExponentMark floatOfLiteral)
open scoped Computability

/-! ## Patterns -/

/-- One character of a class. -/
def oneOf (p : Char → Bool) : Language Char := {w | ∃ c, w = [c] ∧ p c = true}

/-- One character of a class or more. -/
def someOf (p : Char → Bool) : Language Char := oneOf p * (oneOf p)∗

/-- One given character. -/
def just (c : Char) : Language Char := oneOf (· == c)

/-- A power of ten: a mark, perhaps a sign, and digits. -/
def exponentPattern : Language Char :=
  (just 'e' + just 'E') * (1 + just '+' + just '-') * someOf Char.isDigit

/-- A number: digits that a point and more digits may follow, or a point and digits; then perhaps a
    power of ten. -/
def numberPattern : Language Char :=
  someOf Char.isDigit * (1 + just '.' * (oneOf Char.isDigit)∗) * (1 + exponentPattern) +
    just '.' * someOf Char.isDigit * (1 + exponentPattern)

/-- A symbol: a letter or underscore, then letters, numerals and underscores. -/
def symbolPattern : Language Char :=
  (oneOf Text.isLetter + just '_') * (oneOf Text.isLetter + oneOf Text.isNumeral + just '_')∗

/-- The operators and parentheses. -/
def signs : List (List Char × Token) :=
  [(['+'], .plus), (['-'], .minus), (['*'], .star), (['/'], .slash), (['^'], .caret),
    (['*', '*'], .caret), (['('], .openParen), ([')'], .closeParen)]

/-- **A word and the token it spells.** -/
inductive Spells : List Char → Token → Prop
  | sign {w : List Char} {t : Token} (h : (w, t) ∈ signs) : Spells w t
  | number {w : List Char} (h : w ∈ numberPattern) : Spells w (.number (floatOfLiteral w))
  | symbol {w : List Char} (h : w ∈ symbolPattern) : Spells w (.symbol (String.ofList w))

/-! ## Members -/

variable {p : Char → Bool} {w m e cs rest : List Char} {c : Char} {t : Token}

theorem mem_oneOf : w ∈ oneOf p ↔ ∃ c, w = [c] ∧ p c = true := Iff.rfl

theorem mem_just : w ∈ just c ↔ w = [c] := by
  simp [just, mem_oneOf]

/-- Classes are united character by character. -/
theorem oneOf_add (p q : Char → Bool) : oneOf p + oneOf q = oneOf fun c => p c || q c := by
  ext w
  rw [Language.mem_add, mem_oneOf, mem_oneOf, mem_oneOf, ← exists_or]
  simp only [← and_or_left, Bool.or_eq_true]

theorem mem_star : w ∈ (oneOf p)∗ ↔ ∀ c ∈ w, p c = true := by
  rw [Language.mem_kstar]
  constructor
  · rintro ⟨pieces, rfl, hpieces⟩ c hc
    obtain ⟨piece, hpiece, hmem⟩ := List.mem_flatten.mp hc
    obtain ⟨d, rfl, hd⟩ := hpieces piece hpiece
    rwa [List.mem_singleton.mp hmem]
  · intro h
    refine ⟨w.map fun c => [c], ?_, fun piece hpiece => ?_⟩
    · rw [← List.flatMap_def, List.flatMap_singleton']
    · obtain ⟨c, hc, rfl⟩ := List.mem_map.mp hpiece
      exact ⟨c, rfl, h c hc⟩

theorem mem_perhaps {l : Language Char} : w ∈ 1 + l ↔ w = [] ∨ w ∈ l := by
  rw [Language.mem_add, Language.mem_one]

theorem mem_oneOf_mul {l : Language Char} :
    w ∈ oneOf p * l ↔ ∃ c cs, w = c :: cs ∧ p c = true ∧ cs ∈ l := by
  rw [Language.mem_mul]
  constructor
  · rintro ⟨_, ⟨c, rfl, hc⟩, cs, hcs, rfl⟩
    exact ⟨c, cs, rfl, hc, hcs⟩
  · rintro ⟨c, cs, rfl, hc, hcs⟩
    exact ⟨[c], ⟨c, rfl, hc⟩, cs, hcs, rfl⟩

theorem mem_someOf : w ∈ someOf p ↔ w ≠ [] ∧ ∀ c ∈ w, p c = true := by
  rw [someOf, mem_oneOf_mul]
  constructor
  · rintro ⟨c, cs, rfl, hc, hcs⟩
    exact ⟨List.cons_ne_nil c cs, List.forall_mem_cons.mpr ⟨hc, mem_star.mp hcs⟩⟩
  · rintro ⟨hne, hall⟩
    obtain ⟨c, cs, rfl⟩ := List.exists_cons_of_ne_nil hne
    rw [List.forall_mem_cons] at hall
    exact ⟨c, cs, rfl, hall.1, mem_star.mpr hall.2⟩

/-- The words of the symbol pattern. -/
theorem mem_symbolPattern :
    w ∈ symbolPattern ↔
      ∃ c cs, w = c :: cs ∧ isSymbolStart c = true ∧ ∀ d ∈ cs, isSymbolPart d = true := by
  have hstart : oneOf Text.isLetter + just '_' = oneOf isSymbolStart := oneOf_add _ _
  have hpart : oneOf Text.isLetter + oneOf Text.isNumeral + just '_' = oneOf isSymbolPart := by
    rw [oneOf_add]
    exact oneOf_add _ _
  rw [symbolPattern, hstart, hpart]
  simp only [mem_oneOf_mul, mem_star]

/-- The words of the exponent pattern. -/
theorem mem_exponentPattern :
    w ∈ exponentPattern ↔
      ∃ mark sign digits, w = mark :: (sign ++ digits) ∧ isExponentMark mark = true ∧
        sign ∈ [[], ['+'], ['-']] ∧ digits ≠ [] ∧ ∀ d ∈ digits, d.isDigit = true := by
  have hmarks : just 'e' + just 'E' = oneOf isExponentMark := oneOf_add _ _
  rw [exponentPattern, hmarks, mul_assoc, mem_oneOf_mul]
  have hsign : ∀ sign : List Char, sign ∈ 1 + just '+' + just '-' ↔ sign ∈ [[], ['+'], ['-']] := by
    intro sign
    rw [Language.mem_add, mem_perhaps, mem_just, mem_just]
    simp [or_assoc]
  constructor
  · rintro ⟨mark, cs, rfl, hmark, hcs⟩
    obtain ⟨sign, hmem, digits, hdigits, rfl⟩ := Language.mem_mul.mp hcs
    exact ⟨mark, sign, digits, rfl, hmark, (hsign sign).mp hmem, mem_someOf.mp hdigits⟩
  · rintro ⟨mark, sign, digits, rfl, hmark, hmem, hdigits⟩
    refine ⟨mark, sign ++ digits, rfl, hmark, Language.mem_mul.mpr ?_⟩
    exact ⟨sign, (hsign sign).mpr hmem, digits, mem_someOf.mpr hdigits, rfl⟩

/-- A number without its power of ten. -/
def mantissaPattern : Language Char :=
  someOf Char.isDigit * (1 + just '.' * (oneOf Char.isDigit)∗) + just '.' * someOf Char.isDigit

/-- The words of the mantissa pattern: digits, or digits around a point, not both without any. -/
theorem mem_mantissaPattern :
    m ∈ mantissaPattern ↔
      (m ≠ [] ∧ ∀ c ∈ m, c.isDigit = true) ∨
        ∃ whole places, m = whole ++ '.' :: places ∧ (∀ c ∈ whole, c.isDigit = true) ∧
          (∀ c ∈ places, c.isDigit = true) ∧ (whole ≠ [] ∨ places ≠ []) := by
  have hpoint : ∀ {l : Language Char} {v : List Char},
      v ∈ just '.' * l ↔ ∃ places, v = '.' :: places ∧ places ∈ l := by
    intro l v
    simp [just, mem_oneOf_mul]
  rw [mantissaPattern, Language.mem_add, Language.mem_mul, hpoint]
  constructor
  · rintro (⟨whole, hwhole, fraction, hfraction, rfl⟩ | ⟨places, rfl, hplaces⟩)
    · rw [mem_someOf] at hwhole
      rcases mem_perhaps.mp hfraction with rfl | hpart
      · rw [List.append_nil]
        exact .inl hwhole
      · obtain ⟨places, rfl, hplaces⟩ := hpoint.mp hpart
        exact .inr ⟨whole, places, rfl, hwhole.2, mem_star.mp hplaces, .inl hwhole.1⟩
    · rw [mem_someOf] at hplaces
      exact .inr ⟨[], places, rfl, by simp, hplaces.2, .inr hplaces.1⟩
  · rintro (hdigits | ⟨whole, places, rfl, hwhole, hplaces, hne⟩)
    · exact .inl ⟨m, mem_someOf.mpr hdigits, [], mem_perhaps.mpr (.inl rfl), List.append_nil m⟩
    · -- digits in front of the point decide between the two forms
      by_cases hnil : whole = []
      · have hne' : places ≠ [] := hne.resolve_left (not_not.mpr hnil)
        exact .inr ⟨places, by rw [hnil, List.nil_append], mem_someOf.mpr ⟨hne', hplaces⟩⟩
      · refine .inl ⟨whole, mem_someOf.mpr ⟨hnil, hwhole⟩, '.' :: places, ?_, rfl⟩
        exact mem_perhaps.mpr (.inr (hpoint.mpr ⟨places, rfl, mem_star.mpr hplaces⟩))

/-- The words of the number pattern: a mantissa, perhaps with a power of ten. -/
theorem mem_numberPattern :
    w ∈ numberPattern ↔
      ∃ m e, w = m ++ e ∧ m ∈ mantissaPattern ∧ (e = [] ∨ e ∈ exponentPattern) := by
  rw [numberPattern, ← add_mul, ← mantissaPattern, Language.mem_mul]
  constructor
  · rintro ⟨m, hm, e, he, rfl⟩
    exact ⟨m, e, rfl, hm, mem_perhaps.mp he⟩
  · rintro ⟨m, e, rfl, hm, he⟩
    exact ⟨m, hm, e, mem_perhaps.mpr he, rfl⟩

/-! ## Readers -/

/-- A power of ten at the front is read as far as its digits go. -/
theorem exponentPart_signed {mark d : Char} {sign ds : List Char}
    (hmark : isExponentMark mark = true) (hsign : sign ∈ [[], ['+'], ['-']])
    (hd : d.isDigit = true) :
    exponentPart (mark :: (sign ++ d :: ds)) =
      mark :: (sign ++ d :: ds.takeWhile Char.isDigit) := by
  simp only [List.mem_cons, List.not_mem_nil, or_false] at hsign
  rcases hsign with rfl | rfl | rfl
  · have hplus : d ≠ '+' := by
      rintro rfl
      exact absurd hd (by decide)
    have hminus : d ≠ '-' := by
      rintro rfl
      exact absurd hd (by decide)
    simp [exponentPart, hmark, hd, hplus, hminus]
  · simp [exponentPart, hmark, hd]
  · simp [exponentPart, hmark, hd]

/-- Behind a mark and perhaps a sign, the digits decide. -/
theorem exponentPart_cons {mark : Char} (hmark : isExponentMark mark = true) (rest : List Char) :
    ∃ sign ds, rest = sign ++ ds ∧ sign ∈ [[], ['+'], ['-']] ∧
      exponentPart (mark :: rest) =
        if (ds.takeWhile Char.isDigit).isEmpty then []
        else mark :: (sign ++ ds.takeWhile Char.isDigit) := by
  simp only [exponentPart, hmark, if_true]
  split
  · exact ⟨['+'], _, rfl, by simp, rfl⟩
  · exact ⟨['-'], _, rfl, by simp, rfl⟩
  · exact ⟨[], _, rfl, by simp, rfl⟩

/-- What is read as a power of ten is one, and stands at the front. -/
theorem exponentPart_spec (h : exponentPart cs ≠ []) :
    exponentPart cs ∈ exponentPattern ∧ exponentPart cs <+: cs := by
  cases cs with
  | nil => exact absurd rfl h
  | cons mark rest =>
      have hmark : isExponentMark mark = true := by
        by_contra hmark
        simp [exponentPart, hmark] at h
      obtain ⟨sign, ds, rfl, hsign, heq⟩ := exponentPart_cons hmark rest
      rw [heq] at h ⊢
      split at h
      · exact absurd rfl h
      · rename_i hne
        rw [if_neg hne]
        refine ⟨mem_exponentPattern.mpr ⟨mark, sign, _, rfl, hmark, hsign, ?_, ?_⟩, ?_⟩
        · simpa using hne
        · exact List.all_eq_true.mp List.all_takeWhile
        · rw [List.prefix_cons_inj, List.prefix_append_right_inj]
          exact List.takeWhile_prefix _

/-- A power of ten at the front is read to its end at least. -/
theorem exponentPart_append (he : e ∈ exponentPattern) (rest : List Char) :
    e <+: exponentPart (e ++ rest) := by
  obtain ⟨mark, sign, digits, rfl, hmark, hsign, hne, hdigits⟩ := mem_exponentPattern.mp he
  obtain ⟨d, ds, rfl⟩ := List.exists_cons_of_ne_nil hne
  rw [List.forall_mem_cons] at hdigits
  rw [List.cons_append, List.append_assoc, List.cons_append,
    exponentPart_signed hmark hsign hdigits.1, List.takeWhile_append_of_pos hdigits.2,
    List.prefix_cons_inj, List.prefix_append_right_inj, List.prefix_cons_inj]
  exact List.prefix_append _ _

/-- What is read as a mantissa is one, and stands at the front. -/
theorem mantissaText_spec (h : mantissaText cs ≠ []) :
    mantissaText cs ∈ mantissaPattern ∧ mantissaText cs <+: cs := by
  have hwhole : ∀ c ∈ cs.takeWhile Char.isDigit, c.isDigit = true :=
    List.all_eq_true.mp List.all_takeWhile
  have hcs : cs.takeWhile Char.isDigit ++ cs.dropWhile Char.isDigit = cs :=
    List.takeWhile_append_dropWhile
  rw [mem_mantissaPattern]
  unfold mantissaText at h ⊢
  dsimp only at h ⊢
  -- from here on the text is its first digits and what stands behind them
  generalize cs.takeWhile Char.isDigit = whole at *
  generalize cs.dropWhile Char.isDigit = behind at *
  subst hcs
  split at h
  · rename_i tail
    split at h
    · exact absurd rfl h
    · rename_i hsome
      rw [if_neg hsome]
      refine ⟨.inr ⟨whole, _, rfl, hwhole, List.all_eq_true.mp List.all_takeWhile, ?_⟩, ?_⟩
      · simp only [Bool.and_eq_true, List.isEmpty_iff] at hsome
        tauto
      · rw [List.prefix_append_right_inj, List.prefix_cons_inj]
        exact List.takeWhile_prefix _
  · exact ⟨.inl ⟨h, hwhole⟩, List.prefix_append _ _⟩

theorem isDigit_or_point {c : Char} {cs : List Char} (h : c ∈ cs.takeWhile Char.isDigit) :
    c.isDigit = true ∨ c = '.' :=
  .inl (List.all_eq_true.mp List.all_takeWhile c h)

/-- Behind digits more of them may follow, and a point with its places. -/
theorem mantissaText_digits_append (hne : m ≠ []) (hdigits : ∀ c ∈ m, c.isDigit = true)
    (rest : List Char) :
    ∃ more, mantissaText (m ++ rest) = m ++ more ∧ more <+: rest ∧
      ∀ c ∈ more, c.isDigit = true ∨ c = '.' := by
  have hrest : rest.takeWhile Char.isDigit ++ rest.dropWhile Char.isDigit = rest :=
    List.takeWhile_append_dropWhile
  unfold mantissaText
  dsimp only
  rw [List.takeWhile_append_of_pos hdigits, List.dropWhile_append_of_pos hdigits]
  split
  · rename_i tail heq
    rw [heq] at hrest
    refine ⟨rest.takeWhile Char.isDigit ++ '.' :: tail.takeWhile Char.isDigit, ?_, ?_, ?_⟩
    · rw [if_neg (by simp [hne]), List.append_assoc]
    · have hfront : rest.takeWhile Char.isDigit ++ '.' :: tail.takeWhile Char.isDigit <+:
          rest.takeWhile Char.isDigit ++ '.' :: tail := by
        rw [List.prefix_append_right_inj, List.prefix_cons_inj]
        exact List.takeWhile_prefix _
      rwa [hrest] at hfront
    · intro c hc
      rcases List.mem_append.mp hc with hmem | hmem
      · exact isDigit_or_point hmem
      · rcases List.mem_cons.mp hmem with rfl | hplace
        · exact .inr rfl
        · exact isDigit_or_point hplace
  · exact ⟨_, rfl, List.takeWhile_prefix _, fun _ => isDigit_or_point⟩

/-- Behind a point only digits may follow. -/
theorem mantissaText_point_append {whole places : List Char}
    (hwhole : ∀ c ∈ whole, c.isDigit = true) (hplaces : ∀ c ∈ places, c.isDigit = true)
    (hne : whole ≠ [] ∨ places ≠ []) (rest : List Char) :
    mantissaText (whole ++ '.' :: places ++ rest) =
      whole ++ '.' :: places ++ rest.takeWhile Char.isDigit := by
  have hpoint : ∀ c ∈ ('.' :: (places ++ rest)).head?, c.isDigit = false := by
    intro c hc
    obtain rfl := Option.some.inj hc
    decide
  rw [List.append_assoc, List.cons_append, mantissaText,
    Decimal.takeWhile_of_boundary hwhole hpoint, Decimal.dropWhile_of_boundary hwhole hpoint]
  show (if whole.isEmpty && ((places ++ rest).takeWhile Char.isDigit).isEmpty then []
    else whole ++ '.' :: (places ++ rest).takeWhile Char.isDigit) = _
  rw [List.takeWhile_append_of_pos hplaces, if_neg ?_, List.append_assoc, List.cons_append]
  simp only [Bool.and_eq_true, List.isEmpty_iff, List.append_eq_nil_iff]
  tauto

/-- **A mantissa at the front** is read to its end at least; what goes on are digits and points. -/
theorem mantissaText_append (hm : m ∈ mantissaPattern) (rest : List Char) :
    ∃ more, mantissaText (m ++ rest) = m ++ more ∧ more <+: rest ∧
      ∀ c ∈ more, c.isDigit = true ∨ c = '.' := by
  rcases mem_mantissaPattern.mp hm with ⟨hne, hdigits⟩ | ⟨whole, places, rfl, hwhole, hplaces, hne⟩
  · exact mantissaText_digits_append hne hdigits rest
  · exact ⟨_, mantissaText_point_append hwhole hplaces hne rest, List.takeWhile_prefix _,
      fun _ => isDigit_or_point⟩

/-- What is read as a number is one, and stands at the front. -/
theorem numberText_spec (h : numberText cs ≠ []) :
    numberText cs ∈ numberPattern ∧ numberText cs <+: cs := by
  unfold numberText at h ⊢
  dsimp only at h ⊢
  split at h
  · exact absurd rfl h
  · rename_i hsome
    rw [if_neg hsome]
    have hne : mantissaText cs ≠ [] := by simpa using hsome
    obtain ⟨hmantissa, behind, hcs⟩ := mantissaText_spec hne
    generalize mantissaText cs = m at *
    subst hcs
    rw [List.drop_left, mem_numberPattern, List.prefix_append_right_inj]
    by_cases hnone : exponentPart behind = []
    · rw [hnone]
      exact ⟨⟨m, [], rfl, hmantissa, .inl rfl⟩, List.nil_prefix⟩
    · obtain ⟨hpower, hfront⟩ := exponentPart_spec hnone
      exact ⟨⟨m, _, rfl, hmantissa, .inr hpower⟩, hfront⟩

/-- A mantissa has a character. -/
theorem ne_nil_of_mem_mantissaPattern (hm : m ∈ mantissaPattern) : m ≠ [] := by
  rcases mem_mantissaPattern.mp hm with ⟨hne, -⟩ | ⟨whole, places, rfl, -⟩
  · exact hne
  · simp

/-- **A number at the front** is read to its end at least. -/
theorem numberText_append (hw : w ∈ numberPattern) (rest : List Char) :
    w <+: numberText (w ++ rest) := by
  obtain ⟨m, e, rfl, hm, he⟩ := mem_numberPattern.mp hw
  obtain ⟨more, hmantissa, hmore, hchars⟩ := mantissaText_append hm (e ++ rest)
  have hne : ¬ (m ++ more).isEmpty = true := by
    simp [ne_nil_of_mem_mantissaPattern hm]
  rw [List.append_assoc, numberText, hmantissa, if_neg hne]
  rcases he with rfl | hpower
  · rw [List.append_nil, List.append_assoc]
    exact List.prefix_append _ _
  · -- a mark of an exponent ends the mantissa
    have hnil : more = [] := by
      obtain ⟨mark, sign, digits, rfl, hmark, -⟩ := mem_exponentPattern.mp hpower
      cases more with
      | nil => rfl
      | cons c cs =>
          obtain rfl := (List.cons_prefix_cons.mp hmore).1
          rw [isExponentMark, Bool.or_eq_true, beq_iff_eq, beq_iff_eq] at hmark
          have hc := hchars c List.mem_cons_self
          rcases hmark with rfl | rfl <;> exact absurd hc (by decide)
    subst hnil
    rw [List.append_nil, List.drop_left, List.prefix_append_right_inj]
    exact exponentPart_append hpower rest

/-- What is read as a symbol is one, and stands at the front. -/
theorem symbolText_spec (h : symbolText cs ≠ []) :
    symbolText cs ∈ symbolPattern ∧ symbolText cs <+: cs := by
  cases cs with
  | nil => exact absurd rfl h
  | cons c cs =>
      rw [symbolText] at h ⊢
      split at h
      · rename_i hstart
        rw [if_pos hstart, mem_symbolPattern, List.prefix_cons_inj]
        refine ⟨⟨c, _, rfl, hstart, ?_⟩, List.takeWhile_prefix _⟩
        exact List.all_eq_true.mp List.all_takeWhile
      · exact absurd rfl h

/-- **A symbol at the front** is read to its end at least. -/
theorem symbolText_append (hw : w ∈ symbolPattern) (rest : List Char) :
    w <+: symbolText (w ++ rest) := by
  obtain ⟨c, cs, rfl, hstart, hparts⟩ := mem_symbolPattern.mp hw
  rw [List.cons_append, symbolText, if_pos hstart, List.prefix_cons_inj,
    List.takeWhile_append_of_pos hparts]
  exact List.prefix_append _ _

/-! ## First characters -/

/-- A number begins with a digit or a point. -/
theorem head_of_mem_numberPattern (hw : w ∈ numberPattern) :
    ∃ c cs, w = c :: cs ∧ (c.isDigit = true ∨ c = '.') := by
  obtain ⟨m, e, rfl, hm, -⟩ := mem_numberPattern.mp hw
  rcases mem_mantissaPattern.mp hm with ⟨hne, hdigits⟩ | ⟨whole, places, rfl, hwhole, -⟩
  · obtain ⟨c, cs, rfl⟩ := List.exists_cons_of_ne_nil hne
    exact ⟨c, cs ++ e, rfl, .inl (hdigits c List.mem_cons_self)⟩
  · cases whole with
    | nil => exact ⟨'.', places ++ e, rfl, .inr rfl⟩
    | cons c cs => exact ⟨c, _, rfl, .inl (hwhole c List.mem_cons_self)⟩

/-- No digit begins a symbol. -/
theorem isDigit_eq_false_of_isSymbolStart (h : isSymbolStart c = true) : c.isDigit = false := by
  refine Bool.eq_false_iff.mpr fun hdigit => ?_
  have hbounds : 48 ≤ c.toNat ∧ c.toNat ≤ 57 := by
    simpa [Char.isDigit, UInt32.le_iff_toNat_le] using hdigit
  have hten : ∀ k < 10, isSymbolStart (Char.ofNat (48 + k)) = false := by decide
  have hc := hten (c.toNat - 48) (by omega)
  rw [Nat.add_sub_cancel' hbounds.1, Char.ofNat_toNat, h] at hc
  exact absurd hc (by decide)

/-- Signs have their own first characters. -/
theorem head_of_mem_signs : ∀ sign ∈ signs, sign.1.head?.all
    (fun c => !c.isDigit && c != '.' && !isSymbolStart c && !isSkipped c) = true := by
  decide

/-- A text that begins otherwise has no sign at the front. -/
theorem signText_eq_none (h : c.isDigit = true ∨ c = '.' ∨ isSymbolStart c = true) :
    signText (c :: cs) = none := by
  have hother : ∀ sign ∈ signs, sign.1.head? ≠ some c := by
    intro sign hsign heq
    have hhead := head_of_mem_signs sign hsign
    rw [heq] at hhead
    simp only [Option.all_some, Bool.and_eq_true, Bool.not_eq_true', bne_iff_ne] at hhead
    obtain ⟨⟨⟨hdigit, hpoint⟩, hstart⟩, -⟩ := hhead
    rcases h with h | h | h
    · exact absurd (hdigit.symm.trans h) (by decide)
    · exact hpoint h
    · exact absurd (hstart.symm.trans h) (by decide)
  simp only [signs, List.forall_mem_cons] at hother
  unfold signText
  split <;> simp_all

/-- A sign at the front is one of the list. -/
theorem signText_spec (h : signText cs = some (w, t)) : (w, t) ∈ signs ∧ w <+: cs := by
  unfold signText at h
  split at h <;> simp only [Option.some.injEq, Prod.mk.injEq, reduceCtorEq] at h <;>
    obtain ⟨rfl, rfl⟩ := h <;> exact ⟨by simp [signs], by simp⟩

/-! ## Lexemes -/

/-- What is read as a lexeme spells its token, and stands at the front. -/
theorem lexeme?_spec (h : lexeme? cs = some (w, t)) : Spells w t ∧ w <+: cs := by
  unfold lexeme? at h
  split at h
  · rename_i found hsign
    rw [h] at hsign
    obtain ⟨hmem, hfront⟩ := signText_spec hsign
    exact ⟨.sign hmem, hfront⟩
  · dsimp only at h
    split at h
    · rename_i hnumber
      obtain ⟨rfl, rfl⟩ := Prod.mk.inj (Option.some.inj h)
      have hne : numberText cs ≠ [] := by simpa using hnumber
      obtain ⟨hmem, hfront⟩ := numberText_spec hne
      exact ⟨.number hmem, hfront⟩
    · split at h
      · rename_i hsymbol
        obtain ⟨rfl, rfl⟩ := Prod.mk.inj (Option.some.inj h)
        have hne : symbolText cs ≠ [] := by simpa using hsymbol
        obtain ⟨hmem, hfront⟩ := symbolText_spec hne
        exact ⟨.symbol hmem, hfront⟩
      · exact absurd h nofun

theorem lexeme?_of_numberText (hsign : signText cs = none) (hne : numberText cs ≠ []) :
    lexeme? cs = some (numberText cs, .number (floatOfLiteral (numberText cs))) := by
  simp [lexeme?, hsign, hne]

theorem lexeme?_of_symbolText (hsign : signText cs = none) (hnumber : numberText cs = [])
    (hne : symbolText cs ≠ []) :
    lexeme? cs = some (symbolText cs, .symbol (String.ofList (symbolText cs))) := by
  simp [lexeme?, hsign, hnumber, hne]

/-- A number at the front is the lexeme, as no sign begins like it. -/
theorem lexeme?_number (hw : w ∈ numberPattern) (rest : List Char) :
    lexeme? (w ++ rest) =
      some (numberText (w ++ rest), .number (floatOfLiteral (numberText (w ++ rest)))) := by
  have hfront := numberText_append hw rest
  obtain ⟨c, cs, rfl, hc⟩ := head_of_mem_numberPattern hw
  have hsign : signText (c :: cs ++ rest) = none := signText_eq_none (by tauto)
  have hne : numberText (c :: cs ++ rest) ≠ [] := by
    intro hnil
    rw [hnil] at hfront
    exact absurd (List.prefix_nil.mp hfront) (List.cons_ne_nil c cs)
  exact lexeme?_of_numberText hsign hne

/-- A symbol at the front is the lexeme, as no sign or number begins like it. -/
theorem lexeme?_symbol (hw : w ∈ symbolPattern) (rest : List Char) :
    lexeme? (w ++ rest) =
      some (symbolText (w ++ rest), .symbol (String.ofList (symbolText (w ++ rest)))) := by
  have hfront := symbolText_append hw rest
  obtain ⟨c, cs, rfl, hstart, -⟩ := mem_symbolPattern.mp hw
  have hsign : signText (c :: cs ++ rest) = none := signText_eq_none (.inr (.inr hstart))
  have hnumber : numberText (c :: cs ++ rest) = [] := by
    -- a number here would begin with a digit or a point
    by_contra hne
    obtain ⟨hmem, hprefix⟩ := numberText_spec hne
    obtain ⟨d, ds, heq, hd⟩ := head_of_mem_numberPattern hmem
    rw [heq, List.cons_append] at hprefix
    obtain rfl := (List.cons_prefix_cons.mp hprefix).1
    rcases hd with hdigit | rfl
    · exact absurd ((isDigit_eq_false_of_isSymbolStart hstart).symm.trans hdigit) (by decide)
    · exact absurd hstart (by decide)
  have hne : symbolText (c :: cs ++ rest) ≠ [] := by
    intro hnil
    rw [hnil] at hfront
    exact absurd (List.prefix_nil.mp hfront) (List.cons_ne_nil c cs)
  exact lexeme?_of_symbolText hsign hnumber hne

/-- A sign at the front is the lexeme, unless a second star follows the first. -/
theorem lexeme?_sign (hw : (w, t) ∈ signs) (rest : List Char) :
    ∃ w' t', lexeme? (w ++ rest) = some (w', t') ∧ w <+: w' := by
  have hfound : ∃ w' t', signText (w ++ rest) = some (w', t') ∧ w <+: w' := by
    simp only [signs, List.mem_cons, Prod.mk.injEq, List.not_mem_nil, or_false] at hw
    rcases hw with ⟨rfl, -⟩ | ⟨rfl, -⟩ | ⟨rfl, -⟩ | ⟨rfl, -⟩ | ⟨rfl, -⟩ | ⟨rfl, -⟩ | ⟨rfl, -⟩ |
      ⟨rfl, -⟩
    case inr.inr.inl =>
      -- a star, which may be the first half of a caret
      by_cases hstar : rest.head? = some '*'
      · obtain ⟨cs, rfl⟩ := List.head?_eq_some_iff.mp hstar
        exact ⟨_, _, rfl, by simp⟩
      · refine ⟨['*'], .star, ?_, List.prefix_rfl⟩
        cases rest with
        | nil => rfl
        | cons c cs =>
            have hc : c ≠ '*' := fun heq => hstar (by rw [heq]; rfl)
            simp [signText, hc]
    all_goals exact ⟨_, _, rfl, List.prefix_rfl⟩
  obtain ⟨w', t', hsign, hfront⟩ := hfound
  exact ⟨w', t', by rw [lexeme?, hsign], hfront⟩

/-- **A word at the front** of a text is read to its end at least. -/
theorem lexeme?_append (h : Spells w t) (rest : List Char) :
    ∃ w' t', lexeme? (w ++ rest) = some (w', t') ∧ w <+: w' := by
  cases h with
  | sign hw => exact lexeme?_sign hw rest
  | number hw => exact ⟨_, _, lexeme?_number hw rest, numberText_append hw rest⟩
  | symbol hw => exact ⟨_, _, lexeme?_symbol hw rest, symbolText_append hw rest⟩

/-- A word on its own is read as a whole. -/
theorem lexeme?_self (h : Spells w t) : lexeme? w = some (w, t) := by
  cases h with
  | sign hw =>
      simp only [signs, List.mem_cons, Prod.mk.injEq, List.not_mem_nil, or_false] at hw
      rcases hw with ⟨rfl, rfl⟩ | ⟨rfl, rfl⟩ | ⟨rfl, rfl⟩ | ⟨rfl, rfl⟩ | ⟨rfl, rfl⟩ | ⟨rfl, rfl⟩ |
        ⟨rfl, rfl⟩ | ⟨rfl, rfl⟩ <;> rfl
  | number hw =>
      have hread := lexeme?_number hw []
      have hfront := numberText_append hw []
      rw [List.append_nil] at hread hfront
      have hwhole : w = numberText w :=
        hfront.eq_of_length_le (lexeme?_spec hread).2.length_le
      rwa [← hwhole] at hread
  | symbol hw =>
      have hread := lexeme?_symbol hw []
      have hfront := symbolText_append hw []
      rw [List.append_nil] at hread hfront
      have hwhole : w = symbolText w :=
        hfront.eq_of_length_le (lexeme?_spec hread).2.length_le
      rwa [← hwhole] at hread

/-- **A word spells one token.** -/
theorem Spells.unique {t' : Token} (h : Spells w t) (h' : Spells w t') : t = t' := by
  have hsame := (lexeme?_self h).symm.trans (lexeme?_self h')
  exact (Prod.mk.inj (Option.some.inj hsame)).2

/-- **The lexeme at the front**: the longest word there that spells a token. -/
structure IsLexeme (cs w : List Char) (t : Token) : Prop where
  spells : Spells w t
  front : w <+: cs
  longest : ∀ w' t', Spells w' t' → w' <+: cs → w'.length ≤ w.length

theorem isLexeme_of_lexeme? (h : lexeme? cs = some (w, t)) : IsLexeme cs w t := by
  obtain ⟨hspells, hfront⟩ := lexeme?_spec h
  refine ⟨hspells, hfront, fun w' t' hspells' hfront' => ?_⟩
  obtain ⟨behind, rfl⟩ := hfront'
  obtain ⟨found, s, hfound, hbeyond⟩ := lexeme?_append hspells' behind
  obtain ⟨rfl, -⟩ := Prod.mk.inj (Option.some.inj (hfound.symm.trans h))
  exact hbeyond.length_le

/-- **Reading a lexeme** finds the longest one. -/
theorem lexeme?_eq_some_iff : lexeme? cs = some (w, t) ↔ IsLexeme cs w t := by
  refine ⟨isLexeme_of_lexeme?, fun h => ?_⟩
  obtain ⟨behind, hbehind⟩ := h.front
  obtain ⟨w', t', hfound, hbeyond⟩ := lexeme?_append h.spells behind
  rw [hbehind] at hfound
  have hlexeme := isLexeme_of_lexeme? hfound
  obtain rfl : w = w' :=
    hbeyond.eq_of_length_le (h.longest w' t' hlexeme.spells hlexeme.front)
  rw [hfound, h.spells.unique hlexeme.spells]

/-- No lexeme is read where no word that spells a token stands. -/
theorem lexeme?_eq_none_iff : lexeme? cs = none ↔ ∀ w t, Spells w t → ¬ w <+: cs := by
  constructor
  · rintro hnone w t hspells ⟨behind, rfl⟩
    obtain ⟨w', t', hfound, -⟩ := lexeme?_append hspells behind
    rw [hnone] at hfound
    exact absurd hfound nofun
  · intro hnothing
    cases hfound : lexeme? cs with
    | none => rfl
    | some found =>
        obtain ⟨w, t⟩ := found
        obtain ⟨hspells, hfront⟩ := lexeme?_spec hfound
        exact absurd hfront (hnothing w t hspells)

/-! ## Gaps -/

/-- A class without the skipped characters. -/
theorem notSkipped_of_class (hp : [' ', '\t', '\r', '\n', '\x0c'].all (!p ·) = true)
    (hc : p c = true) : isSkipped c = false := by
  refine Bool.eq_false_iff.mpr fun hskipped => ?_
  have hmem : c ∈ [' ', '\t', '\r', '\n', '\x0c'] := by
    simpa [isSkipped, or_assoc] using hskipped
  have hother := List.all_eq_true.mp hp c hmem
  simp [hc] at hother

/-- The characters of numbers. -/
def isNumberPart (c : Char) : Bool :=
  c.isDigit || c == '.' || isExponentMark c || c == '+' || c == '-'

theorem isNumberPart_of_mem (hw : w ∈ numberPattern) : ∀ c ∈ w, isNumberPart c = true := by
  have hdigits : ∀ {cs : List Char}, (∀ c ∈ cs, c.isDigit = true) →
      ∀ c ∈ cs, isNumberPart c = true := fun h c hc => by simp [isNumberPart, h c hc]
  obtain ⟨m, e, rfl, hm, he⟩ := mem_numberPattern.mp hw
  rw [List.forall_mem_append]
  constructor
  · rcases mem_mantissaPattern.mp hm with ⟨-, hm⟩ | ⟨whole, places, rfl, hwhole, hplaces, -⟩
    · exact hdigits hm
    · rw [List.forall_mem_append, List.forall_mem_cons]
      exact ⟨hdigits hwhole, by decide, hdigits hplaces⟩
  · rcases he with rfl | hpower
    · simp
    · obtain ⟨mark, sign, ds, rfl, hmark, hsign, -, hds⟩ := mem_exponentPattern.mp hpower
      have hsigns : ∀ sign ∈ [[], ['+'], ['-']], sign.all isNumberPart = true := by decide
      rw [List.forall_mem_cons, List.forall_mem_append]
      exact ⟨by simp [isNumberPart, hmark], List.all_eq_true.mp (hsigns sign hsign), hdigits hds⟩

/-- **Nothing that is skipped stands in a word.** -/
theorem Spells.notSkipped (h : Spells w t) : ∀ c ∈ w, isSkipped c = false := by
  intro c hc
  cases h with
  | sign hw =>
      have hsigns : ∀ sign ∈ signs, sign.1.all (!isSkipped ·) = true := by decide
      simpa using List.all_eq_true.mp (hsigns _ hw) c hc
  | number hw => exact notSkipped_of_class (by decide) (isNumberPart_of_mem hw c hc)
  | symbol hw =>
      obtain ⟨d, ds, rfl, hstart, hparts⟩ := mem_symbolPattern.mp hw
      rcases List.mem_cons.mp hc with rfl | hmem
      · exact notSkipped_of_class (p := isSymbolStart) (by decide) hstart
      · exact notSkipped_of_class (p := isSymbolPart) (by decide) (hparts c hmem)

/-- A word has a character. -/
theorem Spells.ne_nil (h : Spells w t) : w ≠ [] := lexeme?_ne_nil (lexeme?_self h)

/-- **A word in front of a gap** is the lexeme there: longer words would reach into the gap. -/
theorem Spells.isLexeme (h : Spells w t) (hgap : ∀ c ∈ rest.head?, isSkipped c = true) :
    IsLexeme (w ++ rest) w t := by
  refine ⟨h, List.prefix_append w rest, fun w' t' hspells hfront => ?_⟩
  by_contra hlonger
  cases rest with
  | nil =>
      have hlength := hfront.length_le
      rw [List.append_nil] at hlength
      exact hlonger hlength
  | cons c cs =>
      have hmem : c ∈ w' := by
        have hnext : w ++ [c] <+: w ++ c :: cs := by
          rw [List.prefix_append_right_inj]
          exact ⟨cs, rfl⟩
        have hreach : w ++ [c] <+: w' := by
          apply List.prefix_of_prefix_length_le hnext hfront
          rw [List.length_append, List.length_singleton]
          omega
        exact hreach.subset (by simp)
      exact absurd ((hspells.notSkipped c hmem).symm.trans (hgap c rfl)) (by decide)

end Reckoner.Formula
