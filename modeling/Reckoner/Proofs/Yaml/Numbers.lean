import Reckoner.Proofs.Json.Floats
import Reckoner.Proofs.Yaml.Values

/-!
# `Reckoner.Proofs.Yaml.Numbers` — written numbers are read back

A finite double is written as in JSON, except that a point stands in front of every power of ten.

## Contents
- **Parts.** `pointedParts`: the parts of a literal that has a point.
- **Numerals.** `isNumeral_number` and `isNumeral_whole`.
- **Values.** `float?_number` and `whole?_digitsOf`.
-/

namespace Reckoner.Yaml

open Decimal (isExponentMark natOfDigits)
open Json (NumberParts IsPlain partsOf positionalParts scientificParts)

/-! ## Parts -/

/-- The parts of a decimal, with a place behind the point. -/
def pointedParts (d : Decimal) : NumberParts :=
  { partsOf d with places := if (partsOf d).places = [] then ['0'] else (partsOf d).places }

theorem places_positionalParts (d : Decimal) : (positionalParts d).places ≠ [] := by
  unfold positionalParts
  dsimp only
  split
  · exact List.cons_ne_nil _ _
  · split
    · rw [ne_eq, List.drop_eq_nil_iff]
      omega
    · simp [Decimal.digits_ne_nil]

theorem chars_pointedParts (d : Decimal) :
    (pointedParts d).chars = numberLayout.decimalChars d := by
  unfold pointedParts partsOf Decimal.Layout.decimalChars numberLayout
  dsimp only
  split
  · simp only [if_neg (places_positionalParts d)]
    exact Json.chars_positionalParts d
  · unfold scientificParts Decimal.scientificChars Decimal.exponentChars
    dsimp only
    cases hds : d.digits with
    | nil => exact absurd hds (Decimal.digits_ne_nil d)
    | cons c rest =>
        cases rest <;>
          simp [NumberParts.chars, NumberParts.placesChars, NumberParts.powerChars]

theorem wellFormed_pointedParts {d : Decimal} (h : IsPlain d) : (pointedParts d).WellFormed := by
  have hwell := Json.wellFormed_partsOf h
  refine ⟨hwell.whole_digits, hwell.whole_ne_nil, hwell.no_leading_zero, ?_, hwell.power_form⟩
  unfold pointedParts
  dsimp only
  split
  · exact List.forall_mem_singleton.mpr rfl
  · exact hwell.places_digits

/-- What is written stands for the decimal, in units of the last place written. -/
theorem ofLiteral_pointedParts {d : Decimal} (h : IsPlain d) :
    ∃ k : Nat,
      Decimal.ofLiteral (pointedParts d).chars = ⟨d.coefficient * 10 ^ k, d.exponent - k⟩ := by
  obtain ⟨k, hk⟩ := Json.ofLiteral_partsOf h
  by_cases hplaces : (partsOf d).places = []
  · -- one more zero than in JSON
    refine ⟨k + 1, ?_⟩
    rw [Json.ofLiteral_chars (Json.wellFormed_partsOf h), NumberParts.value, hplaces] at hk
    obtain ⟨hcoefficient, hexponent⟩ := Decimal.mk.inj hk
    rw [Json.ofLiteral_chars (wellFormed_pointedParts h), NumberParts.value]
    have hzero : (pointedParts d).places = ['0'] := by rw [pointedParts, hplaces]; rfl
    have hscale : (pointedParts d).scale = (partsOf d).scale := rfl
    have hwhole : (pointedParts d).whole = (partsOf d).whole := rfl
    rw [List.append_nil] at hcoefficient
    rw [hzero, hscale, hwhole]
    congr 1
    · have hzeros := Decimal.natOfDigits_append_zeros (partsOf d).whole 1
      rw [List.replicate_one] at hzeros
      rw [hzeros, hcoefficient, Nat.mul_assoc, ← Nat.pow_add]
    · simp only [List.length_singleton, List.length_nil] at hexponent ⊢
      omega
  · have hsame : pointedParts d = partsOf d := by
      rw [pointedParts, if_neg hplaces]
    rw [hsame]
    exact ⟨k, hk⟩

/-! ## Numerals -/

section Numerals

variable {p : NumberParts}

theorem mem_chars (h : p.WellFormed) {ch : Char} (hch : ch ∈ p.chars) :
    ch.isDigit = true ∨ ch ∈ ['.', 'e', '+', '-'] := by
  rcases List.mem_append.mp hch with hch | hpower
  · rcases List.mem_append.mp hch with hwhole | hplaces
    · exact .inl (h.whole_digits ch hwhole)
    · unfold NumberParts.placesChars at hplaces
      split at hplaces
      · exact absurd hplaces List.not_mem_nil
      · rcases List.mem_cons.mp hplaces with rfl | hdigit
        · exact .inr (by decide)
        · exact .inl (h.places_digits ch hdigit)
  · unfold NumberParts.powerChars at hpower
    split at hpower
    · exact absurd hpower List.not_mem_nil
    · rename_i sign ds hp
      obtain ⟨hsign, -, hds⟩ := h.power_form sign ds hp
      rcases List.mem_cons.mp hpower with rfl | hpower
      · exact .inr (by decide)
      · rcases List.mem_cons.mp hpower with rfl | hdigit
        · rcases hsign with rfl | rfl <;> exact .inr (by decide)
        · exact .inl (hds ch hdigit)

theorem exists_chars (h : p.WellFormed) : ∃ ch tail, p.chars = ch :: tail ∧ ch.isDigit = true := by
  obtain ⟨ch, tail, hwhole⟩ := List.exists_cons_of_ne_nil h.whole_ne_nil
  refine ⟨ch, tail ++ (p.placesChars ++ p.powerChars), ?_, h.whole_digits ch (by simp [hwhole])⟩
  simp [NumberParts.chars, hwhole]

theorem isNumeral_parts (h : p.WellFormed) (negative : Bool) :
    IsNumeral ((if negative then ['-'] else []) ++ p.chars) := by
  obtain ⟨ch, tail, hchars, hdigit⟩ := exists_chars h
  cases negative with
  | true =>
      refine ⟨⟨'-', p.chars, rfl, .inr ⟨rfl, ch, tail, hchars, hdigit⟩⟩, fun d hd => ?_⟩
      rcases List.mem_cons.mp hd with rfl | hd
      · exact .inr (by decide)
      · exact mem_chars h hd
  | false => exact ⟨⟨ch, tail, hchars, .inl hdigit⟩, fun d hd => mem_chars h hd⟩

theorem chars_number {x : Float} (h : x.isFinite = true) : ∃ negative d, IsPlain d ∧
    numberLayout.chars x = (if negative then ['-'] else []) ++ (pointedParts d).chars ∧
      Decimal.toFloat negative (Decimal.ofLiteral (pointedParts d).chars) = x := by
  obtain ⟨negative, d, hplain, hchars, hback⟩ := Json.exists_decimal h
  obtain ⟨k, hk⟩ := ofLiteral_pointedParts hplain
  refine ⟨negative, d, hplain, ?_, by rw [hk, hback]⟩
  rw [hchars numberLayout rfl, chars_pointedParts]

theorem isNumeral_number {x : Float} (h : x.isFinite = true) :
    IsNumeral (numberLayout.chars x) := by
  obtain ⟨negative, d, hplain, hchars, -⟩ := chars_number h
  rw [hchars]
  exact isNumeral_parts (wellFormed_pointedParts hplain) negative

theorem isNumeral_whole (n : Int) : IsNumeral (Json.leafChars (.whole n)) := by
  have hdigits : NumberParts.WellFormed ⟨Decimal.digitsOf n.natAbs, [], none⟩ :=
    Json.wellFormed_of_isWhole (Json.isWhole_digitsOf n.natAbs) nofun
  have hparts := isNumeral_parts hdigits (decide (n < 0))
  simpa [NumberParts.chars, NumberParts.placesChars, NumberParts.powerChars, Json.leafChars]
    using hparts

end Numerals

/-! ## Values -/

section Values

variable {p : NumberParts}

theorem toNat_of_isDigit {ch : Char} (h : ch.isDigit = true) : 48 ≤ ch.toNat ∧ ch.toNat ≤ 57 :=
  Char.isDigit_iff_toNat.mp h

theorem not_isBlank_numeral {ch : Char} (h : ch.isDigit = true ∨ ch ∈ ['.', 'e', '+', '-']) :
    Text.isBlank ch = false := by
  rcases h with hdigit | hmark
  · obtain ⟨hlow, hhigh⟩ := toNat_of_isDigit hdigit
    simp only [Text.isBlank, Bool.or_eq_false_iff, Bool.and_eq_false_iff, beq_eq_false_iff_ne,
      decide_eq_false_iff_not]
    omega
  · simp only [List.mem_cons, List.not_mem_nil, or_false] at hmark
    rcases hmark with rfl | rfl | rfl | rfl <;> decide

theorem toLower_digit {ch : Char} (h : ch.isDigit = true) : ch.toLower = ch := by
  obtain ⟨hlow, hhigh⟩ := toNat_of_isDigit h
  have hten : ∀ k < 10, (Char.ofNat (48 + k)).toLower = Char.ofNat (48 + k) := by decide
  have hch := hten (ch.toNat - 48) (by omega)
  rwa [Nat.add_sub_cancel' (by omega), Char.ofNat_toNat] at hch

/-- Numerals have no blanks around them. -/
theorem trimChars_numeral {cs : List Char} (h : IsNumeral cs) : Text.trimChars cs = cs :=
  Text.trimChars_of_ends
    (fun ch hch => not_isBlank_numeral (h.chars ch (List.mem_of_head? hch)))
    (fun ch hch => not_isBlank_numeral (h.chars ch (List.mem_of_getLast? hch)))

theorem exponentPart_powerChars (h : p.WellFormed) :
    Decimal.exponentPart p.powerChars = p.powerChars := by
  unfold NumberParts.powerChars
  split
  · rfl
  · rename_i sign ds hpower
    obtain ⟨hsign, hne, hds⟩ := h.power_form sign ds hpower
    have htake : ds.takeWhile Char.isDigit = ds := List.takeWhile_eq_self_iff.mpr hds
    have hmark : isExponentMark 'e' = true := by decide
    rcases hsign with rfl | rfl
    · simp [Decimal.exponentPart, hmark, htake, hne]
    · simp [Decimal.exponentPart, hmark, htake, hne]

/-- A literal has digits in front of its power of ten, and one point at most among them. -/
theorem literal?_parts (h : p.WellFormed) : literal? p.chars = some p.chars := by
  have htake : p.chars.takeWhile (!isExponentMark ·) = p.whole ++ p.placesChars :=
    (Decimal.span_mark h.whole_digits (Json.not_mark_places h) Json.mark_power).1
  have hdrop : p.chars.drop (p.whole ++ p.placesChars).length = p.powerChars := List.drop_left
  have hpoint : ∀ {ds : List Char}, (∀ ch ∈ ds, ch.isDigit = true) → ds.filter (· != '.') = ds := by
    intro ds hds
    rw [List.filter_eq_self]
    exact fun ch hch => bne_iff_ne.mpr (Decimal.ne_point_of_isDigit (hds ch hch))
  have hdigits : (p.whole ++ p.placesChars).filter (· != '.') = p.whole ++ p.places := by
    unfold NumberParts.placesChars
    split
    · rename_i hnil
      rw [hnil, List.append_nil, hpoint h.whole_digits]
    · simp [List.filter_append, hpoint h.whole_digits, hpoint h.places_digits]
  have hlength : (p.whole ++ p.placesChars).length ≤ (p.whole ++ p.places).length + 1 := by
    unfold NumberParts.placesChars
    split
    · simp only [List.length_append, List.length_nil]
      omega
    · simp only [List.length_append, List.length_cons]
      omega
  have hall : (p.whole ++ p.places).all Char.isDigit = true := List.all_eq_true.mpr fun ch hch =>
    (List.mem_append.mp hch).elim (h.whole_digits ch) (h.places_digits ch)
  have hsome : (p.whole ++ p.places).isEmpty = false := by simp [h.whole_ne_nil]
  unfold literal?
  dsimp only
  rw [htake, hdrop, hdigits, hall, hsome, exponentPart_powerChars h, decide_eq_true hlength]
  simp

/-- No word for a special value begins with a digit. -/
theorem lowered_ne_word (h : p.WellFormed) {w : String}
    (hw : (w.toList.head?.map Char.isDigit).getD false = false) :
    String.ofList (p.chars.map Char.toLower) ≠ w := by
  obtain ⟨ch, tail, hchars, hdigit⟩ := exists_chars h
  rintro rfl
  rw [String.toList_ofList, hchars, List.map_cons, toLower_digit hdigit] at hw
  exact absurd hdigit (by simpa using hw)

theorem head?_chars_ne_sign (h : p.WellFormed) {sign : Char} (hsign : sign.isDigit = false) :
    (p.chars.head? == some sign) = false := by
  obtain ⟨ch, tail, hchars, hdigit⟩ := exists_chars h
  rw [hchars, beq_eq_false_iff_ne]
  exact fun heq => absurd hdigit (by simp [Option.some.inj heq, hsign])

theorem float?_parts (h : p.WellFormed) (negative : Bool) :
    float? ((if negative then ['-'] else []) ++ p.chars) =
      some (Decimal.toFloat negative (Decimal.ofLiteral p.chars)) := by
  have hnegative :
      (((if negative then ['-'] else []) ++ p.chars).head? == some '-') = negative := by
    cases negative with
    | true => rfl
    | false => exact head?_chars_ne_sign h rfl
  have hunsigned : (if negative || ((if negative then ['-'] else []) ++ p.chars).head? == some '+'
      then ((if negative then ['-'] else []) ++ p.chars).drop 1
      else (if negative then ['-'] else []) ++ p.chars) = p.chars := by
    cases negative with
    | true => rfl
    | false =>
        have hplus : ¬ (p.chars.head? == some '+') = true := by
          rw [head?_chars_ne_sign h rfl]
          exact Bool.false_ne_true
        rw [Bool.false_or]
        exact if_neg hplus
  unfold float?
  dsimp only
  rw [hnegative, hunsigned]
  -- the words for what is infinite or no number come first, and none of them is a numeral
  split
  · rename_i heq
    exact absurd heq (lowered_ne_word h rfl)
  · rename_i heq
    exact absurd heq (lowered_ne_word h rfl)
  · rename_i heq
    exact absurd heq (lowered_ne_word h rfl)
  · rename_i heq
    exact absurd heq (lowered_ne_word h rfl)
  · rename_i heq
    exact absurd heq (lowered_ne_word h rfl)
  · rw [literal?_parts h, Option.map_some]

/-- A finite double is read back. -/
theorem float?_number {x : Float} (h : x.isFinite = true) :
    float? (Text.trimChars (numberLayout.chars x)) = some x := by
  rw [trimChars_numeral (isNumeral_number h)]
  obtain ⟨negative, d, hplain, hchars, hback⟩ := chars_number h
  rw [hchars, float?_parts (wellFormed_pointedParts hplain), hback]

theorem digit?_of_isDigit {ch : Char} (h : ch.isDigit = true) :
    digit? 10 ch = some (ch.toNat - '0'.toNat) := by
  obtain ⟨hlow, hhigh⟩ := toNat_of_isDigit h
  have hzero : '0'.toNat = 48 := rfl
  unfold digit?
  rw [if_pos h, hzero]
  exact if_pos (by omega)

theorem digitsValue?_digits {ds : List Char} (hne : ds ≠ []) (h : ∀ ch ∈ ds, ch.isDigit = true) :
    digitsValue? 10 ds = some (natOfDigits ds) := by
  have hfilter : ds.filter (· != '_') = ds := by
    rw [List.filter_eq_self]
    intro ch hch
    simp [ne_of_isDigit (h ch hch)]
  have hvalues : ds.mapM (digit? 10) = some (ds.map fun ch => ch.toNat - '0'.toNat) := by
    clear hne hfilter
    induction ds with
    | nil => rfl
    | cons ch ds ih =>
        rw [List.forall_mem_cons] at h
        rw [List.mapM_cons, digit?_of_isDigit h.1, ih h.2]
        rfl
  unfold digitsValue?
  rw [hfilter]
  split
  · exact absurd rfl hne
  · rw [hvalues, Option.map_some, List.foldl_map]
    rfl

/-- A whole number is read back. -/
theorem whole?_digitsOf (n : Nat) : whole? (Text.trimChars (Decimal.digitsOf n)) = some n := by
  have hdigits : ∀ ch ∈ Decimal.digitsOf n, ch.isDigit = true :=
    fun _ => Decimal.isDigit_of_mem_digitsOf
  have htrim : Text.trimChars (Decimal.digitsOf n) = Decimal.digitsOf n := by
    have hsign : ¬ (n : Int) < 0 := by omega
    simpa [Json.leafChars, hsign] using trimChars_numeral (isNumeral_whole n)
  have hplus : ((Decimal.digitsOf n).head? == some '+') = false := by
    rw [beq_eq_false_iff_ne]
    intro h
    exact absurd (hdigits _ (List.mem_of_head? h)) (by decide)
  have hvalue := digitsValue?_digits (Decimal.digitsOf_ne_nil n) hdigits
  rw [Decimal.natOfDigits_digitsOf] at hvalue
  unfold whole?
  rw [htrim, hplus, if_neg Bool.false_ne_true]
  -- a base would have to be named by a letter
  have hbase : ∀ ch ds, Decimal.digitsOf n = '0' :: ch :: ds → ch.isDigit = true := fun ch ds h =>
    hdigits ch (by simp [h])
  split
  · rename_i h
    exact absurd (hbase _ _ h) (by decide)
  · rename_i h
    exact absurd (hbase _ _ h) (by decide)
  · rename_i h
    exact absurd (hbase _ _ h) (by decide)
  · rename_i h
    exact absurd (hbase _ _ h) (by decide)
  · rename_i h
    exact absurd (hbase _ _ h) (by decide)
  · rename_i h
    exact absurd (hbase _ _ h) (by decide)
  · exact hvalue

end Values

end Reckoner.Yaml
