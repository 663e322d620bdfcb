import Reckoner.Json.Decode
import Reckoner.Proofs.Decimal.Doubles
import Reckoner.Proofs.Json.Numbers

/-!
# `Reckoner.Proofs.Json.Floats` — a written double is read back

## Contents
- **Writing.** `Written`: a sign and a decimal whose literal stands for a double.
- **Reading.** `numberLiteral_numberChars` and `literalFloat_numberChars`.
-/

namespace Reckoner.Json

open Decimal (ofLiteral toFloat)

/-! ## Writing -/

/-- The text of a double is a sign and the literal of a decimal, and reads back as the double. -/
structure Written (x : Float) (negative : Bool) (d : Decimal) : Prop where
  plain : IsPlain d
  chars : numberChars x = (if negative then ['-'] else []) ++ (partsOf d).chars
  reads_back : toFloat negative (ofLiteral (partsOf d).chars) = x

theorem toRat_scaled (d : Decimal) (k : Nat) :
    (⟨d.coefficient * 10 ^ k, d.exponent - k⟩ : Decimal).toRat = d.toRat := by
  unfold Decimal.toRat
  rw [zpow_sub₀ (by norm_num), zpow_natCast]
  push_cast
  field_simp

/-- A finite double is a sign and a decimal, whatever the layout of digits and however many zeros
    stand behind the last place. -/
theorem exists_decimal {x : Float} (h : x.isFinite = true) :
    ∃ negative d, IsPlain d ∧
      (∀ l : Decimal.Layout, l.tie = .toEven →
        l.chars x = (if negative then ['-'] else []) ++ l.decimalChars d) ∧
      ∀ k : Nat, toFloat negative ⟨d.coefficient * 10 ^ k, d.exponent - k⟩ = x := by
  obtain ⟨b, hreading, hform, hbits⟩ := exists_finite h
  have hchars : ∀ d, d = (if b.mantissa == 0 then ⟨0, 0⟩ else Decimal.shortest .toEven b) →
      ∀ l : Decimal.Layout, l.tie = .toEven →
        l.chars x = (if b.negative then ['-'] else []) ++ l.decimalChars d := by
    rintro d rfl l htie
    rw [Decimal.Layout.chars, hreading, htie]
    dsimp only
    split
    · rfl
    · rfl
  have hdouble :
      Float.ofBits (UInt64.ofNat (Decimal.signBit b.negative + b.magnitudeBits)) = x := by
    rw [hbits, UInt64.ofNat_toNat, Float.ofBits_toBits]
  rcases hform with ⟨hzero, hmagnitude⟩ | hcanonical
  · -- zero, which keeps its sign
    refine ⟨b.negative, ⟨0, 0⟩, .inr rfl, hchars _ (by rw [hzero]; rfl), fun k => ?_⟩
    rw [toFloat, Nat.zero_mul]
    rw [hmagnitude] at hdouble
    exact hdouble
  · -- the shortest decimal, which lies in the rounding interval
    have hpos := hcanonical.mantissa_pos
    have hcoefficient := Decimal.coefficient_shortest_pos hpos hcanonical.mantissa_lt .toEven
    have hne : (b.mantissa == 0) = false := beq_eq_false_iff_ne.mpr hpos.ne'
    refine ⟨b.negative, Decimal.shortest .toEven b, .inl hcoefficient,
      hchars _ (by rw [hne]; rfl), fun k => ?_⟩
    have hcontains := Decimal.contains_shortest hpos hcanonical.mantissa_lt .toEven
    rw [Decimal.toFloat_eq hcanonical (Nat.mul_pos hcoefficient (Nat.pow_pos (by decide)))
      (by rwa [toRat_scaled]), hdouble]

/-- **Writing.** A finite double has such a text. -/
theorem exists_written {x : Float} (h : x.isFinite = true) :
    ∃ negative d, Written x negative d := by
  obtain ⟨negative, d, hplain, hchars, hback⟩ := exists_decimal h
  obtain ⟨k, hk⟩ := ofLiteral_partsOf hplain
  refine ⟨negative, d, hplain, ?_, by rw [hk, hback]⟩
  rw [numberChars, if_pos h, hchars numberLayout rfl, chars_partsOf]

/-! ## Reading -/

variable {x : Float} {rest : List Char}

/-- The text of a finite double is found in front of a text. -/
theorem numberLiteral_numberChars (h : x.isFinite = true) (hrest : EndsNumber rest) :
    numberLiteral (numberChars x ++ rest) = .ok (numberChars x) := by
  obtain ⟨negative, d, hplain, hchars, -⟩ := exists_written h
  rw [hchars]
  exact numberLiteral_chars (wellFormed_partsOf hplain) negative hrest

/-- **Reading.** The text of a finite double stands for that double. -/
theorem literalFloat_numberChars (h : x.isFinite = true) :
    literalFloat (numberChars x) = .ok x := by
  obtain ⟨negative, d, hplain, hchars, hback⟩ := exists_written h
  have hwell := wellFormed_partsOf hplain
  have hsign : ((numberChars x).head? == some '-') = negative := by
    rw [hchars]
    cases negative with
    | true => rfl
    | false =>
        have hminus : ((partsOf d).chars ++ []).head? ≠ some '-' := head?_chars_ne_minus hwell
        rw [List.append_nil] at hminus
        exact beq_eq_false_iff_ne.mpr hminus
  have hdigits : (if negative then (numberChars x).drop 1 else numberChars x) =
      (partsOf d).chars := by
    rw [hchars]
    cases negative with
    | true => rfl
    | false => rfl
  unfold literalFloat
  dsimp only
  rw [hsign, hdigits, hback, if_pos h]

/-- The text of a double begins like a number. -/
theorem numberChars_eq_cons (h : x.isFinite = true) :
    ∃ c tail, numberChars x = c :: tail ∧ (c = '-' ∨ c.isDigit = true) := by
  obtain ⟨negative, d, hplain, hchars, -⟩ := exists_written h
  have hwell := wellFormed_partsOf hplain
  obtain ⟨c, more, hwhole⟩ := List.exists_cons_of_ne_nil hwell.whole_ne_nil
  rw [hchars]
  cases negative with
  | true => exact ⟨'-', _, rfl, .inl rfl⟩
  | false =>
      refine ⟨c, more ++ ((partsOf d).placesChars ++ (partsOf d).powerChars), ?_, .inr ?_⟩
      · simp [NumberParts.chars, hwhole]
      · exact hwell.whole_digits c (hwhole ▸ List.mem_cons_self)

end Reckoner.Json
