import Reckoner.Proofs.Double.Limits
import Reckoner.Statistics.Scalar

/-!
# `Reckoner.Proofs.Double.Whole` — whole parts of doubles

A mantissa is cut off at the exponent zero to give a whole part. The floor of a double is its whole
part as a double again, and what is left of the double is between nothing and one.

## Contents
- **Whole numbers.** `rounds_ofNat` and `rounds_toFloat`: every whole number is rounded.
- **Whole parts.** `toNat_toUInt64`: the whole part of what is not negative.
- **Floors.** `floor_spec`.
-/

namespace Reckoner.Double

open Float.Model (Format UnpackedFloat)
open Float.Model.UnpackedFloat

variable {x y z : Float} {m : Nat} {e : Int}

/-! ## Whole numbers -/

/-- **Every whole number is rounded to a double.** -/
theorem rounds_ofNat (n : Nat) : Rounds n (Float.ofNat n) := by
  rcases Nat.lt_or_ge n (2 ^ 53) with hn | hn
  · obtain ⟨hfinite, hvalue⟩ := ofNat_exact hn
    exact hvalue ▸ rounds_self hfinite
  · -- a product with one, at an exponent that leaves 53 bits behind the point
    obtain ⟨m, hm⟩ : ∃ m, n <<< 53 * 1 = m := ⟨_, rfl⟩
    have hshifted : n * 2 ^ 53 = m := by rw [← hm, Nat.shiftLeft_eq, Nat.mul_one]
    have hparts : parts (Float.ofNat n) =
        repacked (roundWithAccuracy Format.binary64 .positive m (-53) .exact) := by
      have hfloat : Float.ofNat n = ⟨Float.Model.ofScientific n 0⟩ :=
        dif_neg fun h => Nat.not_lt.mpr hn h.1
      have hlarge : ¬(0 : Int) < -(2 ^ Format.binary64.exponentBits + n.log2) := by
        have hbits : (0 : Int) ≤ 2 ^ Format.binary64.exponentBits := by decide
        omega
      have hunpacked : ofScientific Format.binary64 n 0 =
          roundWithAccuracy Format.binary64 .positive (n <<< 53 * 1) (-53) .exact := by
        unfold ofScientific
        rw [dif_neg (by omega), if_neg (by decide), if_neg hlarge, if_pos (Int.le_refl 0)]
        rfl
      rw [hfloat, ← hm, ← hunpacked]
      rfl
    have hpos : 0 < m := by omega
    have hvalue : (n : ℚ) = signum .positive * (m * 2 ^ (-53 : ℤ)) := by
      rw [← hshifted, signum, one_mul, zpow_neg]
      push_cast
      exact (mul_inv_cancel_right₀ (by norm_num) _).symm
    have hbits : 2 ^ 52 ≤ m := by omega
    rw [hvalue]
    exact (magnitude_roundWithAccuracy (represents_exact m) (by exact_mod_cast hpos) (.inl hpos)
      (le_target_of_bits (.inl hbits))).rounds (by positivity) hparts

/-- A word is rounded like its number. -/
theorem rounds_toFloat (w : UInt64) : Rounds w.toNat w.toFloat :=
  rounds_normalize (n := w.toNat) (e := 0) rfl (by simp)

/-! ## Whole parts -/

/-- **A mantissa is cut off** at the exponent zero. -/
theorem roundToInt_positive (m : Nat) (e : Int) :
    roundToInt .positive m e = ⌊(m * 2 ^ e : ℚ)⌋ := by
  have hcut : roundToInt .positive m e =
      (ExtendedMantissa.ofMantissaAndAccuracy (m <<< (e - 0).toNat) .exact >>>
        (0 - (e - (e - 0).toNat)).toNat).mantissa := rfl
  rw [hcut, ← ((represents_exact _).shiftRight _).floor_eq]
  congr 1
  rcases Int.le_total 0 e with he | he
  · obtain ⟨k, rfl⟩ := Int.eq_ofNat_of_zero_le he
    have hleft : ((k : Int) - 0).toNat = k := by omega
    have hright : (0 - ((k : Int) - k)).toNat = 0 := by omega
    rw [hleft, hright, pow_zero, div_one, Nat.shiftLeft_eq, zpow_natCast]
    push_cast
    rfl
  · obtain ⟨k, hk⟩ := Int.eq_ofNat_of_zero_le (Int.neg_nonneg_of_nonpos he)
    have hleft : (e - 0).toNat = 0 := by omega
    have hright : (0 - (e - (0 : ℕ))).toNat = k := by omega
    rw [hleft, hright, Nat.shiftLeft_zero, ← neg_neg e, hk, zpow_neg, zpow_natCast, div_eq_mul_inv]

theorem toInt_parts (hx : x.isFinite = true) (hnonneg : 0 ≤ toRat x) (low high : Int) :
    toInt low high (parts x) = ⌊toRat x⌋ := by
  rcases nonneg_cases hx hnonneg with ⟨hvalue, s, h⟩ | ⟨m, e, hm, h, -, -, hvalue⟩
  · rw [hvalue, h, Int.floor_zero]
    rfl
  · rw [hvalue, h]
    exact roundToInt_positive m e

/-- **The whole part** of a double that is not negative and not too large. -/
theorem toNat_toUInt64 (hx : x.isFinite = true) (hnonneg : 0 ≤ toRat x) (hsmall : toRat x < 2 ^ 53) :
    (x.toUInt64.toNat : ℤ) = ⌊toRat x⌋ ∧ x.toUInt64.toNat < 2 ^ 53 := by
  obtain ⟨k, hk⟩ := Int.eq_ofNat_of_zero_le (Int.floor_nonneg.mpr hnonneg)
  have hbound : k < 2 ^ 53 := by
    have hfloor : ⌊toRat x⌋ < (2 ^ 53 : ℕ) := by
      rw [Int.floor_lt]
      exact_mod_cast hsmall
    omega
  have hword : x.toUInt64 = UInt64.ofNatClamp k := by
    show UInt64.ofNatClamp (toInt 0 (UInt64.size - 1) (parts x)).toNat = _
    rw [toInt_parts hx hnonneg, hk, Int.toNat_natCast]
  have hword' : k < UInt64.size := Nat.lt_trans hbound (by decide)
  have hclamp : UInt64.ofNatClamp k = UInt64.ofNatLT k hword' := dif_pos hword'
  rw [hword, hclamp, UInt64.toNat_ofNatLT, hk]
  exact ⟨rfl, hbound⟩

/-! ## Floors -/

theorem parts_abs (x : Float) : parts x.abs = (parts x).abs := by
  change repacked (parts x).abs = _
  cases h : parts x with
  | notANumber => exact repacked_notANumber
  | infinity s => exact repacked_infinity .positive
  | zero s => exact repacked_zero .positive
  | finite s m e hm =>
      obtain ⟨hshape, he⟩ := shape_of_unpack h
      exact repacked_finite hshape he

theorem isFinite_abs (x : Float) : x.abs.isFinite = x.isFinite := by
  rw [isFinite_eq, isFinite_eq, parts_abs]
  cases parts x <;> rfl

theorem toRat_abs (hx : x.isFinite = true) : toRat x.abs = |toRat x| := by
  have habs := parts_abs x
  rcases finite_cases hx with ⟨s, h⟩ | ⟨s, m, e, hm, h, -, -⟩
  · rw [h] at habs
    rw [toRat_of_zero h, toRat_of_zero habs, abs_zero]
  · rw [h] at habs
    rw [toRat_of_finite h, toRat_of_finite habs, abs_signum_mul (by positivity), signum, one_mul]

open Statistics

/-- The floor of a double that is not negative is the double itself, or its whole part. -/
theorem floorDouble_cases (hnegative : ¬x < 0) :
    floorDouble x = x ∨
      x.abs < 4503599627370496 ∧ floorDouble x = x.abs.toUInt64.toFloat := by
  by_cases hsmall : x.abs < 4503599627370496
  · have hfloor : floorDouble x =
        if x.abs.toUInt64.toFloat == x.abs then x
        else if x < 0 then -(x.abs.toUInt64.toFloat + 1) else x.abs.toUInt64.toFloat := if_pos hsmall
    rw [if_neg hnegative] at hfloor
    rw [hfloor]
    split_ifs
    · exact .inl rfl
    · exact .inr ⟨hsmall, rfl⟩
  · exact .inl (if_neg hsmall)

/-- **The floor** of a double that is not negative is at most one less. -/
theorem floor_spec (hx : x.isFinite = true) (hnonneg : 0 ≤ toRat x) :
    (floorDouble x).isFinite = true ∧ 0 ≤ toRat x - toRat (floorDouble x) ∧
      toRat x - toRat (floorDouble x) ≤ 1 := by
  have hnegative : ¬x < 0 := by
    obtain ⟨hzero, hzeroValue⟩ := ofNat_exact (n := 0) (by decide)
    intro h
    have hlt := (lt_iff hx hzero).mp h
    rw [hzeroValue, Nat.cast_zero] at hlt
    linarith
  rcases floorDouble_cases hnegative with hself | ⟨hsmall, hwhole⟩
  · rw [hself, sub_self]
    exact ⟨hx, le_refl _, by norm_num⟩
  · have habs : x.abs.isFinite = true := (isFinite_abs x).trans hx
    have hvalue : toRat x.abs = toRat x := (toRat_abs hx).trans (abs_of_nonneg hnonneg)
    obtain ⟨hlimit, hlimitValue⟩ := ofNat_exact (n := 4503599627370496) (by decide)
    have hbelow : toRat x.abs < (4503599627370496 : ℕ) :=
      hlimitValue ▸ (lt_iff habs hlimit).mp hsmall
    rw [hvalue] at hbelow
    obtain ⟨hfloor, hbits⟩ :=
      toNat_toUInt64 habs (hvalue.symm ▸ hnonneg) (hvalue.symm ▸ hbelow.trans (by norm_num))
    obtain ⟨hfinite, hwholeValue⟩ := (rounds_toFloat x.abs.toUInt64).natCast hbits
    have hcast : toRat x.abs.toUInt64.toFloat = ⌊toRat x⌋ := by
      rw [hwholeValue, ← hvalue, ← hfloor, Int.cast_natCast]
    rw [hwhole, hcast]
    exact ⟨hfinite, Int.fract_nonneg _, (Int.fract_lt_one _).le⟩

end Reckoner.Double
