import Reckoner.Proofs.Double.Limits

/-!
# `Reckoner.Proofs.Double.Root` — square roots of doubles are doubles

The root of a mantissa is taken at an exponent that gives it 53 bits. It has half as many bits before
the point as its square, so that no finite double has a root that is too large.

## Contents
- **Mantissas.** `rootExponent`, and the bits of the root.
- **Roots.** `isFinite_sqrt` and `finite_of_sqrt`.
-/

namespace Reckoner.Double

open Float.Model (Format UnpackedFloat)
open Float.Model.UnpackedFloat

variable {x : Float} {m : Nat} {e : Int}

/-! ## Mantissas -/

/-- Every accuracy stands for something that is left behind a mantissa. -/
theorem exists_represents (m : Nat) (accuracy : Accuracy) :
    ∃ t : ℚ, m ≤ t ∧ t < m + 1 ∧
      Represents (ExtendedMantissa.ofMantissaAndAccuracy m accuracy) t := by
  cases accuracy with
  | exact => exact ⟨m, le_refl _, by linarith, represents_exact m⟩
  | inexact o =>
      cases o with
      | lt =>
          refine ⟨m + 1 / 4, by linarith, by linarith, 1 / 4, by norm_num, by norm_num, ?_, ?_⟩
          · simp [ExtendedMantissa.ofMantissaAndAccuracy]
          · exact iff_of_true rfl (by norm_num)
      | eq =>
          refine ⟨m + 1 / 2, by linarith, by linarith, 0, le_refl _, by norm_num, ?_, ?_⟩
          · simp [ExtendedMantissa.ofMantissaAndAccuracy]
          · exact iff_of_false Bool.false_ne_true (lt_irrefl _)
      | gt =>
          refine ⟨m + 3 / 4, by linarith, by linarith, 1 / 4, by norm_num, by norm_num, ?_, ?_⟩
          · show (m : ℚ) + 3 / 4 = m + 1 / 2 + 1 / 4
            ring
          · exact iff_of_true rfl (by norm_num)

/-- The exponent at which a root is taken. -/
def rootExponent (m : Nat) (e : Int) : Int :=
  min (e / 2) (max (((m.log2 : Int) + 1 + e + 1) / 2 - 53) (-1074))

/-- The mantissa whose root is taken. -/
def radicand (m : Nat) (e : Int) : Nat := m <<< (e - 2 * rootExponent m e).toNat

theorem radicand_cast (m : Nat) (e : Int) :
    (radicand m e : ℚ) * (2 ^ rootExponent m e) ^ 2 = m * 2 ^ e := by
  have hexponent : 2 * rootExponent m e ≤ e := by
    unfold rootExponent
    omega
  have hsquare : ((2 : ℚ) ^ rootExponent m e) ^ 2 = 2 ^ (2 * rootExponent m e) := by
    rw [mul_comm, zpow_mul, zpow_ofNat]
  rw [hsquare, radicand, shiftLeft_cast m hexponent]

/-- **A root has all its bits.** -/
theorem root_bits (hm : 0 < m) (he : -1074 ≤ e) : 2 ^ 52 ≤ (radicand m e).sqrt := by
  rw [Nat.le_sqrt, ← pow_add, radicand, Nat.shiftLeft_eq]
  have hshift : 104 ≤ m.log2 + (e - 2 * rootExponent m e).toNat := by
    unfold rootExponent
    omega
  calc 2 ^ (52 + 52) ≤ 2 ^ (m.log2 + (e - 2 * rootExponent m e).toNat) :=
        Nat.pow_le_pow_right Nat.two_pos hshift
    _ = 2 ^ m.log2 * 2 ^ (e - 2 * rootExponent m e).toNat := pow_add ..
    _ ≤ m * 2 ^ (e - 2 * rootExponent m e).toNat :=
        Nat.mul_le_mul_right _ (Nat.log2_self_le hm.ne')

/-- A root is not more than its square is, from one on. -/
theorem root_lt (hsmall : (m * 2 ^ e : ℚ) < (2 ^ 512) ^ 2) :
    ((radicand m e).sqrt : ℚ) * 2 ^ rootExponent m e < 2 ^ 512 := by
  refine lt_of_pow_lt_pow_left₀ 2 (by positivity) (lt_of_le_of_lt ?_ hsmall)
  have hsquare : ((radicand m e).sqrt : ℚ) ^ 2 ≤ radicand m e := by
    exact_mod_cast Nat.sqrt_le' (radicand m e)
  calc ((radicand m e).sqrt * 2 ^ rootExponent m e : ℚ) ^ 2
      = (radicand m e).sqrt ^ 2 * (2 ^ rootExponent m e) ^ 2 := mul_pow _ _ 2
    _ ≤ radicand m e * (2 ^ rootExponent m e) ^ 2 :=
        mul_le_mul_of_nonneg_right hsquare (by positivity)
    _ = m * 2 ^ e := radicand_cast m e

/-! ## Roots -/

theorem parts_sqrt (x : Float) :
    parts x.sqrt = repacked (UnpackedFloat.sqrt Format.binary64 (parts x)) := rfl

/-- **The root of a finite double** that is not negative is finite. -/
theorem isFinite_sqrt (hx : x.isFinite = true) (hnonneg : 0 ≤ toRat x) :
    x.sqrt.isFinite = true := by
  have hroot := parts_sqrt x
  rcases nonneg_cases hx hnonneg with ⟨-, s, h⟩ | ⟨m, e, hm, h, shape, he, -⟩
  · rw [h] at hroot
    rw [isFinite_eq, hroot.trans (repacked_zero s)]
    rfl
  · obtain ⟨accuracy, haccuracy⟩ : ∃ accuracy, parts x.sqrt = repacked (roundWithAccuracy
        Format.binary64 .positive (radicand m e).sqrt (rootExponent m e) accuracy) := by
      rw [hroot, h]
      exact ⟨_, rfl⟩
    have hbits := root_bits hm shape.exponent_ge
    obtain ⟨t, hlow, hhigh, hrepresents⟩ := exists_represents (radicand m e).sqrt accuracy
    have hone : (1 : ℚ) ≤ (radicand m e).sqrt := by
      exact_mod_cast Nat.le_trans (by decide) hbits
    have ht : 0 < t := by linarith
    have hrounds := (magnitude_roundWithAccuracy hrepresents ht
      (.inl (Nat.lt_of_lt_of_le (by decide) hbits)) (le_target_of_bits (.inl hbits))).rounds
        (by positivity) haccuracy
    -- a finite double has a root below `2 ^ 512`, far below the greatest one
    have hsmall := (magnitude_lt_iff shape).mpr he
    have hless := root_lt (m := m) (e := e) (by rwa [← pow_mul])
    refine (hrounds.bounded (n := 2) (p := 512) ?_ (by decide) (by decide) (by decide)).1
    have hunit : (0 : ℚ) < 2 ^ rootExponent m e := by positivity
    rw [abs_signum_mul (by positivity)]
    calc t * 2 ^ rootExponent m e
        ≤ 2 * (radicand m e).sqrt * 2 ^ rootExponent m e := by gcongr; linarith
      _ = 2 * ((radicand m e).sqrt * 2 ^ rootExponent m e) := mul_assoc ..
      _ ≤ 2 * 2 ^ 512 := by gcongr
      _ = (2 : ℕ) * 2 ^ (512 : ℤ) := by rw [Nat.cast_ofNat, ← zpow_natCast, Nat.cast_ofNat]

/-- The root of finite doubles only is finite. -/
theorem finite_of_sqrt (h : x.sqrt.isFinite = true) : x.isFinite = true := by
  rw [isFinite_eq, parts_sqrt] at h
  rw [isFinite_eq]
  cases hx : parts x with
  | zero | finite => rfl
  | infinity s =>
      rw [hx] at h
      cases s <;> simp [UnpackedFloat.sqrt] at h
  | notANumber => simp [hx, UnpackedFloat.sqrt] at h

end Reckoner.Double
