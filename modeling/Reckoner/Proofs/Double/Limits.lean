import Reckoner.Proofs.Double.Arithmetic

/-!
# `Reckoner.Proofs.Double.Limits` — how large results may be

A result is finite exactly if the exact number is closer to the greatest finite double than to the
power of two above it. Bounds with 53 bits are kept by rounding.

## Contents
- **Finite results.** `abs_toRat_le` and `Rounds.finite_of_lt`.
- **Bounds.** `Rounds.bounded`: what an exact number is bounded by also bounds its result.
-/

namespace Reckoner.Double

variable {x z : Float} {q : ℚ} {p : ℤ} {n : ℕ}

/-! ## Finite results -/

theorem abs_rounded (q : ℚ) : |rounded q| = roundPos |q| := by
  unfold rounded
  split_ifs with hq
  · rw [abs_neg, abs_of_neg hq, abs_of_nonneg (roundPos_nonneg (by linarith))]
  · rw [abs_of_nonneg (not_lt.mp hq), abs_of_nonneg (roundPos_nonneg (not_lt.mp hq))]

/-- The last place of the greatest doubles. -/
def topPlace : ℚ := 2 ^ (971 : ℤ)

theorem topPlace_pos : 0 < topPlace := by
  unfold topPlace
  positivity

/-- The greatest magnitude of a finite double. -/
def greatestFinite : ℚ := (2 ^ 53 - 1) * topPlace

theorem greatestFinite_pos : 0 < greatestFinite := mul_pos (by norm_num) topPlace_pos

theorem abs_toRat_le (hx : x.isFinite = true) : |toRat x| ≤ greatestFinite := by
  rcases finite_cases hx with ⟨s, h⟩ | ⟨s, m, e, hm, h, shape, he⟩
  · rw [toRat_of_zero h, abs_zero]
    exact greatestFinite_pos.le
  · rw [toRat_of_finite h, abs_signum_mul (by positivity)]
    have hmantissa : (m : ℚ) ≤ 2 ^ 53 - 1 := by
      rw [le_sub_iff_add_le]
      exact_mod_cast shape.mantissa_lt
    exact mul_le_mul hmantissa (zpow_le_zpow_right₀ (by norm_num) he) (by positivity)
      (by norm_num)

/-- **A result is finite if the exact number is below the middle** between the greatest finite double
    and the power of two above it. -/
theorem Rounds.finite_of_lt (h : Rounds q z) (hq : |q| < (2 ^ 53 - 1 / 2) * topPlace) :
    z.isFinite = true := by
  refine (h.finite ?_).1
  rw [abs_rounded, two_zpow_1024]
  rcases (abs_nonneg q).eq_or_lt with hzero | hpos
  · rw [← hzero, roundPos_zero]
    positivity
  · have hbits : |q| < 2 ^ 53 * 2 ^ (971 : ℤ) :=
      hq.trans (mul_lt_mul_of_pos_right (by norm_num) topPlace_pos)
    have hplace : place |q| ≤ 971 := place_le_of_lt hpos hbits (by norm_num)
    have hunit : (2 : ℚ) ^ place |q| ≤ 2 ^ (971 : ℤ) := zpow_le_zpow_right₀ (by norm_num) hplace
    unfold topPlace at hq
    linarith [roundPos_le_add |q|]

/-! ## Bounds -/

/-- **Bounds with 53 bits are kept.** -/
theorem Rounds.bounded (h : Rounds q z) (hq : |q| ≤ n * 2 ^ p) (hn : n < 2 ^ 53)
    (hlowest : -1074 ≤ p) (hhighest : p ≤ 971) :
    z.isFinite = true ∧ |toRat z| ≤ n * 2 ^ p := by
  have hrounded : |rounded q| ≤ n * 2 ^ p := by
    rw [abs_rounded, ← roundPos_natCast_mul hn hlowest]
    exact roundPos_mono (abs_nonneg q) hq
  have hsmall : (n * 2 ^ p : ℚ) < 2 ^ 1024 := by
    rw [two_zpow_1024]
    exact mul_lt_mul (by exact_mod_cast hn) (zpow_le_zpow_right₀ (by norm_num) hhighest)
      (by positivity) (by positivity)
  obtain ⟨hfinite, hvalue⟩ := h.finite (hrounded.trans_lt hsmall)
  exact ⟨hfinite, hvalue ▸ hrounded⟩

end Reckoner.Double
