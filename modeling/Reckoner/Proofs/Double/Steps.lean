import Reckoner.Proofs.Double.Whole

/-!
# `Reckoner.Proofs.Double.Steps` — multiples of a step ascend

Every position after some steps is computed from the first one, with two roundings, so that no error
adds up. As rounding keeps the order, positions ascend as far as they are finite.

## Contents
- **Multiples.** `multiples_ascend`.
- **Positions.** `positions_ascend`, and `first_position`.
-/

namespace Reckoner.Double

variable {lower step : Float} {i j : Nat}

/-! ## Multiples -/

/-- Greater whole numbers are not rounded to smaller doubles. -/
theorem ofNat_ascend (hij : i ≤ j) (hj : (Float.ofNat j).isFinite = true) :
    (Float.ofNat i).isFinite = true ∧ 0 ≤ toRat (Float.ofNat i) ∧
      toRat (Float.ofNat i) ≤ toRat (Float.ofNat j) := by
  have hmiddle := rounds_ofNat i
  have hhigh := rounds_ofNat j
  have hle : (i : ℚ) ≤ j := by exact_mod_cast hij
  have hfinite := hmiddle.finite_between (rounds_ofNat 0) hhigh (ofNat_exact (by decide)).1 hj
    (by exact_mod_cast Nat.zero_le i) hle
  exact ⟨hfinite, hmiddle.nonneg (Nat.cast_nonneg i) hfinite, hmiddle.mono hhigh hle hfinite hj⟩

/-- No step at all. -/
theorem multiple_zero (hstep : step.isFinite = true) :
    (step * Float.ofNat 0).isFinite = true ∧ toRat (step * Float.ofNat 0) = 0 := by
  obtain ⟨hzero, hzeroValue⟩ := ofNat_exact (n := 0) (by decide)
  have hrounds := rounds_mul hstep hzero
  rw [hzeroValue, Nat.cast_zero, mul_zero] at hrounds
  exact hrounds.zero

/-- **Smaller multiples are smaller.** -/
theorem multiples_ascend (hnonneg : 0 ≤ toRat step) (hij : i ≤ j)
    (hj : (step * Float.ofNat j).isFinite = true) :
    (step * Float.ofNat i).isFinite = true ∧ 0 ≤ toRat (step * Float.ofNat i) ∧
      toRat (step * Float.ofNat i) ≤ toRat (step * Float.ofNat j) := by
  obtain ⟨hstep, hcount⟩ := finite_of_mul hj
  obtain ⟨hi, hpos, hless⟩ := ofNat_ascend hij hcount
  obtain ⟨hzero, hzeroValue⟩ := multiple_zero hstep
  have hlow := rounds_self hzero
  have hmiddle := rounds_mul hstep hi
  have hhigh := rounds_mul hstep hcount
  have hproduct : 0 ≤ toRat step * toRat (Float.ofNat i) := mul_nonneg hnonneg hpos
  have hle := mul_le_mul_of_nonneg_left hless hnonneg
  have hfinite := hmiddle.finite_between hlow hhigh hzero hj (hzeroValue.trans_le hproduct) hle
  exact ⟨hfinite, hmiddle.nonneg hproduct hfinite, hmiddle.mono hhigh hle hfinite hj⟩

/-! ## Positions -/

/-- **Before a finite position** all positions are finite, and they never decrease. -/
theorem positions_ascend (hnonneg : 0 ≤ toRat step) (hij : i ≤ j)
    (hj : (lower + step * Float.ofNat j).isFinite = true) :
    (lower + step * Float.ofNat i).isFinite = true ∧
      toRat lower ≤ toRat (lower + step * Float.ofNat i) ∧
      toRat (lower + step * Float.ofNat i) ≤ toRat (lower + step * Float.ofNat j) := by
  obtain ⟨hlower, hmultiple⟩ := finite_of_add hj
  obtain ⟨hi, hpositive, hless⟩ := multiples_ascend hnonneg hij hmultiple
  have hlow := rounds_self hlower
  have hmiddle := rounds_add hlower hi
  have hhigh := rounds_add hlower hmultiple
  have hfinite := hmiddle.finite_between hlow hhigh hlower hj (by linarith) (by linarith)
  exact ⟨hfinite, hlow.mono hmiddle (by linarith) hlower hfinite,
    hmiddle.mono hhigh (by linarith) hfinite hj⟩

/-- The first position is where the steps begin. -/
theorem first_position (hlower : lower.isFinite = true) (hstep : step.isFinite = true) :
    (lower + step * Float.ofNat 0).isFinite = true ∧
      (lower + step * Float.ofNat 0 == lower) = true := by
  obtain ⟨hzero, hvalue⟩ := multiple_zero hstep
  have hrounds := rounds_add hlower hzero
  rw [hvalue, add_zero] at hrounds
  have hself := rounds_self hlower
  have hfinite := hrounds.finite_between hself hself hlower hlower (le_refl _) (le_refl _)
  exact ⟨hfinite, (beq_iff hfinite hlower).mpr
    ((hrounds.mono hself (le_refl _) hfinite hlower).antisymm
      (hself.mono hrounds (le_refl _) hlower hfinite))⟩

end Reckoner.Double
