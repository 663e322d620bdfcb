import Mathlib.Tactic.Linarith
import Mathlib.Tactic.Ring
import Reckoner.Proofs.Statistics.Exact
import Reckoner.Statistics.Summary

/-!
# `Reckoner.Proofs.Statistics.Quantiles` — quantiles interpolate sorted values

A rank has a whole part and a fraction. Between two whole ranks a quantile leads from one value to the
next in proportion to the fraction. Over the rational numbers this is a line from the first value to
the last that never goes down, also where the whole part changes and at the end, where there is no
next value.

## Contents
- **Lines.** `interpolated`, which never goes down (`interpolated_mono`).
- **Quantiles.** `quantile_eq`: the values on the line.
- **Summaries.** `Spread`: the three quantiles of a summary, for any scalar.
- **Order.** `quantile_interpolates`.
-/

namespace Reckoner.Statistics

/-! ## Lines -/

section Lines

variable {values : Nat → ℚ} {h h' : ℚ}

/-- The line through values at whole ranks. -/
def interpolated (values : Nat → ℚ) (h : ℚ) : ℚ :=
  values ⌊h⌋.toNat + Int.fract h * (values (⌊h⌋.toNat + 1) - values ⌊h⌋.toNat)

theorem interpolated_natCast (values : Nat → ℚ) (k : Nat) : interpolated values k = values k := by
  rw [interpolated, Int.floor_natCast, Int.fract_natCast, zero_mul, add_zero, Int.toNat_natCast]

theorem interpolated_zero (values : Nat → ℚ) : interpolated values 0 = values 0 := by
  rw [← interpolated_natCast values 0, Nat.cast_zero]

/-- The line is between the values on both sides. -/
theorem interpolated_between (hvalues : Monotone values) (h : ℚ) :
    values ⌊h⌋.toNat ≤ interpolated values h ∧ interpolated values h ≤ values (⌊h⌋.toNat + 1) := by
  have hstep : 0 ≤ values (⌊h⌋.toNat + 1) - values ⌊h⌋.toNat := sub_nonneg.mpr (hvalues (Nat.le_succ _))
  have hnonneg := mul_nonneg (Int.fract_nonneg h) hstep
  have hle := mul_le_of_le_one_left hstep (Int.fract_lt_one h).le
  unfold interpolated
  constructor <;> linarith

/-- **The line never goes down.** -/
theorem interpolated_mono (hvalues : Monotone values) (hpos : 0 ≤ h) (hle : h ≤ h') :
    interpolated values h ≤ interpolated values h' := by
  have hfloor := Int.floor_mono hle
  have hzero := Int.floor_nonneg.mpr hpos
  rcases hfloor.lt_or_eq with hless | hsame
  · -- a value at a whole rank stands between them
    calc interpolated values h ≤ values (⌊h⌋.toNat + 1) := (interpolated_between hvalues h).2
      _ ≤ values ⌊h'⌋.toNat := hvalues (by omega)
      _ ≤ interpolated values h' := (interpolated_between hvalues h').1
  · have hfract : Int.fract h ≤ Int.fract h' := by
      rw [Int.fract, Int.fract, hsame]
      linarith
    have hstep : 0 ≤ values (⌊h'⌋.toNat + 1) - values ⌊h'⌋.toNat := sub_nonneg.mpr (hvalues (Nat.le_succ _))
    have hmore := mul_le_mul_of_nonneg_right hfract hstep
    unfold interpolated
    rw [hsame]
    linarith

end Lines

/-! ## Quantiles -/

variable {sorted : Array ℚ} {p : ℚ} {k : Nat}

/-- The value at a whole rank; the last one beyond the last rank. -/
def valueAt (sorted : Array ℚ) (k : Nat) : ℚ := (sorted[min k (sorted.size - 1)]?).getD 0

theorem getElem?_eq_valueAt (hk : k < sorted.size) : sorted[k]? = some (valueAt sorted k) := by
  have hmin : min k (sorted.size - 1) = k := by omega
  rw [valueAt, hmin, Array.getElem?_eq_getElem hk, Option.getD_some]

theorem valueAt_of_le (hk : sorted.size - 1 ≤ k) :
    valueAt sorted k = valueAt sorted (sorted.size - 1) := by
  rw [valueAt, valueAt, Nat.min_eq_right hk, Nat.min_self]

theorem back?_eq_valueAt (hne : sorted ≠ #[]) :
    sorted.back? = some (valueAt sorted (sorted.size - 1)) := by
  have hpos : 0 < sorted.size := Array.size_pos_iff.mpr hne
  rw [Array.back?_eq_getElem?, getElem?_eq_valueAt (by omega)]

/-- Sorted values do not go down. -/
theorem monotone_valueAt (hsorted : sorted.toList.Pairwise (· ≤ ·)) : Monotone (valueAt sorted) := by
  refine monotone_nat_of_le_succ fun k => ?_
  rcases Nat.lt_or_ge (k + 1) sorted.size with hk | hk
  · have hle := List.pairwise_iff_getElem.mp hsorted k (k + 1) (by simpa using by omega)
      (by simpa using hk) (Nat.lt_succ_self k)
    have hfirst : sorted[k]? = _ := getElem?_eq_valueAt (by omega)
    have hsecond := getElem?_eq_valueAt hk
    rw [Array.getElem?_eq_getElem (by omega), Option.some.injEq] at hfirst hsecond
    rw [← hfirst, ← hsecond]
    simpa using hle
  · rw [valueAt_of_le (k := k + 1) (by omega)]
    exact (valueAt_of_le (k := k) (by omega)).le

theorem isProbability_iff : isProbability p = true ↔ 0 ≤ p ∧ p ≤ 1 := by
  rw [isProbability, Bool.and_eq_true, le_eq_decide, le_eq_decide, decide_eq_true_eq,
    decide_eq_true_eq, ofNat_eq_cast, ofNat_eq_cast, Nat.cast_zero, Nat.cast_one]

/-- **At a rank that exists** the value is on the line. -/
theorem atRank_eq (hne : sorted ≠ #[]) {h : ℚ} (hpos : 0 ≤ h) (hlast : h ≤ (sorted.size - 1 : ℕ)) :
    atRank sorted (Scalar.index h) (h - Scalar.floor h) =
      some (interpolated (valueAt sorted) h) := by
  have hsize : 0 < sorted.size := Array.size_pos_iff.mpr hne
  have hfloor : ⌊h⌋ ≤ (sorted.size - 1 : ℕ) := by
    exact_mod_cast (Int.floor_le h).trans hlast
  have hzero := Int.floor_nonneg.mpr hpos
  show atRank sorted ⌊h⌋.toNat (h - ⌊h⌋) = _
  unfold atRank
  rcases Nat.lt_or_ge (⌊h⌋.toNat + 1) sorted.size with hnext | hend
  · rw [getElem?_eq_valueAt hnext, getElem?_eq_valueAt (Nat.lt_of_succ_lt hnext)]
    refine congrArg some ?_
    show (((1 : ℕ) : ℚ) - (h - ⌊h⌋)) * valueAt sorted ⌊h⌋.toNat +
      (h - ⌊h⌋) * valueAt sorted (⌊h⌋.toNat + 1) = _
    rw [interpolated, Int.fract, Nat.cast_one]
    ring
  · -- the last rank has no fraction
    have hrank : h = (sorted.size - 1 : ℕ) := by
      refine le_antisymm hlast ?_
      calc ((sorted.size - 1 : ℕ) : ℚ) ≤ ⌊h⌋ := by exact_mod_cast (by omega)
        _ ≤ h := Int.floor_le h
    rw [Array.getElem?_eq_none hend, hrank, interpolated_natCast, ← back?_eq_valueAt hne]
    split
    · rename_i hnone
      cases hnone
    · rfl

/-- **A quantile** is on the line through the sorted values, at its rank. -/
theorem quantile_eq (hne : sorted ≠ #[]) (hp : 0 ≤ p ∧ p ≤ 1) :
    quantile sorted p = some (interpolated (valueAt sorted) ((sorted.size - 1 : ℕ) * p)) := by
  have hempty : sorted.isEmpty = false := by simpa using hne
  have hcount : (0 : ℚ) ≤ (sorted.size - 1 : ℕ) := Nat.cast_nonneg _
  have hrank := atRank_eq hne (mul_nonneg hcount hp.1) (mul_le_of_le_one_right hcount hp.2)
  unfold quantile
  rw [hempty, isProbability_iff.mpr hp, if_neg (by decide)]
  split
  · -- a single value is at every rank
    rename_i hone
    have hsize : sorted.size = 1 := beq_iff_eq.mp hone
    rw [hsize, Nat.cast_zero, zero_mul, interpolated_zero]
    exact getElem?_eq_valueAt (by omega)
  · exact hrank

/-- There is a quantile at every probability, and nowhere else. -/
theorem isSome_quantile_iff (hne : sorted ≠ #[]) :
    (quantile sorted p).isSome = true ↔ 0 ≤ p ∧ p ≤ 1 := by
  constructor
  · intro hsome
    by_contra hp
    have hno : isProbability p = false := by
      rw [Bool.eq_false_iff]
      exact mt isProbability_iff.mp hp
    unfold quantile at hsome
    rw [hno, Bool.not_false, Bool.or_true, if_pos rfl] at hsome
    cases hsome
  · intro hp
    rw [quantile_eq hne hp]
    rfl

/-- Higher probabilities have higher quantiles. -/
theorem quantile_mono (hsorted : sorted.toList.Pairwise (· ≤ ·)) (hne : sorted ≠ #[]) {q x y : ℚ}
    (hpq : p ≤ q) (hx : quantile sorted p = some x) (hy : quantile sorted q = some y) : x ≤ y := by
  have hp := (isSome_quantile_iff hne).mp (Option.isSome_of_eq_some hx)
  have hq := (isSome_quantile_iff hne).mp (Option.isSome_of_eq_some hy)
  have hcount : (0 : ℚ) ≤ (sorted.size - 1 : ℕ) := Nat.cast_nonneg _
  rw [quantile_eq hne hp, Option.some.injEq] at hx
  rw [quantile_eq hne hq, Option.some.injEq] at hy
  rw [← hx, ← hy]
  exact interpolated_mono (monotone_valueAt hsorted) (mul_nonneg hcount hp.1)
    (mul_le_mul_of_nonneg_left hpq hcount)

/-- At a whole rank the quantile is the value there. -/
theorem quantile_at_rank (hk : k < sorted.size) (hsize : 2 ≤ sorted.size) :
    quantile sorted (k / (sorted.size - 1 : ℕ)) = sorted[k]? := by
  have hne : sorted ≠ #[] := Array.size_pos_iff.mp (by omega)
  have hcount : (0 : ℚ) < (sorted.size - 1 : ℕ) := by exact_mod_cast (by omega)
  have hle : (k : ℚ) ≤ (sorted.size - 1 : ℕ) := by exact_mod_cast (by omega)
  rw [quantile_eq hne ⟨div_nonneg (Nat.cast_nonneg k) hcount.le, (div_le_one hcount).mpr hle⟩,
    mul_div_cancel₀ _ hcount.ne', interpolated_natCast, getElem?_eq_valueAt hk]

/-- The first value is a quantile, and so is the last. -/
theorem quantile_zero (hne : sorted ≠ #[]) : quantile sorted 0 = sorted[0]? := by
  have hsize : 0 < sorted.size := Array.size_pos_iff.mpr hne
  rw [quantile_eq hne ⟨le_refl _, zero_le_one⟩, mul_zero, interpolated_zero,
    getElem?_eq_valueAt hsize]

theorem quantile_one (hne : sorted ≠ #[]) : quantile sorted 1 = sorted.back? := by
  rw [quantile_eq hne ⟨zero_le_one, le_refl _⟩, mul_one, interpolated_natCast, back?_eq_valueAt hne]

/-! ## Summaries -/

/-- The quantiles of a summary. -/
structure Spread (α : Type) where
  p05 : α
  p50 : α
  p95 : α

/-- A fraction as a scalar. -/
def ratio {α : Type} [Scalar α] (m n : Nat) : α := Scalar.ofNat m / Scalar.ofNat n

/-- The quantiles at 5, 50 and 95 percent. -/
def Spread.ofSorted {α : Type} [Scalar α] (sorted : Array α) : Option (Spread α) := do
  return ⟨← quantile sorted (ratio 1 20), ← quantile sorted (ratio 1 2),
    ← quantile sorted (ratio 19 20)⟩

/-- The quantiles in a summary of doubles. -/
def Summary.spread (s : Summary) : Spread Float := ⟨s.p05, s.p50, s.p95⟩

/-- A summary of doubles has these quantiles. -/
theorem map_spread_ofSorted (sorted : List Float) :
    (Summary.ofSorted sorted).map Summary.spread = Spread.ofSorted sorted.toArray := by
  have h05 : (ratio 1 20 : Float) = 0.05 := by decide +kernel
  have h50 : (ratio 1 2 : Float) = 0.50 := by decide +kernel
  have h95 : (ratio 19 20 : Float) = 0.95 := by decide +kernel
  unfold Summary.ofSorted Spread.ofSorted
  rw [h05, h50, h95]
  cases sorted with
  | nil => rfl
  | cons x sorted =>
      have hmean : Statistics.mean (x :: sorted) =
          some (sum (x :: sorted) / Float.ofNat (x :: sorted).length) := rfl
      rw [hmean]
      dsimp only
      -- all three are there, or there is neither a summary nor a spread
      generalize quantile (x :: sorted).toArray 0.05 = p05
      generalize quantile (x :: sorted).toArray 0.50 = p50
      generalize quantile (x :: sorted).toArray 0.95 = p95
      cases p05 with
      | none => rfl
      | some p05 =>
          cases p50 with
          | none => rfl
          | some p50 => cases p95 <;> rfl

/-! ## Order -/

/-- The three quantiles of sorted values are in order, between the first value and the last. -/
theorem spread_between (hsorted : sorted.toList.Pairwise (· ≤ ·)) (hne : sorted ≠ #[]) :
    ∃ first last spread, sorted[0]? = some first ∧ sorted.back? = some last ∧
      Spread.ofSorted sorted = some spread ∧ first ≤ spread.p05 ∧ spread.p05 ≤ spread.p50 ∧
        spread.p50 ≤ spread.p95 ∧ spread.p95 ≤ last := by
  have hratio (m n : Nat) : (ratio m n : ℚ) = m / n := rfl
  have hdefined {m n : Nat} (hm : m ≤ n) : ∃ x, quantile sorted (ratio m n) = some x := by
    refine Option.isSome_iff_exists.mp ((isSome_quantile_iff hne).mpr ?_)
    have hle : (m : ℚ) ≤ n := by exact_mod_cast hm
    exact ⟨div_nonneg (Nat.cast_nonneg m) (Nat.cast_nonneg n),
      div_le_one_of_le₀ hle (Nat.cast_nonneg n)⟩
  obtain ⟨p05, h05⟩ := hdefined (m := 1) (n := 20) (by decide)
  obtain ⟨p50, h50⟩ := hdefined (m := 1) (n := 2) (by decide)
  obtain ⟨p95, h95⟩ := hdefined (m := 19) (n := 20) (by decide)
  obtain ⟨first, hfirst⟩ := Option.isSome_iff_exists.mp
    ((isSome_quantile_iff hne).mpr ⟨le_refl _, zero_le_one⟩)
  obtain ⟨last, hlast⟩ := Option.isSome_iff_exists.mp
    ((isSome_quantile_iff hne).mpr ⟨zero_le_one, le_refl _⟩)
  refine ⟨first, last, ⟨p05, p50, p95⟩, ?_, ?_, ?_, ?_, ?_, ?_, ?_⟩
  · rw [← quantile_zero hne, hfirst]
  · rw [← quantile_one hne, hlast]
  · rw [Spread.ofSorted, h05, h50, h95]
    rfl
  · exact quantile_mono hsorted hne (by norm_num [hratio]) hfirst h05
  · exact quantile_mono hsorted hne (by norm_num [hratio]) h05 h50
  · exact quantile_mono hsorted hne (by norm_num [hratio]) h50 h95
  · exact quantile_mono hsorted hne (by norm_num [hratio]) h95 hlast

/-- **Quantiles interpolate sorted values** and never go down. Over the rational numbers, sorted values
    have a quantile at every probability and nowhere else; at a whole rank it is the value there, at a
    higher probability it is not lower, and it is between the first value and the last. The three
    quantiles of a summary are therefore in order, between these values as well. -/
theorem quantile_interpolates (hsorted : sorted.toList.Pairwise (· ≤ ·)) (hne : sorted ≠ #[]) :
    (∀ p, (quantile sorted p).isSome = true ↔ 0 ≤ p ∧ p ≤ 1) ∧
    (2 ≤ sorted.size → ∀ k < sorted.size,
      quantile sorted (k / (sorted.size - 1)) = sorted[k]?) ∧
    (∀ p q x y, p ≤ q → quantile sorted p = some x → quantile sorted q = some y → x ≤ y) ∧
    (∃ first last, sorted[0]? = some first ∧ sorted.back? = some last ∧
      (∀ p x, quantile sorted p = some x → first ≤ x ∧ x ≤ last) ∧
      ∃ spread, Spread.ofSorted sorted = some spread ∧ first ≤ spread.p05 ∧
        spread.p05 ≤ spread.p50 ∧ spread.p50 ≤ spread.p95 ∧ spread.p95 ≤ last) ∧
    ∀ doubles, (Summary.ofSorted doubles).map Summary.spread = Spread.ofSorted doubles.toArray := by
  obtain ⟨first, last, spread, hfirst, hlast, hspread, hordered⟩ := spread_between hsorted hne
  refine ⟨fun p => isSome_quantile_iff hne, fun hsize k hk => ?_,
    fun p q x y hpq hx hy => quantile_mono hsorted hne hpq hx hy,
    ⟨first, last, hfirst, hlast, fun p x hx => ?_, spread, hspread, hordered⟩, map_spread_ofSorted⟩
  · have hcast : ((sorted.size - 1 : ℕ) : ℚ) = sorted.size - 1 := by
      rw [Nat.cast_sub (by omega), Nat.cast_one]
    rw [← hcast]
    exact quantile_at_rank hk hsize
  · obtain ⟨hzero, hone⟩ := (isSome_quantile_iff hne).mp (Option.isSome_of_eq_some hx)
    exact ⟨quantile_mono hsorted hne hzero ((quantile_zero hne).trans hfirst) hx,
      quantile_mono hsorted hne hone hx ((quantile_one hne).trans hlast)⟩

/-- Five values; 5 percent of the way is a fifth of the step from the first to the second. -/
theorem quantile_interpolates_five :
    let sorted : Array ℚ := #[1, 2, 3, 4, 5]
    sorted.toList.Pairwise (· ≤ ·) ∧ sorted ≠ #[] ∧ quantile sorted (2 / 4) = some 3 ∧
      quantile sorted (1 / 20) = some (6 / 5) ∧ (quantile sorted (3 / 2)).isSome = false ∧
      ∃ first last, sorted[0]? = some first ∧ sorted.back? = some last ∧
        ∃ spread, Spread.ofSorted sorted = some spread ∧ first ≤ spread.p05 ∧
          spread.p05 ≤ spread.p50 ∧ spread.p50 ≤ spread.p95 ∧ spread.p95 ≤ last := by
  intro sorted
  have hsorted : sorted.toList.Pairwise (· ≤ ·) := by decide +kernel
  have hne : sorted ≠ #[] := by decide
  obtain ⟨hdefined, hranks, -, ⟨first, last, hfirst, hlast, -, hspread⟩, -⟩ :=
    quantile_interpolates hsorted hne
  have hmiddle := hranks (by decide) 2 (by decide)
  refine ⟨hsorted, hne, ?_, by decide +kernel, ?_, first, last, hfirst, hlast, hspread⟩
  · calc quantile sorted (2 / 4) = quantile sorted ((2 : ℕ) / (sorted.size - 1)) := by norm_num [sorted]
      _ = some 3 := hmiddle
  · rw [Bool.eq_false_iff]
    exact fun h => absurd ((hdefined _).mp h).2 (by norm_num)

end Reckoner.Statistics
