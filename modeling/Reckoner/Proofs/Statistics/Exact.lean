import Mathlib.Algebra.Order.Field.Rat
import Mathlib.Data.Rat.Floor
import Reckoner.Statistics.Histogram
import Reckoner.Statistics.Quantile

/-!
# `Reckoner.Proofs.Statistics.Exact` — statistics of rational numbers

Quantiles and histograms are defined for any scalar. Over the rational numbers nothing is rounded, and
what they compute can be compared with what they mean. Where only comparisons matter, as for the least
and the greatest of some numbers, a scalar may also stand for the rational number that is its value.

## Contents
- **Rational numbers** as scalars.
- **Extremes.** `ComparedBy`: scalars in order as their values are; `least_spec` and `greatest_spec`.
-/

namespace Reckoner.Statistics

/-! ## Rational numbers -/

/-- Rational numbers. The least and the greatest of no numbers are infinite, for which there is no
    rational number; zero is in their place. -/
instance : Scalar ℚ where
  ofNat n := n
  le x y := decide (x ≤ y)
  floor x := ⌊x⌋
  index x := ⌊x⌋.toNat
  leastOfNone := 0
  greatestOfNone := 0

theorem le_eq_decide (x y : ℚ) : Scalar.le x y = decide (x ≤ y) := rfl

theorem ofNat_eq_cast (n : Nat) : (Scalar.ofNat n : ℚ) = n := rfl

/-! ## Extremes -/

variable {α : Type} [Scalar α] {κ : α → ℚ} {values : List α} {x : α}

/-- Scalars that are in order as some rational values of theirs are. -/
def ComparedBy (κ : α → ℚ) (values : List α) : Prop :=
  ∀ x ∈ values, ∀ y ∈ values, Scalar.le x y = decide (κ x ≤ κ y)

theorem comparedBy_id (values : List ℚ) : ComparedBy id values := fun _ _ _ _ => rfl

/-- All of them compare with themselves. -/
theorem ComparedBy.filter_isComparable (h : ComparedBy κ values) :
    values.filter isComparable = values := by
  rw [List.filter_eq_self]
  intro x hx
  rw [isComparable, h x hx x hx, decide_eq_true (le_refl _)]

omit [Scalar α] in
/-- What is kept of a list when the later of two is taken wherever it is in order. -/
theorem foldl_kept {before : α → α → Bool} (hbefore : ∀ y ∈ x :: values, ∀ z ∈ x :: values,
    before y z = decide (κ y ≤ κ z)) :
    let kept := values.foldl (fun acc y => if before y acc then y else acc) x
    kept ∈ x :: values ∧ ∀ y ∈ x :: values, κ kept ≤ κ y := by
  induction values generalizing x with
  | nil =>
      refine ⟨List.mem_cons_self, fun y hy => ?_⟩
      rw [List.mem_singleton.mp hy]
      exact le_refl _
  | cons y values ih =>
      intro kept
      have hstep : before y x = decide (κ y ≤ κ x) :=
        hbefore y (List.mem_cons_of_mem _ List.mem_cons_self) x List.mem_cons_self
      -- the rest begins with the smaller of the first two
      obtain ⟨first, hfirst, hsub, hx, hy⟩ : ∃ first, (if before y x then y else x) = first ∧
          first :: values ⊆ x :: y :: values ∧ κ first ≤ κ x ∧ κ first ≤ κ y := by
        rw [hstep]
        by_cases hle : κ y ≤ κ x
        · rw [decide_eq_true hle]
          exact ⟨y, rfl, List.subset_cons_self x _, hle, le_refl _⟩
        · rw [decide_eq_false hle]
          exact ⟨x, rfl, List.cons_subset_cons x (List.subset_cons_self y values), le_refl _,
            (not_le.mp hle).le⟩
      have hkept : kept = values.foldl (fun acc y => if before y acc then y else acc) first := by
        rw [← hfirst]
        rfl
      obtain ⟨hmem, hleast⟩ :=
        ih (x := first) fun z hz w hw => hbefore z (hsub hz) w (hsub hw)
      rw [hkept]
      refine ⟨hsub hmem, fun z hz => ?_⟩
      rcases List.mem_cons.mp hz with rfl | hz
      · exact (hleast first List.mem_cons_self).trans hx
      · rcases List.mem_cons.mp hz with rfl | hz
        · exact (hleast first List.mem_cons_self).trans hy
        · exact hleast z (List.mem_cons_of_mem _ hz)

/-- **The least value** is one of the values, and none is smaller. -/
theorem least_spec (h : ComparedBy κ values) (hne : values ≠ []) :
    least values ∈ values ∧ ∀ v ∈ values, κ (least values) ≤ κ v := by
  rw [least, h.filter_isComparable]
  cases values with
  | nil => exact absurd rfl hne
  | cons x values => exact foldl_kept h

/-- **The greatest value** is one of the values, and none is greater. -/
theorem greatest_spec (h : ComparedBy κ values) (hne : values ≠ []) :
    greatest values ∈ values ∧ ∀ v ∈ values, κ v ≤ κ (greatest values) := by
  rw [greatest, h.filter_isComparable]
  cases values with
  | nil => exact absurd rfl hne
  | cons x values =>
      -- the order turned around
      have hturned : ∀ y ∈ x :: values, ∀ z ∈ x :: values,
          Scalar.le z y = decide (-κ y ≤ -κ z) := fun y hy z hz => by
        rw [h z hz y hy]
        simp only [neg_le_neg_iff]
      obtain ⟨hmem, hgreatest⟩ :=
        @foldl_kept α (fun v => -κ v) values x (fun y z => Scalar.le z y) hturned
      exact ⟨hmem, fun v hv => neg_le_neg_iff.mp (hgreatest v hv)⟩

theorem isLeast_least {values : List ℚ} (hne : values ≠ []) :
    IsLeast {v | v ∈ values} (least values) :=
  have ⟨hmem, hle⟩ := least_spec (comparedBy_id values) hne
  ⟨hmem, fun v hv => hle v hv⟩

theorem isGreatest_greatest {values : List ℚ} (hne : values ≠ []) :
    IsGreatest {v | v ∈ values} (greatest values) :=
  have ⟨hmem, hle⟩ := greatest_spec (comparedBy_id values) hne
  ⟨hmem, fun v hv => hle v hv⟩

end Reckoner.Statistics
