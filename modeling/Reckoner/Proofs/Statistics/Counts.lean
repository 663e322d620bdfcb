import Reckoner.Statistics.Histogram
import Reckoner.Statistics.Summary

/-!
# `Reckoner.Proofs.Statistics.Counts` — no sample is lost

A histogram counts every value once. That does not depend on the numbers at all: whatever
comparisons, floors and divisions give, the index of a value is brought below the number of bins. A
summary exists as soon as there is a sample.

## Contents
- **Counters.** `total` of a list of counters, and what one more count adds to it.
- **Histograms.** `total_counts_histogram`, for every kind of scalar.
- **Summaries.** `exists_summary`.
-/

namespace Reckoner.Statistics

/-! ## Counters -/

/-- All counts together. -/
def total (counts : List Nat) : Nat := counts.foldr (· + ·) 0

theorem total_cons (count : Nat) (counts : List Nat) :
    total (count :: counts) = count + total counts := rfl

theorem total_replicate_zero (bins : Nat) : total (List.replicate bins 0) = 0 := by
  induction bins with
  | zero => rfl
  | succ bins ih => rw [List.replicate_succ, total_cons, ih]

/-- Counting once more at an index that exists. -/
theorem total_modify {counts : List Nat} {i : Nat} (h : i < counts.length) :
    total (counts.modify i (· + 1)) = total counts + 1 := by
  induction counts generalizing i with
  | nil => exact absurd h (Nat.not_lt_zero i)
  | cons count counts ih =>
      cases i with
      | zero =>
          rw [List.modify_zero_cons, total_cons, total_cons]
          omega
      | succ i =>
          rw [List.modify_succ_cons, total_cons, total_cons, ih (Nat.lt_of_succ_lt_succ h)]
          omega

/-- Counting a list of indices, all of which exist. -/
theorem total_foldl_modify (indices : List Nat) (counts : Array Nat)
    (h : ∀ i ∈ indices, i < counts.size) :
    total (indices.foldl (fun counts i => counts.modify i (· + 1)) counts).toList =
      total counts.toList + indices.length := by
  induction indices generalizing counts with
  | nil => rfl
  | cons i indices ih =>
      have hi : i < counts.toList.length := h i List.mem_cons_self
      -- one more count keeps the number of counters
      have hrest : ∀ j ∈ indices, j < (counts.modify i (· + 1)).size := by
        intro j hj
        rw [Array.size_modify]
        exact h j (List.mem_cons_of_mem _ hj)
      rw [List.foldl_cons, ih _ hrest, Array.toList_modify, total_modify hi, List.length_cons]
      omega

theorem total_tally {bins : Nat} {indices : List Nat} (h : ∀ i ∈ indices, i < bins) :
    total (tally bins indices).toList = indices.length := by
  have hsize : ∀ i ∈ indices, i < (Array.replicate bins 0).size := by
    intro i hi
    rw [Array.size_replicate]
    exact h i hi
  rw [tally, total_foldl_modify _ _ hsize, Array.toList_replicate, total_replicate_zero,
    Nat.zero_add]

/-! ## Histograms -/

section Histograms

variable {α : Type} [Scalar α]

/-- The index of a value is that of a bin, whatever the value and the edges are. -/
theorem binIndex_lt (lower width value : α) {bins : Nat} (h : 0 < bins) :
    binIndex lower width bins value < bins := by
  have hlast : binIndex lower width bins value ≤ bins - 1 := Nat.min_le_right _ _
  omega

/-- **Every value is counted once**, whatever the number of bins. -/
theorem total_counts_histogram (values : List α) (bins : Nat) :
    total ((histogram values bins).map (·.count)) = values.length := by
  unfold histogram
  by_cases hnone : values.isEmpty = true
  · rw [if_pos hnone, List.isEmpty_iff.mp hnone]
    rfl
  · rw [if_neg hnone]
    dsimp only
    split
    · rfl
    · rename_i hbins
      simp only [Bool.or_eq_true, decide_eq_true_eq, not_or] at hbins
      have hindex : ∀ i ∈ values.map (binIndex (least values)
          ((greatest values - least values) / Scalar.ofNat bins) bins), i < bins := by
        intro i hi
        obtain ⟨value, -, rfl⟩ := List.mem_map.mp hi
        exact binIndex_lt _ _ _ (by omega)
      -- the bins are the counters with edges added
      rw [List.mapIdx_eq_zipIdx_map, List.map_map]
      show total (List.map Prod.fst _) = _
      rw [List.zipIdx_map_fst, total_tally hindex, List.length_map]

/-- As soon as there is a value there is a bin. -/
theorem histogram_ne_nil {values : List α} (h : values ≠ []) (bins : Nat) :
    histogram values bins ≠ [] := by
  intro hempty
  have hcount := total_counts_histogram values bins
  rw [hempty] at hcount
  exact h (List.length_eq_zero_iff.mp hcount.symm)

/-! ## Summaries -/

/-- Sorted values have a quantile at every probability. -/
theorem exists_quantile {sorted : Array α} (h : sorted ≠ #[]) {p : α}
    (hp : isProbability p = true) : ∃ x, quantile sorted p = some x := by
  have hempty : sorted.isEmpty = false := by simpa using h
  have hback : ∃ x, sorted.back? = some x :=
    Option.isSome_iff_exists.mp (Array.back?_isSome.mpr h)
  unfold quantile
  rw [hempty, hp, if_neg (by decide)]
  split
  · rename_i hone
    have hpos : 0 < sorted.size := by
      rw [eq_of_beq hone]
      exact Nat.zero_lt_one
    exact ⟨sorted[0], Array.getElem?_eq_getElem hpos⟩
  · dsimp only
    unfold atRank
    split
    · exact ⟨_, rfl⟩
    · exact hback

end Histograms

theorem ofSamples_nil : Summary.ofSamples [] = none := by
  rw [Summary.ofSamples, sortSamples, List.mergeSort_nil]
  rfl

/-- **As soon as there is a sample there is a summary.** -/
theorem exists_summary {samples : List Float} (h : samples ≠ []) :
    ∃ summary, Summary.ofSamples samples = some summary := by
  have hsorted : sortSamples samples ≠ [] := by
    intro hempty
    have hlength : (sortSamples samples).length = samples.length := List.length_mergeSort samples
    rw [hempty] at hlength
    exact h (List.length_eq_zero_iff.mp hlength.symm)
  have harray : (sortSamples samples).toArray ≠ #[] := by simpa using hsorted
  obtain ⟨p05, h05⟩ := exists_quantile harray (p := 0.05) (by decide +kernel)
  obtain ⟨p50, h50⟩ := exists_quantile harray (p := 0.50) (by decide +kernel)
  obtain ⟨p95, h95⟩ := exists_quantile harray (p := 0.95) (by decide +kernel)
  have hmean : mean (sortSamples samples) =
      some (sum (sortSamples samples) / Float.ofNat (sortSamples samples).length) := by
    rw [mean, if_neg (by simpa using hsorted)]
  unfold Summary.ofSamples Summary.ofSorted
  rw [hmean]
  simp only [Option.bind_eq_bind, Option.bind_some, h05, h50, h95]
  exact ⟨_, rfl⟩

end Reckoner.Statistics
