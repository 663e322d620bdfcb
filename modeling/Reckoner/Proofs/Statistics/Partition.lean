import Mathlib.Data.List.Perm.Basic
import Mathlib.Tactic.FieldSimp
import Mathlib.Tactic.Linarith
import Mathlib.Tactic.Ring
import Reckoner.Proofs.Statistics.Counts
import Reckoner.Proofs.Statistics.Exact

/-!
# `Reckoner.Proofs.Statistics.Partition` — a histogram partitions its values

The bin of a value is found by a division and a floor, the edges of the bins by a multiplication. Over
the rational numbers both say the same: a bin holds what is from its lower edge up to its upper edge,
without that, and the last bin holds the greatest value too.

## Contents
- **Bins.** `binAt`: each bin by its edges and the values with its index; `histogram_eq` and
  `histogram_single`, for any scalar.
- **Edges.** `edge_le_iff` and `binIndex_eq_iff`: which values have an index.
- **Partitions.** `Partitions`, and `histogram_partitions`.
-/

namespace Reckoner.Statistics

/-! ## Bins -/

section Bins

variable {α : Type} [Scalar α] {values : List α} {bins i : Nat}

theorem getElem?_foldl_modify (indices : List Nat) (counts : Array Nat) (i : Nat) :
    (indices.foldl (fun counts i => counts.modify i (· + 1)) counts)[i]? =
      counts[i]?.map (· + indices.count i) := by
  induction indices generalizing counts with
  | nil => simp
  | cons j indices ih =>
      rw [List.foldl_cons, ih, Array.getElem?_modify, List.count_cons]
      by_cases hij : j = i
      · rw [if_pos hij, if_pos (beq_iff_eq.mpr hij), Option.map_map]
        congr 1
        funext count
        show count + 1 + indices.count i = count + (indices.count i + 1)
        omega
      · rw [if_neg hij, if_neg (mt beq_iff_eq.mp hij), Nat.add_zero]

/-- Each counter counts how often its index occurs. -/
theorem getElem?_tally (indices : List Nat) (hi : i < bins) :
    (tally bins indices)[i]? = some (indices.count i) := by
  rw [tally, getElem?_foldl_modify, Array.getElem?_replicate, if_pos hi, Option.map_some,
    Nat.zero_add]

theorem size_tally (bins : Nat) (indices : List Nat) : (tally bins indices).size = bins := by
  have hsize (counts : Array Nat) :
      (indices.foldl (fun counts i => counts.modify i (· + 1)) counts).size = counts.size := by
    induction indices generalizing counts with
    | nil => rfl
    | cons j indices ih => rw [List.foldl_cons, ih, Array.size_modify]
  rw [tally, hsize, Array.size_replicate]

/-- The width of each of some bins. -/
def widthOf (values : List α) (bins : Nat) : α :=
  (greatest values - least values) / Scalar.ofNat bins

/-- A bin of the histogram: its edges, and how many values have its index. -/
def binAt (values : List α) (bins i : Nat) : Bin α where
  lower := edge (least values) (widthOf values bins) i
  upper :=
    if i + 1 == bins then greatest values else edge (least values) (widthOf values bins) (i + 1)
  count := (values.map (binIndex (least values) (widthOf values bins) bins)).count i

/-- Values without a spread, and a single bin. -/
theorem histogram_single (hne : values ≠ [])
    (h : Scalar.le (greatest values - least values) (Scalar.ofNat 0) = true ∨ bins ≤ 1) :
    histogram values bins = [⟨least values, greatest values, values.length⟩] := by
  have hempty : ¬values.isEmpty = true := by simpa using hne
  have hcondition : (Scalar.le (greatest values - least values) (Scalar.ofNat 0) || bins ≤ 1) =
      true := by
    simpa [Bool.or_eq_true] using h
  unfold histogram
  rw [if_neg hempty]
  exact if_pos hcondition

/-- Values with a spread, and several bins. -/
theorem histogram_eq (hne : values ≠ [])
    (hspread : Scalar.le (greatest values - least values) (Scalar.ofNat 0) = false)
    (hbins : 2 ≤ bins) : histogram values bins = (List.range bins).map (binAt values bins) := by
  have hempty : ¬values.isEmpty = true := by simpa using hne
  have hcondition : ¬(Scalar.le (greatest values - least values) (Scalar.ofNat 0) || bins ≤ 1) =
      true := by
    rw [hspread, Bool.false_or, decide_eq_true_eq]
    omega
  have hhistogram : histogram values bins =
      (tally bins (values.map (binIndex (least values) (widthOf values bins) bins))).toList.mapIdx
        fun i count => ⟨edge (least values) (widthOf values bins) i,
          if i + 1 == bins then greatest values
          else edge (least values) (widthOf values bins) (i + 1), count⟩ := by
    unfold histogram
    rw [if_neg hempty]
    exact if_neg hcondition
  rw [hhistogram]
  refine List.ext_getElem? fun i => ?_
  rw [List.getElem?_mapIdx, List.getElem?_map, Array.getElem?_toList]
  rcases Nat.lt_or_ge i bins with hi | hi
  · rw [getElem?_tally _ hi, List.getElem?_range hi]
    rfl
  · rw [Array.getElem?_eq_none (by rw [size_tally]; exact hi),
      List.getElem?_eq_none (by rw [List.length_range]; exact hi)]
    rfl

end Bins

/-! ## Edges -/

variable {values : List ℚ} {lower upper width v : ℚ} {bins i : Nat}

theorem edge_eq (lower width : ℚ) (i : Nat) : edge lower width i = lower + width * i := rfl

theorem edge_zero (lower width : ℚ) : edge lower width 0 = lower := by
  rw [edge_eq, Nat.cast_zero, mul_zero, add_zero]

/-- All widths together lead from the least to the greatest value. -/
theorem edge_widthOf (values : List ℚ) (hbins : 0 < bins) :
    edge (least values) (widthOf values bins) bins = greatest values := by
  have hne : (bins : ℚ) ≠ 0 := by exact_mod_cast hbins.ne'
  rw [edge_eq, widthOf, ofNat_eq_cast, div_mul_cancel₀ _ hne, add_sub_cancel]

/-- How many widths a value is above the lowest edge. -/
theorem edge_le_iff (hwidth : 0 < width) : edge lower width i ≤ v ↔ i ≤ (v - lower) / width := by
  rw [edge_eq, le_div_iff₀ hwidth, mul_comm width]
  constructor <;> intro h <;> linarith

/-- **The index of a value** is that of the bin between whose edges it lies. -/
theorem binIndex_eq_iff (hwidth : 0 < width) (hlower : lower ≤ v) (hi : i < bins)
    (hupper : v ≤ edge lower width bins) :
    binIndex lower width bins v = i ↔
      edge lower width i ≤ v ∧
        if i + 1 = bins then v ≤ edge lower width (i + 1) else v < edge lower width (i + 1) := by
  have hnonneg : 0 ≤ (v - lower) / width := div_nonneg (by linarith) hwidth.le
  obtain ⟨k, hk⟩ := Int.eq_ofNat_of_zero_le (Int.floor_nonneg.mpr hnonneg)
  have hindex : binIndex lower width bins v = min k (bins - 1) := by
    show min ⌊((⌊(v - lower) / width⌋ : ℤ) : ℚ)⌋.toNat (bins - 1) = _
    rw [Int.floor_intCast, hk, Int.toNat_natCast]
  -- the floor is from the index on and below the next one
  have hfrom (j : Nat) : edge lower width j ≤ v ↔ j ≤ k := by
    rw [edge_le_iff hwidth, ← Int.cast_natCast, ← Int.le_floor, hk]
    exact Int.ofNat_le
  have hbelow (j : Nat) : v < edge lower width j ↔ k < j := by
    rw [← not_le, hfrom, Nat.not_le]
  rw [hindex, hfrom]
  by_cases hlast : i + 1 = bins
  · rw [if_pos hlast, hlast]
    exact ⟨fun h => ⟨by omega, hupper⟩, fun h => by omega⟩
  · rw [if_neg hlast, hbelow]
    omega

/-! ## Partitions -/

/-- A bin holds what is from its lower edge up to its upper edge; only the last one holds that. -/
def Bin.holds (bin : Bin ℚ) (isLast : Bool) (v : ℚ) : Bool :=
  bin.lower ≤ v && if isLast then v ≤ bin.upper else v < bin.upper

/-- Bins that follow one another from the least to the greatest of some values, and count each value
    once, in the bin that holds it. -/
structure Partitions (bins : List (Bin ℚ)) (values : List ℚ) : Prop where
  contiguous : ∀ i (bin next : Bin ℚ), bins[i]? = some bin → bins[i + 1]? = some next →
    bin.upper = next.lower
  first : ∃ bin, bins.head? = some bin ∧ IsLeast {v | v ∈ values} bin.lower
  last : ∃ bin, bins.getLast? = some bin ∧ IsGreatest {v | v ∈ values} bin.upper
  counts : ∀ i (bin : Bin ℚ), bins[i]? = some bin →
    bin.count = values.countP (bin.holds (i + 1 == bins.length))
  once : ∀ v ∈ values, ∃! i, ∃ bin : Bin ℚ, bins[i]? = some bin ∧
    bin.holds (i + 1 == bins.length) v = true

/-- There is a spread exactly if two values are different. -/
theorem least_lt_greatest_iff (hne : values ≠ []) :
    least values < greatest values ↔ ∃ v ∈ values, ∃ w ∈ values, v ≠ w := by
  have hleast := isLeast_least hne
  have hgreatest := isGreatest_greatest hne
  constructor
  · exact fun h => ⟨_, hleast.1, _, hgreatest.1, h.ne⟩
  · rintro ⟨v, hv, w, hw, hdifferent⟩
    by_contra hle
    have heq : ∀ u ∈ values, u = least values := fun u hu =>
      le_antisymm ((hgreatest.2 hu).trans (not_lt.mp hle)) (hleast.2 hu)
    exact hdifferent ((heq v hv).trans (heq w hw).symm)

theorem le_zero_eq_false (hspread : least values < greatest values) :
    Scalar.le (greatest values - least values) (Scalar.ofNat 0) = false := by
  rw [le_eq_decide, ofNat_eq_cast, decide_eq_false_iff_not, Nat.cast_zero]
  linarith

theorem widthOf_pos (hspread : least values < greatest values) (hbins : 0 < bins) :
    0 < widthOf values bins := by
  have hcount : (0 : ℚ) < bins := by exact_mod_cast hbins
  exact div_pos (by linarith) hcount

/-- The upper edge of a bin is computed like the lower edge of the next, also of the last bin. -/
theorem upper_binAt (values : List ℚ) (hbins : 0 < bins) (i : Nat) :
    (binAt values bins i).upper = edge (least values) (widthOf values bins) (i + 1) := by
  rw [binAt]
  dsimp only
  split
  · rename_i hlast
    rw [beq_iff_eq.mp hlast]
    exact (edge_widthOf values hbins).symm
  · rfl

/-- A bin holds the values with its index. -/
theorem holds_binAt (hspread : least values < greatest values) (hi : i < bins) (hv : v ∈ values) :
    (binAt values bins i).holds (i + 1 == bins) v = true ↔
      binIndex (least values) (widthOf values bins) bins v = i := by
  have hne := List.ne_nil_of_mem hv
  have hbins : 0 < bins := Nat.zero_lt_of_lt hi
  have hupper : v ≤ edge (least values) (widthOf values bins) bins :=
    ((isGreatest_greatest hne).2 hv).trans (edge_widthOf values hbins).ge
  rw [binIndex_eq_iff (widthOf_pos hspread hbins) ((isLeast_least hne).2 hv) hi hupper, Bin.holds,
    upper_binAt values hbins, Bool.and_eq_true, decide_eq_true_eq]
  refine and_congr_right fun _ => ?_
  by_cases hlast : i + 1 = bins
  · simp [hlast]
  · simp [hlast]

theorem eq_binAt {bin : Bin ℚ} (h : ((List.range bins).map (binAt values bins))[i]? = some bin) :
    i < bins ∧ binAt values bins i = bin := by
  rw [List.getElem?_map, Option.map_eq_some_iff] at h
  obtain ⟨j, hj, rfl⟩ := h
  obtain ⟨hi, rfl⟩ := List.getElem?_eq_some_iff.mp hj
  rw [List.length_range] at hi
  exact ⟨hi, by rw [List.getElem_range]⟩

/-- A bin counts the values that it holds. -/
theorem count_binAt (hspread : least values < greatest values) (hi : i < bins) :
    (binAt values bins i).count =
      values.countP ((binAt values bins i).holds (i + 1 == bins)) := by
  show (values.map _).count i = _
  rw [List.count_eq_countP, List.countP_map]
  refine List.countP_congr fun v hv => ?_
  rw [holds_binAt hspread hi hv]
  exact beq_iff_eq

/-- Every value is in the bin with its index, and in no other one. -/
theorem existsUnique_binAt (hspread : least values < greatest values) (hbins : 0 < bins)
    (hv : v ∈ values) :
    ∃! i, ∃ bin : Bin ℚ, ((List.range bins).map (binAt values bins))[i]? = some bin ∧
      bin.holds (i + 1 == bins) v = true := by
  have hindex := binIndex_lt (least values) (widthOf values bins) v hbins
  refine ⟨binIndex (least values) (widthOf values bins) bins v,
    ⟨binAt values bins _, ?_, (holds_binAt hspread hindex hv).mpr rfl⟩, ?_⟩
  · rw [List.getElem?_map, List.getElem?_range hindex, Option.map_some]
  · rintro i ⟨bin, hsome, hholds⟩
    obtain ⟨hi, rfl⟩ := eq_binAt hsome
    exact ((holds_binAt hspread hi hv).mp hholds).symm

/-- **Several bins partition values with a spread.** -/
theorem partitions_binAt (hspread : least values < greatest values) (hne : values ≠ [])
    (hbins : 0 < bins) : Partitions ((List.range bins).map (binAt values bins)) values := by
  have hlength : ((List.range bins).map (binAt values bins)).length = bins := by simp
  refine ⟨?_, ?_, ?_, ?_, ?_⟩
  · intro i bin next hi hnext
    obtain ⟨-, rfl⟩ := eq_binAt hi
    obtain ⟨-, rfl⟩ := eq_binAt hnext
    exact upper_binAt values hbins i
  · refine ⟨binAt values bins 0, ?_, ?_⟩
    · rw [List.head?_map, List.head?_range, if_neg hbins.ne', Option.map_some]
    · show IsLeast _ (edge (least values) (widthOf values bins) 0)
      rw [edge_zero]
      exact isLeast_least hne
  · refine ⟨binAt values bins (bins - 1), ?_, ?_⟩
    · rw [List.getLast?_map, List.getLast?_range, if_neg hbins.ne', Option.map_some]
    · have hlast : bins - 1 + 1 = bins := by omega
      rw [upper_binAt values hbins, hlast, edge_widthOf values hbins]
      exact isGreatest_greatest hne
  · intro i bin hsome
    obtain ⟨hi, rfl⟩ := eq_binAt hsome
    rw [hlength]
    exact count_binAt hspread hi
  · intro v hv
    rw [hlength]
    exact existsUnique_binAt hspread hbins hv

/-- The least and the greatest value do not depend on the order. -/
theorem least_perm {values' : List ℚ} (h : values'.Perm values) (hne : values ≠ []) :
    least values' = least values := by
  have hne' : values' ≠ [] := fun hnil => hne (List.nil_perm.mp (hnil ▸ h))
  have hmembers : {v | v ∈ values'} = {v | v ∈ values} := Set.ext fun v => h.mem_iff
  exact (hmembers ▸ isLeast_least hne').unique (isLeast_least hne)

theorem greatest_perm {values' : List ℚ} (h : values'.Perm values) (hne : values ≠ []) :
    greatest values' = greatest values := by
  have hne' : values' ≠ [] := fun hnil => hne (List.nil_perm.mp (hnil ▸ h))
  have hmembers : {v | v ∈ values'} = {v | v ∈ values} := Set.ext fun v => h.mem_iff
  exact (hmembers ▸ isGreatest_greatest hne').unique (isGreatest_greatest hne)

theorem histogram_perm {values' : List ℚ} (h : values'.Perm values) (hne : values ≠ [])
    (bins : Nat) : histogram values' bins = histogram values bins := by
  have hne' : values' ≠ [] := fun hnil => hne (List.nil_perm.mp (hnil ▸ h))
  have hleast := least_perm h hne
  have hgreatest := greatest_perm h hne
  by_cases hspread : least values < greatest values ∧ 2 ≤ bins
  · have hbin : binAt values' bins = binAt values bins := by
      funext i
      simp only [binAt, widthOf, hleast, hgreatest, (h.map _).count_eq]
    rw [histogram_eq hne (le_zero_eq_false hspread.1) hspread.2,
      histogram_eq hne' (le_zero_eq_false (by rw [hleast, hgreatest]; exact hspread.1)) hspread.2,
      hbin]
  · have hsingle : Scalar.le (greatest values - least values) (Scalar.ofNat 0) = true ∨
        bins ≤ 1 := by
      rw [le_eq_decide, ofNat_eq_cast, decide_eq_true_eq, Nat.cast_zero, sub_nonpos]
      rcases not_and_or.mp hspread with hspread | hbins
      · exact .inl (not_lt.mp hspread)
      · exact .inr (by omega)
    rw [histogram_single hne hsingle, histogram_single hne' (by rwa [hleast, hgreatest]), hleast,
      hgreatest, h.length_eq]

/-- **A histogram partitions its values.** Over the rational numbers, as many bins as are asked for
    follow one another from the least value to the greatest, and each counts what is from its lower
    edge up to its upper edge, the last one also its upper edge. Every value is counted once, whatever
    the order of the values. Without different values, or with a single bin, there is one bin from the
    least to the greatest value with all of them. -/
theorem histogram_partitions (hne : values ≠ []) (bins : Nat) :
    ((∃ v ∈ values, ∃ w ∈ values, v ≠ w) → 2 ≤ bins →
      (histogram values bins).length = bins ∧ Partitions (histogram values bins) values ∧
        total ((histogram values bins).map (·.count)) = values.length) ∧
    ((∀ v ∈ values, ∀ w ∈ values, v = w) ∨ bins ≤ 1 →
      ∃ lower upper, IsLeast {v | v ∈ values} lower ∧ IsGreatest {v | v ∈ values} upper ∧
        histogram values bins = [⟨lower, upper, values.length⟩]) ∧
    ∀ values', values'.Perm values → histogram values' bins = histogram values bins := by
  refine ⟨fun hdifferent hbins => ?_, fun hsingle => ?_, fun _ h => histogram_perm h hne bins⟩
  · have hspread := (least_lt_greatest_iff hne).mpr hdifferent
    refine ⟨?_, ?_, total_counts_histogram values bins⟩
    · rw [histogram_eq hne (le_zero_eq_false hspread) hbins, List.length_map, List.length_range]
    · rw [histogram_eq hne (le_zero_eq_false hspread) hbins]
      exact partitions_binAt hspread hne (by omega)
  · refine ⟨_, _, isLeast_least hne, isGreatest_greatest hne, histogram_single hne ?_⟩
    refine hsingle.imp_left fun hsame => ?_
    rw [hsame _ (isGreatest_greatest hne).1 _ (isLeast_least hne).1, sub_self]
    rfl

/-- Five values in seven bins, three of which stay empty. -/
theorem histogram_five_in_seven :
    let values : List ℚ := [3 / 10, 17 / 10, 22 / 10, 99 / 10, 44 / 10]
    values ≠ [] ∧ (∃ v ∈ values, ∃ w ∈ values, v ≠ w) ∧ (histogram values 7).length = 7 ∧
      Partitions (histogram values 7) values ∧
      histogram values.reverse 7 = histogram values 7 ∧
      (histogram values 7).map (·.count) = [1, 2, 1, 0, 0, 0, 1] ∧
      ∃ lower upper, IsLeast {v | v ∈ values} lower ∧ IsGreatest {v | v ∈ values} upper ∧
        histogram values 1 = [⟨lower, upper, 5⟩] := by
  intro values
  have hne : values ≠ [] := List.cons_ne_nil _ _
  have hdifferent : ∃ v ∈ values, ∃ w ∈ values, v ≠ w := by decide +kernel
  obtain ⟨hseveral, -, hperm⟩ := histogram_partitions hne 7
  obtain ⟨hlength, hpartitions, -⟩ := hseveral hdifferent (by decide)
  obtain ⟨-, hsingle, -⟩ := histogram_partitions hne 1
  exact ⟨hne, hdifferent, hlength, hpartitions, hperm _ (List.reverse_perm values),
    by decide +kernel, hsingle (.inr (by decide))⟩

end Reckoner.Statistics
