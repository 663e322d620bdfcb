import Reckoner.Proofs.Statistics.Finite
import Reckoner.Proofs.Statistics.Partition
import Reckoner.Proofs.Sweep.Range

/-!
# `Reckoner.Proofs.Statistics.Edges` — when the edges of a histogram are finite

The edges are computed like the positions of a sweep from the least to the greatest value. If the range
of the values is too large for a double there is no width, and no lower edge but that of a single bin.
With a range that is a double all edges are finite, unless there are more bins than doubles can count.

## Contents
- **Ranges.** The least and the greatest of finite samples, and what is between them.
- **Edges.** `edgesFinite_iff` and `edgesFinite_iff_range`.
- **Ends.** `first_edge_iff` and `last_edge`.
-/

namespace Reckoner.Statistics

open Double

variable {values : List Float} {bins : Nat} {x y : Float}

/-! ## Ranges -/

/-- Samples are in order as their values are. -/
theorem Samples.comparedBy (h : Samples values) : ComparedBy toRat values := fun x hx y hy =>
  show decide (x ≤ y) = decide (toRat x ≤ toRat y) from
    decide_eq_decide.mpr (le_iff (h.finite x hx) (h.finite y hy))

/-- **The least and the greatest sample** are samples, and all are between them. -/
theorem Samples.extremes (h : Samples values) :
    least values ∈ values ∧ greatest values ∈ values ∧
      ∀ v ∈ values, least values ≤ v ∧ v ≤ greatest values := by
  obtain ⟨hleast, hle⟩ := least_spec h.comparedBy h.nonempty
  obtain ⟨hgreatest, hge⟩ := greatest_spec h.comparedBy h.nonempty
  refine ⟨hleast, hgreatest, fun v hv => ⟨?_, ?_⟩⟩
  · exact (le_iff (h.finite _ hleast) (h.finite v hv)).mpr (hle v hv)
  · exact (le_iff (h.finite v hv) (h.finite _ hgreatest)).mpr (hge v hv)

theorem Samples.isRange (h : Samples values) : Sweep.IsRange (least values) (greatest values) :=
  have ⟨hleast, hgreatest, hbetween⟩ := h.extremes
  ⟨h.finite _ hleast, h.finite _ hgreatest, (hbetween _ hleast).2⟩

/-- The range of the values. -/
def spread (values : List Float) : Float := greatest values - least values

/-- Values without a spread have a range that is a double. -/
theorem Samples.isFinite_of_spread_le (h : Samples values) (hle : spread values ≤ Float.ofNat 0) :
    (spread values).isFinite = true := by
  obtain ⟨hzero, hzeroValue⟩ := ofNat_exact (n := 0) (by decide)
  refine ((rounds_sub h.isRange.upper_finite h.isRange.lower_finite).finite_or_infinity
    (rounds_self hzero) hzero ?_).resolve_right fun hinfinity => not_le_of_infinity hinfinity hzero hle
  rw [hzeroValue, Nat.cast_zero]
  exact h.isRange.exact_nonneg

/-- **A range that is a double has a width**, for any number of bins. -/
theorem Samples.width_spec (h : Samples values) (hspread : (spread values).isFinite = true)
    (hbins : 0 < bins) :
    (widthOf values bins).isFinite = true ∧ 0 ≤ toRat (widthOf values bins) := by
  have hnonneg : 0 ≤ toRat (spread values) := h.isRange.width_nonneg hspread
  obtain ⟨hzero, hzeroValue⟩ := ofNat_exact (n := 0) (by decide)
  rcases (rounds_ofNat bins).finite_or_infinity (rounds_ofNat 0) hzero
    (by exact_mod_cast Nat.zero_le bins) with hcount | hinfinity
  · obtain ⟨hone, -, hle⟩ := ofNat_ascend hbins hcount
    rw [(ofNat_exact (n := 1) (by decide)).2, Nat.cast_one] at hle
    have hdiv := rounds_div hspread hcount (by linarith)
    have hquotient : 0 ≤ toRat (spread values) / toRat (Float.ofNat bins) :=
      div_nonneg hnonneg (by linarith)
    have hfinite : (widthOf values bins).isFinite = true :=
      hdiv.finite_between (rounds_self hzero) (rounds_self hspread) hzero hspread
        (by rw [hzeroValue, Nat.cast_zero]; exact hquotient) (div_le_self hnonneg hle)
    exact ⟨hfinite, hdiv.nonneg hquotient hfinite⟩
  · -- more bins than any double leave no width
    have hinf : (Float.ofNat bins).isInf = true := by
      rw [isInf_eq, hinfinity]
      rfl
    obtain ⟨s, hwidth⟩ := parts_div_infinite hspread hinf
    exact ⟨finite_div_infinite hspread hinf, (toRat_of_zero hwidth).ge⟩

/-! ## Edges -/

/-- All edges of some bins are finite. -/
def EdgesFinite (bs : List (Bin Float)) : Prop :=
  ∀ bin ∈ bs, bin.lower.isFinite = true ∧ bin.upper.isFinite = true

/-- The lower edge of the last of some bins, which is the last one that is computed. -/
def lastEdge (values : List Float) (bins : Nat) : Float :=
  edge (least values) (widthOf values bins) (bins - 1)

/-- There is a single bin, or there are the bins between computed edges. -/
theorem Samples.histogram_cases (h : Samples values) (bins : Nat) :
    ((bins ≤ 1 ∨ spread values ≤ Float.ofNat 0) ∧
      histogram values bins = [⟨least values, greatest values, values.length⟩]) ∨
    (2 ≤ bins ∧ ¬spread values ≤ Float.ofNat 0) ∧
      histogram values bins = (List.range bins).map (binAt values bins) := by
  by_cases hsingle : bins ≤ 1 ∨ spread values ≤ Float.ofNat 0
  · exact .inl ⟨hsingle, histogram_single h.nonempty (hsingle.symm.imp_left decide_eq_true)⟩
  · obtain ⟨hbins, hspread⟩ := not_or.mp hsingle
    have hseveral : 2 ≤ bins := by omega
    exact .inr ⟨⟨hseveral, hspread⟩, histogram_eq h.nonempty (decide_eq_false hspread) hseveral⟩

theorem mem_bins {i : Nat} (hi : i < bins) :
    binAt values bins i ∈ (List.range bins).map (binAt values bins) :=
  List.mem_map_of_mem (List.mem_range.mpr hi)

/-- Only a range that is a double has a finite first edge. -/
theorem finite_of_first_edge
    (hfirst : (edge (least values) (widthOf values bins) 0).isFinite = true) :
    (spread values).isFinite = true :=
  (finite_of_div (finite_of_mul (finite_of_add hfirst).2).1).1

/-- **The edges are finite** exactly if there is a single bin, or if the range of the values is a double
    and so is the last edge that is computed. -/
theorem edgesFinite_iff (h : Samples values) (bins : Nat) :
    EdgesFinite (histogram values bins) ↔
      (bins ≤ 1 ∨ spread values ≤ Float.ofNat 0) ∨
        (spread values).isFinite = true ∧ (lastEdge values bins).isFinite = true := by
  rcases h.histogram_cases bins with ⟨hsingle, hbins⟩ | ⟨⟨hseveral, hspread⟩, hbins⟩
  · refine iff_of_true ?_ (.inl hsingle)
    rw [hbins]
    intro bin hbin
    obtain rfl := List.mem_singleton.mp hbin
    exact ⟨h.isRange.lower_finite, h.isRange.upper_finite⟩
  · rw [hbins, or_iff_right (not_or.mpr ⟨by omega, hspread⟩)]
    constructor
    · intro hfinite
      obtain ⟨hfirst, -⟩ := hfinite _ (mem_bins (i := 0) (by omega))
      exact ⟨finite_of_first_edge hfirst, (hfinite _ (mem_bins (i := bins - 1) (by omega))).1⟩
    · -- the edges ascend to the last one that is computed; behind it the greatest value stands
      rintro ⟨hrange, hlast⟩ bin hbin
      obtain ⟨-, hnonneg⟩ := h.width_spec hrange (by omega : 0 < bins)
      have hedge {i : Nat} (hi : i ≤ bins - 1) :
          (edge (least values) (widthOf values bins) i).isFinite = true :=
        (positions_ascend hnonneg hi hlast).1
      obtain ⟨i, hi, rfl⟩ := List.mem_map.mp hbin
      rw [List.mem_range] at hi
      refine ⟨hedge (by omega), ?_⟩
      unfold binAt
      dsimp only
      split_ifs with hend
      · exact h.isRange.upper_finite
      · have hinside : i + 1 ≠ bins := by simpa using hend
        exact hedge (by omega)

/-- A width without 53 bits adds next to nothing. -/
theorem isFinite_add_tiny (hx : x.isFinite = true) (hy : y.isFinite = true)
    (htiny : |toRat y| < 1) : (x + y).isFinite = true := by
  refine (rounds_add hx hy).finite_of_lt ?_
  have hbound := abs_toRat_le hx
  unfold greatestFinite at hbound
  linarith [abs_add_le (toRat x) (toRat y), two_le_topPlace]

/-- **Up to `2 ^ 51` bins** the last computed edge is finite with the range. -/
theorem isFinite_lastEdge (h : Samples values) (hrange : (spread values).isFinite = true)
    (hbins : 2 ≤ bins) (hfew : bins ≤ 2 ^ 51) : (lastEdge values bins).isFinite = true := by
  have hcount : 2 ≤ bins + 1 ∧ bins + 1 ≤ 2 ^ 53 := by omega
  have hsteps := h.isRange.rounds_stepOf hcount hrange
  obtain ⟨hstep, hquotient⟩ : Sweep.IsStep (widthOf values bins) ∧
      Rounds (toRat (spread values) / bins) (widthOf values bins) := hsteps
  obtain ⟨k, rfl⟩ : ∃ k, bins = k + 1 := ⟨bins - 1, by omega⟩
  have hmultiple := hstep.rounds_multiple (i := k) (by omega)
  rcases le_or_gt (2 ^ (-1022 : ℤ)) (toRat (widthOf values (k + 1))) with hnormal | htiny
  · rw [Nat.cast_add_one] at hquotient
    obtain ⟨hfinite, hless⟩ :=
      h.isRange.multiple_le_width hrange ⟨by omega, by omega⟩ hstep hquotient hnormal
    have hnonneg := hmultiple.nonneg (mul_nonneg hstep.nonneg (Nat.cast_nonneg _)) hfinite
    exact hstep.finite_of_position_le h.isRange (by omega)
      (h.isRange.position_le hfinite hnonneg hless)
  · have hbound : |toRat (widthOf values (k + 1)) * k| ≤ (2 ^ 51 : ℕ) * 2 ^ (-1022 : ℤ) := by
      rw [abs_mul, Nat.abs_cast, abs_of_nonneg hstep.nonneg, mul_comm]
      exact mul_le_mul (by exact_mod_cast (by omega : k ≤ 2 ^ 51)) htiny.le hstep.nonneg
        (by positivity)
    obtain ⟨hfinite, hvalue⟩ := hmultiple.bounded hbound (by decide) (by decide) (by decide)
    refine isFinite_add_tiny h.isRange.lower_finite hfinite (hvalue.trans_lt ?_)
    rw [Nat.cast_pow, Nat.cast_ofNat, two_pow_mul_zpow]
    exact zpow_lt_one_of_neg₀ (by norm_num) (by norm_num)

/-- **Up to `2 ^ 51` bins**, the edges are finite exactly if there is one bin or the range of the values
    is a double. -/
theorem edgesFinite_iff_range (h : Samples values) (hfew : bins ≤ 2 ^ 51) :
    EdgesFinite (histogram values bins) ↔ bins ≤ 1 ∨ (spread values).isFinite = true := by
  rw [edgesFinite_iff h]
  constructor
  · rintro ((hone | hspread) | ⟨hrange, -⟩)
    · exact .inl hone
    · exact .inr (h.isFinite_of_spread_le hspread)
    · exact .inr hrange
  · rintro (hone | hrange)
    · exact .inl (.inl hone)
    · by_cases hone : bins ≤ 1
      · exact .inl (.inl hone)
      · exact .inr ⟨hrange, isFinite_lastEdge h hrange (by omega) hfew⟩

/-- From `-1e308` to `1e308` it is too far for a double, and two bins have no lower edges. -/
example : (histogram [-1e308, 1e308] 2).map (·.lower.isFinite) = [false, false] := by
  decide +kernel

/-! ## Ends -/

/-- **The first bin starts at the least value** exactly if there is one bin or the range of the values
    is a double. -/
theorem first_edge_iff (h : Samples values) (bins : Nat) :
    (∃ bin, (histogram values bins).head? = some bin ∧ (bin.lower == least values) = true) ↔
      bins ≤ 1 ∨ (spread values).isFinite = true := by
  have hlower := h.isRange.lower_finite
  rcases h.histogram_cases bins with ⟨hsingle, hbins⟩ | ⟨⟨hseveral, hspread⟩, hbins⟩
  · rw [hbins]
    refine iff_of_true ⟨_, rfl, (beq_iff hlower hlower).mpr rfl⟩ ?_
    exact hsingle.imp_right h.isFinite_of_spread_le
  · have hhead : ((List.range bins).map (binAt values bins)).head? = some (binAt values bins 0) := by
      rw [List.head?_map, List.head?_range, if_neg (by omega), Option.map_some]
    rw [hbins, hhead, or_iff_right (by omega)]
    constructor
    · rintro ⟨bin, hbin, hequal⟩
      obtain rfl := Option.some.inj hbin
      exact finite_of_first_edge (isFinite_of_beq hlower hequal)
    · intro hrange
      obtain ⟨hwidth, -⟩ := h.width_spec hrange (by omega : 0 < bins)
      exact ⟨_, rfl, (first_position hlower hwidth).2⟩

/-- **The last bin ends at the greatest value.** -/
theorem last_edge (h : Samples values) (bins : Nat) :
    ∃ bin, (histogram values bins).getLast? = some bin ∧ bin.upper = greatest values := by
  rcases h.histogram_cases bins with ⟨-, hbins⟩ | ⟨⟨hseveral, -⟩, hbins⟩
  · rw [hbins]
    exact ⟨_, rfl, rfl⟩
  · refine ⟨binAt values bins (bins - 1), ?_, ?_⟩
    · rw [hbins, List.getLast?_map, List.getLast?_range, if_neg (by omega), Option.map_some]
    · have hend : (bins - 1 + 1 == bins) = true := by
        rw [beq_iff_eq]
        omega
      exact if_pos hend

end Reckoner.Statistics
