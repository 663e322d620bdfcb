import Reckoner.Proofs.Double.Interpolation
import Reckoner.Proofs.Double.Root
import Reckoner.Proofs.Double.Whole
import Reckoner.Statistics.Summary

/-!
# `Reckoner.Proofs.Statistics.Finite` — when statistics of finite doubles are finite

Finite samples may have a sum that is too large for a double, and squares that are too large for a
sum. Nothing else goes wrong: what is divided by a number of samples stays finite, a root does too, and
a quantile is between two samples.

## Contents
- **Sums.** What a finite sum is made of (`finite_of_foldl`), and bounds for it (`foldl_bounded`).
- **Moments.** `isFinite_mean_iff` and `isFinite_deviation_iff`; `moments_bounded`: samples that are
  small enough.
- **Quantiles.** `isFinite_quantile`.
-/

namespace Reckoner.Statistics

open Double

variable {values : List Float} {acc x c : Float} {n k : Nat} {p : ℤ}

/-- Finite doubles, at least one and no more than a simulation has iterations. -/
structure Samples (values : List Float) : Prop where
  nonempty : values ≠ []
  finite : ∀ v ∈ values, v.isFinite = true
  length_le : values.length ≤ 10000

theorem Samples.length_pos (h : Samples values) : 0 < values.length :=
  List.length_pos_iff.mpr h.nonempty

theorem Samples.perm {values' : List Float} (h : Samples values) (hperm : values'.Perm values) :
    Samples values' :=
  ⟨fun hnil => h.nonempty (List.nil_perm.mp (hnil ▸ hperm)),
    fun v hv => h.finite v (hperm.mem_iff.mp hv), hperm.length_eq ▸ h.length_le⟩

theorem Samples.sort (h : Samples values) : Samples (sortSamples values) :=
  h.perm (List.mergeSort_perm values totalOrder)

/-! ## Sums -/

/-- Finite doubles only have a finite sum. -/
theorem finite_of_foldl (h : (values.foldl (· + ·) acc).isFinite = true) :
    acc.isFinite = true ∧ ∀ v ∈ values, v.isFinite = true := by
  induction values generalizing acc with
  | nil => exact ⟨h, fun v hv => absurd hv List.not_mem_nil⟩
  | cons x values ih =>
      obtain ⟨hsum, hrest⟩ := ih h
      obtain ⟨hacc, hx⟩ := finite_of_add hsum
      exact ⟨hacc, List.forall_mem_cons.mpr ⟨hx, hrest⟩⟩

/-- A finite sum of what is not negative is not negative. -/
theorem foldl_nonneg (h : (values.foldl (· + ·) acc).isFinite = true) (hacc : 0 ≤ toRat acc)
    (hvalues : ∀ v ∈ values, 0 ≤ toRat v) : 0 ≤ toRat (values.foldl (· + ·) acc) := by
  induction values generalizing acc with
  | nil => exact hacc
  | cons x values ih =>
      obtain ⟨hx, hrest⟩ := List.forall_mem_cons.mp hvalues
      rw [List.foldl_cons] at h ⊢
      obtain ⟨hsum, -⟩ := finite_of_foldl h
      obtain ⟨hfinite, hfinite'⟩ := finite_of_add hsum
      exact ih h ((rounds_add hfinite hfinite').nonneg (add_nonneg hacc hx) hsum) hrest

/-- **A sum is bounded** by as many bounds of the summands as there are. -/
theorem foldl_bounded (hvalues : ∀ v ∈ values, v.isFinite = true ∧ |toRat v| ≤ 2 ^ p)
    (hacc : acc.isFinite = true) (hbound : |toRat acc| ≤ k * 2 ^ p)
    (hcount : k + values.length < 2 ^ 53) (hlowest : -1074 ≤ p) (hhighest : p ≤ 971) :
    (values.foldl (· + ·) acc).isFinite = true ∧
      |toRat (values.foldl (· + ·) acc)| ≤ (k + values.length : ℕ) * 2 ^ p := by
  induction values generalizing acc k with
  | nil => exact ⟨hacc, hbound⟩
  | cons x values ih =>
      obtain ⟨⟨hx, hxBound⟩, hrest⟩ := List.forall_mem_cons.mp hvalues
      rw [List.length_cons] at hcount ⊢
      have hexact : |toRat acc + toRat x| ≤ (k + 1 : ℕ) * 2 ^ p := by
        refine (abs_add_le _ _).trans ?_
        push_cast
        linarith
      obtain ⟨hsum, hsumBound⟩ :=
        (rounds_add hacc hx).bounded hexact (by omega) hlowest hhighest
      have hbounded := ih hrest hsum hsumBound (by omega)
      rwa [Nat.add_right_comm, Nat.add_assoc] at hbounded

theorem toRat_start : (-0.0 : Float).isFinite = true ∧ toRat (-0.0) = 0 :=
  ⟨rfl, rfl⟩

theorem sum_bounded (hvalues : ∀ v ∈ values, v.isFinite = true ∧ |toRat v| ≤ 2 ^ p)
    (hcount : values.length < 2 ^ 53) (hlowest : -1074 ≤ p) (hhighest : p ≤ 971) :
    (sum values).isFinite = true ∧ |toRat (sum values)| ≤ values.length * 2 ^ p := by
  obtain ⟨hstart, hzero⟩ := toRat_start
  have hbounded := foldl_bounded (k := 0) hvalues hstart
    (by rw [hzero, abs_zero, Nat.cast_zero, zero_mul]) (by omega) hlowest hhighest
  rwa [Nat.zero_add] at hbounded

/-! ## Moments -/

/-- A division by a number of samples. -/
theorem rounds_div_ofNat (hx : x.isFinite = true) (hn : 0 < n) (hsmall : n < 2 ^ 53) :
    Rounds (toRat x / n) (x / Float.ofNat n) := by
  obtain ⟨hcount, hvalue⟩ := ofNat_exact hsmall
  have hne : (n : ℚ) ≠ 0 := by exact_mod_cast hn.ne'
  rw [← hvalue] at hne ⊢
  exact rounds_div hx hcount hne

/-- **A division by a number of samples** makes nothing finite and nothing infinite. -/
theorem isFinite_div_ofNat (hn : 0 < n) (hsmall : n < 2 ^ 53) :
    (x / Float.ofNat n).isFinite = true ↔ x.isFinite = true := by
  refine ⟨fun h => (finite_of_div h).1, fun hx => ?_⟩
  refine (rounds_div_ofNat hx hn hsmall).finite_of_lt ?_
  have hone : (1 : ℚ) ≤ n := by exact_mod_cast hn
  rw [abs_div, Nat.abs_cast]
  calc |toRat x| / n ≤ |toRat x| := div_le_self (abs_nonneg _) hone
    _ ≤ greatestFinite := abs_toRat_le hx
    _ < (2 ^ 53 - 1 / 2) * topPlace := mul_lt_mul_of_pos_right (by norm_num) topPlace_pos

/-- What the mean of some values is. -/
def centre (values : List Float) : Float := sum values / Float.ofNat values.length

/-- The squares of the deviations from a centre. -/
def squares (values : List Float) (c : Float) : List Float :=
  values.map fun v => (v - c) * (v - c)

theorem Samples.length_lt (h : Samples values) : values.length < 2 ^ 53 :=
  Nat.lt_of_le_of_lt h.length_le (by decide)

/-- **The mean is finite** exactly if the sum is. -/
theorem isFinite_centre_iff (h : Samples values) :
    (centre values).isFinite = true ↔ (sum values).isFinite = true :=
  isFinite_div_ofNat h.length_pos h.length_lt

/-- A finite sum of squares is not negative. -/
theorem sum_squares_nonneg (h : (sum (squares values c)).isFinite = true) :
    0 ≤ toRat (sum (squares values c)) := by
  refine foldl_nonneg h toRat_start.2.ge fun v hv => ?_
  have hfinite := (finite_of_foldl h).2 v hv
  obtain ⟨x, -, rfl⟩ := List.mem_map.mp hv
  obtain ⟨hdeviation, -⟩ := finite_of_mul hfinite
  exact (rounds_mul hdeviation hdeviation).nonneg (mul_self_nonneg _) hfinite

/-- **The deviation is finite** exactly if there is one value only or the sum of the squares is
    finite. -/
theorem isFinite_deviation_iff (h : Samples values) (c : Float) :
    (deviation values c).isFinite = true ↔
      values.length < 2 ∨ (sum (squares values c)).isFinite = true := by
  by_cases hsingle : values.length < 2
  · have hzero : deviation values c = 0.0 := if_pos hsingle
    rw [hzero]
    exact iff_of_true isFinite_zero (.inl hsingle)
  · have hroot : deviation values c =
        (sum (squares values c) / Float.ofNat (values.length - 1)).sqrt := if_neg hsingle
    have hpos : 0 < values.length - 1 := by omega
    have hsmall : values.length - 1 < 2 ^ 53 := by
      have := h.length_lt
      omega
    rw [hroot, or_iff_right hsingle,
      ← isFinite_div_ofNat (x := sum (squares values c)) hpos hsmall]
    refine ⟨finite_of_sqrt, fun hquotient => isFinite_sqrt hquotient ?_⟩
    have hsum := (isFinite_div_ofNat hpos hsmall).mp hquotient
    exact (rounds_div_ofNat hsum hpos hsmall).nonneg
      (div_nonneg (sum_squares_nonneg hsum) (Nat.cast_nonneg _)) hquotient

/-- The square of a deviation, of samples and a centre that are small enough. -/
theorem square_bounded (hx : x.isFinite = true) (hxBound : |toRat x| ≤ 2 ^ (480 : ℤ))
    (hc : c.isFinite = true) (hcBound : |toRat c| ≤ 2 ^ (480 : ℤ)) :
    ((x - c) * (x - c)).isFinite = true ∧ |toRat ((x - c) * (x - c))| ≤ 2 ^ (962 : ℤ) := by
  have hdifference : |toRat x - toRat c| ≤ (2 : ℕ) * 2 ^ (480 : ℤ) := by
    rw [Nat.cast_ofNat, two_mul]
    exact (abs_sub _ _).trans (add_le_add hxBound hcBound)
  obtain ⟨hdeviation, hbound⟩ :=
    (rounds_sub hx hc).bounded hdifference (by decide) (by decide) (by decide)
  have hproduct : |toRat (x - c) * toRat (x - c)| ≤ (1 : ℕ) * 2 ^ (962 : ℤ) := by
    have hexponents : ((2 : ℕ) * 2 ^ (480 : ℤ) : ℚ) * ((2 : ℕ) * 2 ^ (480 : ℤ)) =
        (1 : ℕ) * 2 ^ (962 : ℤ) := by
      rw [mul_mul_mul_comm, ← zpow_add₀ (by norm_num), Nat.cast_one, one_mul, Nat.cast_ofNat,
        ← pow_two, two_pow_mul_zpow]
      rfl
    rw [abs_mul, ← hexponents]
    exact mul_le_mul hbound hbound (abs_nonneg _) (by positivity)
  obtain ⟨hfinite, hvalue⟩ :=
    (rounds_mul hdeviation hdeviation).bounded hproduct (by decide) (by decide) (by decide)
  rw [Nat.cast_one, one_mul] at hvalue
  exact ⟨hfinite, hvalue⟩

/-- **Samples of up to `2 ^ 480`** have finite moments. -/
theorem moments_bounded (h : Samples values) (hsmall : ∀ v ∈ values, |toRat v| ≤ 2 ^ (480 : ℤ)) :
    (sum values).isFinite = true ∧
      (sum (squares values (centre values))).isFinite = true := by
  obtain ⟨hsum, hsumBound⟩ := sum_bounded (fun v hv => ⟨h.finite v hv, hsmall v hv⟩) h.length_lt
    (by decide) (by decide)
  -- the centre has the bound of the samples
  have hquotient : |toRat (sum values) / values.length| ≤ (1 : ℕ) * 2 ^ (480 : ℤ) := by
    rw [abs_div, Nat.abs_cast, div_le_iff₀ (by exact_mod_cast h.length_pos), Nat.cast_one, one_mul,
      mul_comm]
    exact hsumBound
  obtain ⟨hcentre, hcentreBound⟩ := (rounds_div_ofNat hsum h.length_pos h.length_lt).bounded
    hquotient (by decide) (by decide) (by decide)
  rw [Nat.cast_one, one_mul] at hcentreBound
  refine ⟨hsum, (sum_bounded (p := 962) (fun v hv => ?_) ?_ (by decide) (by decide)).1⟩
  · obtain ⟨x, hx, rfl⟩ := List.mem_map.mp hv
    exact square_bounded (h.finite x hx) (hsmall x hx) hcentre hcentreBound
  · rw [squares, List.length_map]
    exact h.length_lt

/-! ## Quantiles -/

/-- The fraction of a rank is a weight. -/
theorem isWeight_fraction (hx : x.isFinite = true) (hnonneg : 0 ≤ toRat x) :
    IsWeight (x - Scalar.floor x) := by
  obtain ⟨hfloor, hlow, hhigh⟩ := floor_spec hx hnonneg
  have hrest := rounds_sub hx hfloor
  obtain ⟨hfinite, hvalue⟩ := hrest.bounded (n := 1) (p := 0)
    (by rw [abs_of_nonneg hlow, Nat.cast_one, zpow_zero, mul_one]; exact hhigh)
    (by decide) (by decide) (by decide)
  rw [Nat.cast_one, zpow_zero, mul_one] at hvalue
  exact ⟨hfinite, hrest.nonneg hlow hfinite, (abs_le.mp hvalue).2⟩

theorem isProbability_iff_isWeight (hx : x.isFinite = true) :
    isProbability x = true ↔ IsWeight x := by
  obtain ⟨hzero, hzeroValue⟩ := ofNat_exact (n := 0) (by decide)
  obtain ⟨hone, honeValue⟩ := ofNat_exact (n := 1) (by decide)
  rw [isProbability, Bool.and_eq_true]
  show decide (Float.ofNat 0 ≤ x) = true ∧ decide (x ≤ Float.ofNat 1) = true ↔ _
  rw [decide_eq_true_iff, decide_eq_true_iff, le_iff hzero hx, le_iff hx hone, hzeroValue, honeValue,
    Nat.cast_zero, Nat.cast_one]
  exact ⟨fun h => ⟨hx, h.1, h.2⟩, fun h => ⟨h.nonneg, h.le_one⟩⟩

/-- What stands at a rank between finite values is finite. -/
theorem isFinite_atRank {values : Array Float} {weight : Float} {whole : Nat}
    (hvalues : ∀ v ∈ values, v.isFinite = true) (hweight : IsWeight weight)
    (h : atRank values whole weight = some x) : x.isFinite = true := by
  unfold atRank at h
  split at h
  · rename_i y z hy hz
    obtain rfl := Option.some.inj h
    exact isFinite_interpolated hweight (hvalues y (Array.mem_of_getElem? hy))
      (hvalues z (Array.mem_of_getElem? hz))
  · exact hvalues x (Array.mem_of_back? h)

/-- **Quantiles of finite values are finite.** -/
theorem isFinite_quantile {values : Array Float} {probability : Float}
    (hvalues : ∀ v ∈ values, v.isFinite = true) (hsize : values.size ≤ 2 ^ 53)
    (hprobability : probability.isFinite = true) (h : quantile values probability = some x) :
    x.isFinite = true := by
  unfold quantile at h
  split_ifs at h with hnone hsingle
  · exact hvalues x (Array.mem_of_getElem? h)
  · have hweight : IsWeight probability := by
      rw [← isProbability_iff_isWeight hprobability]
      simpa using (Bool.or_eq_false_iff.mp (Bool.eq_false_iff.mpr hnone)).2
    obtain ⟨hcount, hvalue⟩ := ofNat_exact (n := values.size - 1) (by omega)
    have hrank := rounds_mul hcount hprobability
    rw [hvalue] at hrank
    have hnonneg : 0 ≤ ((values.size - 1 : ℕ) : ℚ) * toRat probability :=
      mul_nonneg (Nat.cast_nonneg _) hweight.nonneg
    have hbound : |((values.size - 1 : ℕ) : ℚ) * toRat probability| ≤
        (values.size - 1 : ℕ) * 2 ^ (0 : ℤ) := by
      rw [abs_of_nonneg hnonneg, zpow_zero]
      exact mul_le_mul_of_nonneg_left hweight.le_one (Nat.cast_nonneg _)
    obtain ⟨hfinite, -⟩ := hrank.bounded hbound (by omega) (by decide) (by decide)
    exact isFinite_atRank hvalues (isWeight_fraction hfinite (hrank.nonneg hnonneg hfinite)) h

end Reckoner.Statistics
