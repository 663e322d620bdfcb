import Reckoner.Proofs.Double.Steps
import Reckoner.Proofs.Session.Document
import Reckoner.Proofs.Sweep

/-!
# `Reckoner.Proofs.Sweep.Range` — when a sweep stays inside its range

All positions but the last are computed: a width, a step, multiples of the step and sums are rounded
one after the other. Since every operation keeps the order of exact results, the positions never
decrease from the lower bound on, and all depends on where the last computed one is. It may be past the
upper bound if the step is too small to have 53 bits and was rounded up. If the width is too large for
a double, there are no positions to speak of.

## Contents
- **Ranges.** `StaysInside`, and each position by its `IsStep`.
- **Order.** `IsStep.positions_ascend`: up to the last computed position.
- **Both ways.** `IsStep.staysInside` and `IsRange.staysInside_iff`; `IsRange.lastComputed_le`: steps
  that have 53 bits are small enough.
- **Sweeps.** `run_positions` and `sweep_staysInside_iff`.
-/

namespace Reckoner.Sweep

open Double

variable {lower upper step : Float} {count i j k : Nat}

/-! ## Ranges -/

/-- The positions are finite, the first is the lower bound (zero may have the other sign), the last is
    the upper bound, they never decrease, and all are between the bounds. -/
structure StaysInside (lower upper : Float) (xs : List Float) : Prop where
  finite : ∀ x ∈ xs, x.isFinite = true
  first : ∃ x, xs.head? = some x ∧ (x == lower) = true
  last : xs.getLast? = some upper
  ascending : xs.Pairwise (· ≤ ·)
  between : ∀ x ∈ xs, lower ≤ x ∧ x ≤ upper

/-- The bounds of a variable that has a range. -/
structure IsRange (lower upper : Float) : Prop where
  lower_finite : lower.isFinite = true
  upper_finite : upper.isFinite = true
  le : lower ≤ upper

/-- A step that does not lead downwards. -/
structure IsStep (step : Float) : Prop where
  finite : step.isFinite = true
  nonneg : 0 ≤ toRat step

/-- The step of a range. -/
def stepOf (lower upper : Float) (count : Nat) : Float :=
  (upper - lower) / Float.ofNat (count - 1)

/-- The position after so many steps. -/
def position (lower step : Float) (i : Nat) : Float := lower + step * Float.ofNat i

/-- The position next to the last, which is the last one that is computed. -/
def lastComputed (lower upper : Float) (count : Nat) : Float :=
  position lower (stepOf lower upper count) (count - 2)

theorem positions_eq (h : 2 ≤ count) :
    positions lower upper count =
      (List.range (count - 1)).map (position lower (stepOf lower upper count)) ++ [upper] :=
  if_neg (by omega)

theorem mem_positions {x : Float}
    (h : x ∈ (List.range count).map (position lower step) ++ [upper]) :
    x = upper ∨ ∃ i < count, position lower step i = x := by
  rcases List.mem_append.mp h with hx | hx
  · obtain ⟨i, hi, rfl⟩ := List.mem_map.mp hx
    exact .inr ⟨i, List.mem_range.mp hi, rfl⟩
  · exact .inl (List.mem_singleton.mp hx)

/-! ## Order -/

/-- A multiple of a step. -/
theorem IsStep.rounds_multiple (h : IsStep step) (hi : i < 2 ^ 53) :
    Rounds (toRat step * i) (step * Float.ofNat i) := by
  obtain ⟨hfinite, hvalue⟩ := ofNat_exact hi
  rw [← hvalue]
  exact rounds_mul h.finite hfinite

/-- A position that is not past the upper bound is finite. -/
theorem IsStep.finite_of_position_le (h : IsStep step) (range : IsRange lower upper)
    (hk : k < 2 ^ 53) (hlast : position lower step k ≤ upper) :
    (position lower step k).isFinite = true := by
  have hmultiple : (step * Float.ofNat k).isFinite = true := by
    refine ((h.rounds_multiple hk).finite_or_infinity (h.rounds_multiple (i := 0) (by decide))
      (multiple_zero h.finite).1 ?_).resolve_right fun hinfinity => ?_
    · exact mul_le_mul_of_nonneg_left (by exact_mod_cast Nat.zero_le k) h.nonneg
    · exact not_le_of_infinity (parts_add_infinity range.lower_finite hinfinity)
        range.upper_finite hlast
  obtain ⟨-, hpositive, -⟩ := multiples_ascend h.nonneg (Nat.le_refl k) hmultiple
  refine ((rounds_add range.lower_finite hmultiple).finite_or_infinity
    (rounds_self range.lower_finite) range.lower_finite ?_).resolve_right fun hinfinity =>
      not_le_of_infinity hinfinity range.upper_finite hlast
  linarith

/-- **Up to a position that is not past the upper bound** all positions are finite, and they never
    decrease. -/
theorem IsStep.positions_ascend (h : IsStep step) (range : IsRange lower upper) (hk : k < 2 ^ 53)
    (hlast : position lower step k ≤ upper) (hij : i ≤ j) (hjk : j ≤ k) :
    (position lower step i).isFinite = true ∧ toRat lower ≤ toRat (position lower step i) ∧
      toRat (position lower step i) ≤ toRat (position lower step j) := by
  have hposition := h.finite_of_position_le range hk hlast
  obtain ⟨hj, -, -⟩ := Double.positions_ascend h.nonneg hjk hposition
  exact Double.positions_ascend h.nonneg hij hj

/-- The exact width of a range is not negative. -/
theorem IsRange.exact_nonneg (range : IsRange lower upper) : 0 ≤ toRat upper - toRat lower :=
  sub_nonneg.mpr ((le_iff range.lower_finite range.upper_finite).mp range.le)

/-- The width of a range, if it is a double, is not negative either. -/
theorem IsRange.width_nonneg (range : IsRange lower upper)
    (hwidth : (upper - lower).isFinite = true) : 0 ≤ toRat (upper - lower) :=
  (rounds_sub range.upper_finite range.lower_finite).nonneg range.exact_nonneg hwidth

/-- **A width that is a double has a step.** -/
theorem IsRange.rounds_stepOf (range : IsRange lower upper) (hcount : 2 ≤ count ∧ count ≤ 2 ^ 53)
    (hwidth : (upper - lower).isFinite = true) :
    IsStep (stepOf lower upper count) ∧
      Rounds (toRat (upper - lower) / (count - 1 : ℕ)) (stepOf lower upper count) := by
  have hnonneg := range.width_nonneg hwidth
  obtain ⟨hcountFinite, hcountValue⟩ := ofNat_exact (n := count - 1) (by omega)
  have hone : (1 : ℚ) ≤ (count - 1 : ℕ) := by exact_mod_cast (by omega : 1 ≤ count - 1)
  have hdiv := rounds_div hwidth hcountFinite (by rw [hcountValue]; linarith)
  rw [hcountValue] at hdiv
  have hquotient : 0 ≤ toRat (upper - lower) / (count - 1 : ℕ) := by positivity
  obtain ⟨hzero, hzeroValue⟩ := ofNat_exact (n := 0) (by decide)
  rw [Nat.cast_zero] at hzeroValue
  have hfinite : (stepOf lower upper count).isFinite = true :=
    hdiv.finite_between (rounds_self hzero) (rounds_self hwidth) hzero hwidth
      (by rw [hzeroValue]; exact hquotient) (div_le_self hnonneg hone)
  exact ⟨⟨hfinite, hdiv.nonneg hquotient hfinite⟩, hdiv⟩

/-! ## Both ways -/

section Inside

variable (h : IsStep step) (range : IsRange lower upper) (hk : k < 2 ^ 53)
  (hlast : position lower step k ≤ upper)

include h range hk hlast

theorem IsStep.position_finite (hi : i ≤ k) : (position lower step i).isFinite = true :=
  (h.positions_ascend range hk hlast hi (Nat.le_refl k)).1

theorem IsStep.position_le_position (hij : i ≤ j) (hjk : j ≤ k) :
    position lower step i ≤ position lower step j := by
  obtain ⟨hi, -, hle⟩ := h.positions_ascend range hk hlast hij hjk
  exact (le_iff hi (h.position_finite range hk hlast hjk)).mpr hle

theorem IsStep.lower_le_position (hi : i ≤ k) : lower ≤ position lower step i := by
  obtain ⟨hfinite, hle, -⟩ := h.positions_ascend range hk hlast hi (Nat.le_refl k)
  exact (le_iff range.lower_finite hfinite).mpr hle

theorem IsStep.position_le_upper (hi : i ≤ k) : position lower step i ≤ upper := by
  obtain ⟨hfinite, -, hle⟩ := h.positions_ascend range hk hlast hi (Nat.le_refl k)
  have hk' := h.position_finite range hk hlast (Nat.le_refl k)
  exact (le_iff hfinite range.upper_finite).mpr
    (hle.trans ((le_iff hk' range.upper_finite).mp hlast))

/-- **The range is not left** up to a position that is not past the upper bound. -/
theorem IsStep.staysInside :
    StaysInside lower upper ((List.range (k + 1)).map (position lower step) ++ [upper]) where
  finite x hx := by
    rcases mem_positions hx with rfl | ⟨i, hi, rfl⟩
    · exact range.upper_finite
    · exact h.position_finite range hk hlast (Nat.le_of_lt_succ hi)
  first := by
    refine ⟨position lower step 0, ?_, (first_position range.lower_finite h.finite).2⟩
    rw [List.range_succ_eq_map]
    rfl
  last := List.getLast?_concat
  ascending := by
    refine List.pairwise_append.mpr ⟨?_, List.pairwise_singleton _ _, fun x hx y hy => ?_⟩
    · refine List.pairwise_map.mpr (List.pairwise_lt_range.imp_of_mem fun {i j} _ hj hij => ?_)
      have hjk := Nat.le_of_lt_succ (List.mem_range.mp hj)
      exact h.position_le_position range hk hlast hij.le hjk
    · obtain ⟨i, hi, rfl⟩ := List.mem_map.mp hx
      obtain rfl := List.mem_singleton.mp hy
      exact h.position_le_upper range hk hlast (Nat.le_of_lt_succ (List.mem_range.mp hi))
  between x hx := by
    rcases mem_positions hx with rfl | ⟨i, hi, rfl⟩
    · exact ⟨range.le, (le_iff range.upper_finite range.upper_finite).mpr (le_refl _)⟩
    · have hik := Nat.le_of_lt_succ hi
      exact ⟨h.lower_le_position range hk hlast hik, h.position_le_upper range hk hlast hik⟩

end Inside

/-- **A range is left exactly if its width is too large for a double, or the last computed position is
    past its upper bound.** -/
theorem IsRange.staysInside_iff (range : IsRange lower upper) (hcount : 2 ≤ count ∧ count ≤ 200) :
    StaysInside lower upper (positions lower upper count) ↔
      (upper - lower).isFinite = true ∧ lastComputed lower upper count ≤ upper := by
  have hcount₁ : count - 1 = count - 2 + 1 := by omega
  rw [positions_eq hcount.1, hcount₁]
  constructor
  · intro h
    have hmem {i : Nat} (hi : i < count - 2 + 1) : position lower (stepOf lower upper count) i ∈
        (List.range (count - 2 + 1)).map (position lower (stepOf lower upper count)) ++ [upper] :=
      List.mem_append_left _ (List.mem_map_of_mem (List.mem_range.mpr hi))
    -- a width that is not finite leaves no finite step, and no finite position
    have hfirst := h.finite _ (hmem (i := 0) (Nat.succ_pos _))
    have hstep := (finite_of_mul (finite_of_add hfirst).2).1
    exact ⟨(finite_of_div hstep).1, (h.between _ (hmem (Nat.lt_succ_self _))).2⟩
  · rintro ⟨hwidth, hlast⟩
    obtain ⟨hstep, -⟩ := range.rounds_stepOf ⟨hcount.1, by omega⟩ hwidth
    exact hstep.staysInside range (by omega) hlast

/-- The lowest positive double that has 53 bits. -/
def smallestNormal : Float := Float.ofBits 0x0010000000000000

theorem smallestNormal_finite :
    smallestNormal.isFinite = true ∧ toRat smallestNormal = 2 ^ (-1022 : ℤ) := by
  have hparts : parts smallestNormal = .finite .positive (2 ^ 52) (-1074) (by decide) := rfl
  rw [isFinite_eq, toRat_of_finite hparts, hparts]
  refine ⟨rfl, ?_⟩
  rw [signum, one_mul, Nat.cast_pow, Nat.cast_ofNat, two_pow_mul_zpow]
  norm_num

/-- A multiple that is not more than the exact width does not lead past the upper bound. -/
theorem IsRange.position_le (range : IsRange lower upper)
    (hmultiple : (step * Float.ofNat k).isFinite = true) (hnonneg : 0 ≤ toRat (step * Float.ofNat k))
    (hle : toRat (step * Float.ofNat k) ≤ toRat upper - toRat lower) :
    position lower step k ≤ upper := by
  have hlow := rounds_self range.lower_finite
  have hhigh := rounds_self range.upper_finite
  have hsum := rounds_add range.lower_finite hmultiple
  have hfinite := hsum.finite_between hlow hhigh range.lower_finite range.upper_finite
    (by linarith) (by linarith)
  exact (le_iff hfinite range.upper_finite).mpr
    (hsum.mono hhigh (by linarith) hfinite range.upper_finite)

/-- What a rounding error leaves of a number. -/
def exactPart : ℚ := 1 - 2 ^ (-53 : ℤ)

/-- Three rounding errors make less of a difference than the last of `2 ^ 51` points. -/
theorem errors_small (hk : k < 2 ^ 51) : (k : ℚ) ≤ (k + 1) * exactPart ^ 3 := by
  have hcast : (k + 1 : ℚ) ≤ 2 ^ 51 := by exact_mod_cast hk
  calc (k : ℚ) ≤ (k + 1) * (1 - 1 / 2 ^ 51) := by linarith
    _ ≤ (k + 1) * exactPart ^ 3 :=
        mul_le_mul_of_nonneg_left (by norm_num [exactPart]) (by positivity)

/-- **A multiple of a step that has 53 bits** is not more than the exact width, before the last
    point. -/
theorem IsRange.multiple_le_width (range : IsRange lower upper)
    (hwidth : (upper - lower).isFinite = true) (hk : 1 ≤ k ∧ k < 2 ^ 51) (hstep : IsStep step)
    (hquotient : Rounds (toRat (upper - lower) / (k + 1)) step)
    (hnormal : 2 ^ (-1022 : ℤ) ≤ toRat step) :
    (step * Float.ofNat k).isFinite = true ∧
      toRat (step * Float.ofNat k) ≤ toRat upper - toRat lower := by
  have hmultiple := hstep.rounds_multiple (i := k) (by omega)
  have hnonneg := range.width_nonneg hwidth
  have hexact := range.exact_nonneg
  have hcount : (1 : ℚ) ≤ k := by exact_mod_cast hk.1
  have hsmall := errors_small hk.2
  have hpart : 0 < exactPart := by norm_num [exactPart]
  have hpart_le : exactPart ≤ 1 := by norm_num [exactPart]
  have hle : toRat step ≤ toRat (upper - lower) :=
    hquotient.mono (rounds_self hwidth) (div_le_self hnonneg (by linarith)) hstep.finite hwidth
  have hmore : toRat step ≤ toRat step * k := le_mul_of_one_le_right hstep.nonneg hcount
  -- the errors of the width, of the step and of the multiple
  have hwidthError : toRat (upper - lower) * exactPart ≤ toRat upper - toRat lower :=
    (rounds_sub range.upper_finite range.lower_finite).error hwidth (hnormal.trans hle)
  have hstepError : toRat step * exactPart * (k + 1) ≤ toRat (upper - lower) :=
    (le_div_iff₀ (by linarith)).mp (hquotient.error hstep.finite hnormal)
  have hfinite : (step * Float.ofNat k).isFinite = true := by
    refine hmultiple.finite_between (rounds_self hstep.finite) (rounds_self hwidth) hstep.finite
      hwidth hmore ?_
    calc toRat step * k ≤ toRat step * ((k + 1) * exactPart ^ 3) :=
          mul_le_mul_of_nonneg_left hsmall hstep.nonneg
      _ = toRat step * exactPart * (k + 1) * exactPart ^ 2 := by ring
      _ ≤ toRat (upper - lower) * exactPart ^ 2 := by gcongr
      _ ≤ toRat (upper - lower) := mul_le_of_le_one_right hnonneg (pow_le_one₀ hpart.le hpart_le)
  have hmultipleError : toRat (step * Float.ofNat k) * exactPart ≤ toRat step * k :=
    hmultiple.error hfinite
      (hnormal.trans ((rounds_self hstep.finite).mono hmultiple hmore hstep.finite hfinite))
  refine ⟨hfinite, le_of_mul_le_mul_right (a := (k + 1) * exactPart ^ 3) ?_ (by positivity)⟩
  calc toRat (step * Float.ofNat k) * ((k + 1) * exactPart ^ 3)
      = toRat (step * Float.ofNat k) * exactPart * ((k + 1) * exactPart ^ 2) := by ring
    _ ≤ toRat step * k * ((k + 1) * exactPart ^ 2) := by gcongr
    _ = toRat step * exactPart * (k + 1) * (k * exactPart) := by ring
    _ ≤ toRat (upper - lower) * (k * exactPart) := by gcongr
    _ = toRat (upper - lower) * exactPart * k := by ring
    _ ≤ (toRat upper - toRat lower) * k := by gcongr
    _ ≤ (toRat upper - toRat lower) * ((k + 1) * exactPart ^ 3) := by gcongr

/-- **Steps that have 53 bits are small enough**, and so is none at all. -/
theorem IsRange.lastComputed_le (range : IsRange lower upper) (hcount : 2 ≤ count ∧ count ≤ 200)
    (hwidth : (upper - lower).isFinite = true)
    (hnormal : (lower == upper) = true ∨ smallestNormal ≤ stepOf lower upper count) :
    lastComputed lower upper count ≤ upper := by
  obtain ⟨hstep, hquotient⟩ := range.rounds_stepOf ⟨hcount.1, by omega⟩ hwidth
  have hmultiple := hstep.rounds_multiple (i := count - 2) (by omega)
  -- without a width, and at the first point, there is nothing to add
  have hnothing (hzero : toRat (stepOf lower upper count) * (count - 2 : ℕ) = 0) :
      lastComputed lower upper count ≤ upper := by
    rw [hzero] at hmultiple
    obtain ⟨hfinite, hvalue⟩ := hmultiple.zero
    exact range.position_le hfinite hvalue.ge (hvalue.trans_le range.exact_nonneg)
  rcases hnormal with hsame | hnormal
  · have hdifference := rounds_sub range.upper_finite range.lower_finite
    rw [(beq_iff range.lower_finite range.upper_finite).mp hsame, sub_self] at hdifference
    rw [hdifference.zero.2, zero_div] at hquotient
    exact hnothing (by rw [hquotient.zero.2, zero_mul])
  · rcases Nat.eq_zero_or_pos (count - 2) with hfirst | hlater
    · exact hnothing (by rw [hfirst, Nat.cast_zero, mul_zero])
    · obtain ⟨hsmallest, hvalue⟩ := smallestNormal_finite
      have hbits := (le_iff hsmallest hstep.finite).mp hnormal
      rw [hvalue] at hbits
      have hlast : count - 1 = count - 2 + 1 := by omega
      rw [hlast, Nat.cast_add_one] at hquotient
      obtain ⟨hfinite, hless⟩ :=
        range.multiple_le_width hwidth ⟨hlater, by omega⟩ hstep hquotient hbits
      exact range.position_le hfinite
        (hmultiple.nonneg (mul_nonneg hstep.nonneg (Nat.cast_nonneg _)) hfinite) hless

/-! ## Sweeps -/

theorem map_fst_evaluations (f : Formula) (target : Variable) (expected : Option String)
    (b : Bindings) (xs : List Float) : (evaluations f target expected b xs).map (·.1) = xs := by
  induction xs generalizing b with
  | nil => rfl
  | cons x xs ih => rw [evaluations, List.map_cons, ih]

variable {s : Session} {id : Option String} {target : Variable}

/-- The target of a valid session is what its id finds. -/
theorem find_target (hvalid : s.violation? = none) (htarget : target ∈ s.table)
    (hid : (id <|> s.sweep.variableId) = some target.id) :
    (id <|> s.sweep.variableId).bind s.findVariable? = some target := by
  rw [hid, Option.bind_some, Session.findVariable?]
  cases hfound : s.table.find? (·.id == target.id) with
  | none => exact absurd (List.find?_eq_none.mp hfound target htarget) (by simp)
  | some v =>
      have hsame : v.id = target.id := by simpa using List.find?_some hfound
      rw [List.inj_on_of_nodup_map (Session.nodup_ids hvalid) (List.mem_of_find?_eq_some hfound)
        htarget hsame]

/-- **A sweep with a range goes through its positions**, whether or not the formula compiles. -/
theorem run_positions (hfound : (id <|> s.sweep.variableId).bind s.findVariable? = some target)
    (hmin : target.min = some lower) (hmax : target.max = some upper)
    (hrange : (run s id).error ≠ some rangeMissing) :
    lower ≤ upper ∧
      (run s id).points.map (·.x) = positions lower upper s.sweep.pointCount := by
  have hbounds : target.range? = if lower ≤ upper then some (lower, upper) else none := by
    rw [Variable.range?, hmin, hmax]
  unfold run at hrange ⊢
  rw [hfound] at hrange ⊢
  dsimp only at hrange ⊢
  rw [hbounds] at hrange ⊢
  split_ifs at hrange ⊢ with hle
  · refine ⟨hle, ?_⟩
    dsimp only at hrange ⊢
    cases hf : Formula.compile s.formula with
    | error e =>
        show ((positions lower upper s.sweep.pointCount).map _).map _ = _
        rw [List.map_map]
        exact List.map_id _
    | ok f =>
        rw [hf] at hrange
        dsimp only at hrange ⊢
        cases hb : (Bindings.ofVariables s.table).setValue? target lower with
        | none =>
            rw [hb] at hrange
            exact absurd rfl hrange
        | some b =>
            dsimp only [collect]
            rw [List.map_map]
            exact map_fst_evaluations f target s.expectation? b _
  · exact absurd rfl hrange

theorem pointCount_bounds (p : SweepPlan) : 2 ≤ p.pointCount ∧ p.pointCount ≤ 200 := by
  unfold SweepPlan.pointCount
  omega

/-- **A sweep stays inside its range exactly if the width of the range is a double and the last
    computed position is not past the upper bound**, whatever the formula is. With a width that is a
    double, the bounds may be equal, and every step that has 53 bits will do. -/
theorem sweep_staysInside_iff (hvalid : s.violation? = none) (htarget : target ∈ s.table)
    (hid : (id <|> s.sweep.variableId) = some target.id) (hmin : target.min = some lower)
    (hmax : target.max = some upper) (hrange : (run s id).error ≠ some rangeMissing) :
    (StaysInside lower upper ((run s id).points.map (·.x)) ↔
        (upper - lower).isFinite = true ∧
          lastComputed lower upper s.sweep.pointCount ≤ upper) ∧
      ((upper - lower).isFinite = true →
        (lower == upper) = true ∨ smallestNormal ≤ stepOf lower upper s.sweep.pointCount →
        StaysInside lower upper ((run s id).points.map (·.x))) := by
  have hfinite := Session.isFinite_of_valid hvalid target htarget
  obtain ⟨hle, hpositions⟩ := run_positions (find_target hvalid htarget hid) hmin hmax hrange
  have range : IsRange lower upper :=
    ⟨hfinite lower (by simp [Variable.numbers, hmin]),
      hfinite upper (by simp [Variable.numbers, hmax]), hle⟩
  have hcount := pointCount_bounds s.sweep
  have hinside := range.staysInside_iff hcount
  rw [hpositions]
  exact ⟨hinside, fun hwidth hnormal =>
    hinside.mpr ⟨hwidth, range.lastComputed_le hcount hwidth hnormal⟩⟩

/-- Fifty points from a tenth to seven tenths. -/
theorem tenths_stayInside :
    let target : Variable :=
      { id := "x", symbol := "x", value := 0.3, min := some 0.1, max := some 0.7 }
    let s : Session := { table := [target], formula := "1 / x", sweep := { variableId := some "x" } }
    s.violation? = none ∧ (run s none).error ≠ some rangeMissing ∧
      StaysInside 0.1 0.7 ((run s none).points.map (·.x)) := by
  intro target s
  have hvalid : s.violation? = none := by decide +kernel
  have hrange : (run s none).error ≠ some rangeMissing := by decide +kernel
  refine ⟨hvalid, hrange, ?_⟩
  exact (sweep_staysInside_iff hvalid List.mem_cons_self rfl rfl rfl hrange).2 (by decide +kernel)
    (.inr (by decide +kernel))

/-- Between bounds whose distance is too large for a double, the step is infinite and the first
    position is not a number. -/
theorem widest_leaves_range :
    let target : Variable :=
      { id := "x", symbol := "x", value := 0, min := some (-1.7e308), max := some 1.7e308 }
    let s : Session :=
      { table := [target], formula := "1", sweep := { variableId := some "x", points := 2 } }
    s.violation? = none ∧ (run s none).error = none ∧
      ¬StaysInside (-1.7e308) 1.7e308 ((run s none).points.map (·.x)) := by
  intro target s
  refine ⟨by decide +kernel, by decide +kernel, fun h => ?_⟩
  have hfinite : ((run s none).points.map (·.x)).all (·.isFinite) = true :=
    List.all_eq_true.mpr h.finite
  exact absurd hfinite (by decide +kernel)

/-- Five steps in three of the smallest distances: the step is rounded up to one of them, and the last
    computed position is four of them away. -/
example : let upper := Float.ofBits 3
    (upper - 0).isFinite = true ∧ ¬lastComputed 0 upper 6 ≤ upper := by decide +kernel

end Reckoner.Sweep
