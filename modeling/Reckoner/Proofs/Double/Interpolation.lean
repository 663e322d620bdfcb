import Reckoner.Proofs.Double.Limits

/-!
# `Reckoner.Proofs.Double.Interpolation` — between finite doubles lie finite doubles

Two weights that were rounded may be more than one together, and so may two rounded products be more
than the greatest finite double. But a weight of more than a half takes a whole last place from what it
is multiplied with, which is more than all roundings add.

## Contents
- **Products with weights.** How large they may be: `roundPos_light` and `roundPos_heavy`.
- **Weights.** `weights`: two weights together; `weighted_lt`: their products together.
- **Interpolation.** `isFinite_interpolated`.
-/

namespace Reckoner.Double

variable {g x y : Float} {c d : ℚ} {n : ℕ}

/-! ## Products with weights -/

theorem two_le_topPlace : 2 ≤ topPlace := by
  have hpower : (2 : ℚ) ^ (1 : ℤ) ≤ topPlace := zpow_le_zpow_right₀ (by norm_num) (by norm_num)
  rwa [zpow_one] at hpower

/-- **A product with a weight** is below the weight's part of the power of two above all doubles. -/
theorem roundPos_light (hc : 2 ^ (-1074 : ℤ) ≤ c) :
    roundPos (c * greatestFinite) < c * (2 ^ 53 * topPlace) := by
  have hpos : 0 < c := lt_of_lt_of_le (by positivity) hc
  have hproduct : 0 < c * greatestFinite := mul_pos hpos greatestFinite_pos
  -- it is large enough to have 53 bits
  have hplace : -1074 < place (c * greatestFinite) := by
    refine lt_of_le_of_ne (lowest_le_place _) fun hlowest => ?_
    have hlt := lt_place (c * greatestFinite)
    rw [← hlowest] at hlt
    have hlarge : 2 ^ 53 ≤ greatestFinite := by
      unfold greatestFinite
      linarith [two_le_topPlace]
    have := mul_le_mul hc hlarge (by positivity) hpos.le
    linarith
  have hbits := place_le hproduct hplace
  have hround := roundPos_le_add (c * greatestFinite)
  have hscaled : 0 < c * topPlace := mul_pos hpos topPlace_pos
  have hunits : c * greatestFinite = (2 ^ 53 - 1) * (c * topPlace) := by
    unfold greatestFinite
    ring
  calc roundPos (c * greatestFinite)
      ≤ c * greatestFinite + c * greatestFinite / 2 ^ 53 := by linarith
    _ = (2 ^ 53 - 1 / 2 ^ 53) * (c * topPlace) := by
        rw [hunits]
        ring
    _ < 2 ^ 53 * (c * topPlace) := mul_lt_mul_of_pos_right (by norm_num) hscaled
    _ = c * (2 ^ 53 * topPlace) := mul_left_comm ..

/-- **A product with a weight of more than a half** is a whole last place smaller. -/
theorem roundPos_heavy (hlow : 2 ^ 52 < n) (hhigh : n ≤ 2 ^ 53) :
    roundPos (n / 2 ^ 53 * greatestFinite) ≤ (n - 1) * topPlace := by
  have hlow' : (2 ^ 52 + 1 : ℚ) ≤ n := by exact_mod_cast hlow
  have hhigh' : (n : ℚ) ≤ 2 ^ 53 := by exact_mod_cast hhigh
  have hproduct : n / 2 ^ 53 * greatestFinite = (n - n / 2 ^ 53) * topPlace := by
    unfold greatestFinite
    ring
  have hplace : place ((n - n / 2 ^ 53) * topPlace) = 971 := by
    refine place_eq (mul_pos (by linarith) topPlace_pos) ?_ (by norm_num) fun _ => ?_
    · exact mul_lt_mul_of_pos_right (by linarith) topPlace_pos
    · exact mul_le_mul_of_nonneg_right (by linarith) topPlace_pos.le
  have hunits : (n - n / 2 ^ 53) * topPlace / 2 ^ (971 : ℤ) = n - n / 2 ^ 53 :=
    mul_div_cancel_right₀ _ topPlace_pos.ne'
  rw [hproduct, roundPos, hplace, hunits]
  refine mul_le_mul_of_nonneg_right ?_ topPlace_pos.le
  have hround : (halfEven (n - n / 2 ^ 53) : ℚ) < n := by
    linarith [halfEven_le ((n : ℚ) - n / 2 ^ 53)]
  rw [le_sub_iff_add_le]
  exact_mod_cast hround

theorem roundPos_half : roundPos (1 / 2 * greatestFinite) = 1 / 2 * greatestFinite := by
  have hhalf : 1 / 2 * greatestFinite = (2 ^ 53 - 1 : ℕ) * 2 ^ (970 : ℤ) := by
    have htop : topPlace = 2 * 2 ^ (970 : ℤ) := by
      rw [mul_comm, ← zpow_add_one₀ (by norm_num)]
      rfl
    rw [greatestFinite, htop, Nat.cast_sub (by decide), Nat.cast_pow, Nat.cast_ofNat, Nat.cast_one,
      ← mul_assoc, ← mul_assoc]
    congr 1
    ring
  rw [hhalf]
  exact roundPos_natCast_mul (by decide) (by norm_num)

/-! ## Weights -/

/-- A weight of more than a half is counted in units of `2 ^ -53`. -/
theorem exists_numerator (hx : x.isFinite = true) (hlow : 1 / 2 < toRat x) (hhigh : toRat x ≤ 1) :
    ∃ n : ℕ, 2 ^ 52 < n ∧ n ≤ 2 ^ 53 ∧ toRat x = n / 2 ^ 53 := by
  obtain ⟨n, hn⟩ : ∃ n : ℕ, toRat x = n / 2 ^ 53 := by
    rcases nonneg_cases hx (by linarith) with ⟨hzero, -⟩ | ⟨m, e, hm, -, shape, -, hvalue⟩
    · exact ⟨0, by rw [hzero, Nat.cast_zero, zero_div]⟩
    · have hexponent : -53 ≤ e := by
        by_contra hless
        have hmantissa : (m : ℚ) ≤ 2 ^ 53 := by exact_mod_cast shape.mantissa_lt.le
        have hunit : (2 : ℚ) ^ e ≤ 2 ^ (-54 : ℤ) := zpow_le_zpow_right₀ (by norm_num) (by omega)
        have := mul_le_mul hmantissa hunit (by positivity) (by positivity)
        norm_num at this
        linarith
      obtain ⟨k, hk⟩ := Int.le.dest hexponent
      refine ⟨m * 2 ^ k, ?_⟩
      rw [hvalue, ← hk, zpow_add₀ (by norm_num), zpow_natCast, zpow_neg]
      push_cast
      field_simp
      norm_num
  refine ⟨n, ?_, ?_, hn⟩
  · rw [hn, lt_div_iff₀ (by positivity)] at hlow
    exact_mod_cast (by linarith : (2 ^ 52 : ℚ) < n)
  · rw [hn, div_le_one (by positivity)] at hhigh
    exact_mod_cast hhigh

/-- A positive double is at least the smallest. -/
theorem smallest_le (hx : x.isFinite = true) (hpos : 0 < toRat x) : 2 ^ (-1074 : ℤ) ≤ toRat x := by
  rcases nonneg_cases hx hpos.le with ⟨hzero, -⟩ | ⟨m, e, hm, -, shape, -, hvalue⟩
  · exact absurd hzero hpos.ne'
  · have hone : (1 : ℚ) ≤ m := by exact_mod_cast hm
    calc (2 : ℚ) ^ (-1074 : ℤ) ≤ 2 ^ e := zpow_le_zpow_right₀ (by norm_num) shape.exponent_ge
      _ ≤ m * 2 ^ e := le_mul_of_one_le_left (by positivity) hone
      _ = toRat x := hvalue.symm

/-- A weight: a finite double between nothing and one. -/
structure IsWeight (g : Float) : Prop where
  finite : g.isFinite = true
  nonneg : 0 ≤ toRat g
  le_one : toRat g ≤ 1

/-- **What a weight leaves of one** is a weight, and the two are hardly more than one together. -/
theorem IsWeight.rest (h : IsWeight g) :
    IsWeight (Float.ofNat 1 - g) ∧
      toRat (Float.ofNat 1 - g) + toRat g ≤ 1 + 1 / 2 ^ 54 := by
  obtain ⟨hone, honeValue⟩ := ofNat_exact (n := 1) (by decide)
  rw [Nat.cast_one] at honeValue
  have hrest := rounds_sub hone h.finite
  rw [honeValue] at hrest
  obtain ⟨hfinite, hvalue⟩ := hrest.bounded (n := 1) (p := 0)
    (by rw [abs_of_nonneg (by linarith [h.le_one]), Nat.cast_one, zpow_zero]; linarith [h.nonneg])
    (by decide) (by decide) (by decide)
  rw [Nat.cast_one, zpow_zero, mul_one] at hvalue
  refine ⟨⟨hfinite, hrest.nonneg (by linarith [h.le_one]) hfinite, (abs_le.mp hvalue).2⟩, ?_⟩
  rw [hrest.value_eq hfinite, rounded_of_nonneg (by linarith [h.le_one])]
  -- at both ends the difference is exact, and between them its last place is a small one
  rcases h.nonneg.eq_or_lt with hzero | hpos
  · have hself : roundPos 1 = 1 := by
      have := roundPos_natCast_mul (n := 1) (p := 0) (by decide) (by decide)
      rwa [Nat.cast_one, zpow_zero, mul_one] at this
    rw [← hzero, sub_zero, hself]
    norm_num
  · rcases h.le_one.eq_or_lt with hall | hless
    · rw [hall, sub_self, roundPos_zero]
      norm_num
    · have hplace : place (1 - toRat g) ≤ -53 := by
        refine place_le_of_lt (by linarith) ?_ (by norm_num)
        norm_num
        exact hpos
      have hunit : (2 : ℚ) ^ place (1 - toRat g) ≤ 2 ^ (-53 : ℤ) :=
        zpow_le_zpow_right₀ (by norm_num) hplace
      have hround := roundPos_le_add (1 - toRat g)
      norm_num at hunit ⊢
      linarith

/-- The products with two weights, one of which is more than a half. -/
theorem heavy_light (hx : IsWeight x) (hy : IsWeight y) (hheavy : 1 / 2 < toRat x)
    (htogether : toRat x + toRat y ≤ 1 + 1 / 2 ^ 54) :
    roundPos (toRat x * greatestFinite) + roundPos (toRat y * greatestFinite) <
      (2 ^ 53 - 1 / 2) * topPlace := by
  have hpos := topPlace_pos
  obtain ⟨n, hlow, hhigh, hn⟩ := exists_numerator hx.finite hheavy hx.le_one
  have hlarger := roundPos_heavy hlow hhigh
  rw [← hn] at hlarger
  have hunits : (n : ℚ) = toRat x * 2 ^ 53 := by rw [hn, div_mul_cancel₀ _ (by positivity)]
  rw [hunits] at hlarger
  rcases hy.nonneg.eq_or_lt with hzero | hlight
  · rw [← hzero, zero_mul, roundPos_zero, add_zero]
    have := mul_le_mul_of_nonneg_right hx.le_one hpos.le
    linarith
  · have hsmaller := roundPos_light (smallest_le hy.finite hlight)
    have := mul_le_mul_of_nonneg_right htogether hpos.le
    linarith

/-- **The products with two weights** stay below what is rounded to an infinity. -/
theorem weighted_lt (hx : IsWeight x) (hy : IsWeight y)
    (htogether : toRat x + toRat y ≤ 1 + 1 / 2 ^ 54) :
    roundPos (toRat x * greatestFinite) + roundPos (toRat y * greatestFinite) <
      (2 ^ 53 - 1 / 2) * topPlace := by
  rcases lt_or_ge (1 / 2) (toRat x) with hheavy | hlight
  · exact heavy_light hx hy hheavy htogether
  · rcases lt_or_ge (1 / 2) (toRat y) with hheavy' | hlight'
    · rw [add_comm]
      exact heavy_light hy hx hheavy' (by rwa [add_comm])
    · have hhalf {c : ℚ} (hc : 0 ≤ c) (hless : c ≤ 1 / 2) :
          roundPos (c * greatestFinite) ≤ 1 / 2 * greatestFinite := by
        rw [← roundPos_half]
        exact roundPos_mono (mul_nonneg hc greatestFinite_pos.le)
          (mul_le_mul_of_nonneg_right hless greatestFinite_pos.le)
      calc roundPos (toRat x * greatestFinite) + roundPos (toRat y * greatestFinite)
          ≤ 1 / 2 * greatestFinite + 1 / 2 * greatestFinite :=
            add_le_add (hhalf hx.nonneg hlight) (hhalf hy.nonneg hlight')
        _ = (2 ^ 53 - 1) * topPlace := by rw [greatestFinite]; ring
        _ < (2 ^ 53 - 1 / 2) * topPlace := mul_lt_mul_of_pos_right (by norm_num) topPlace_pos

/-! ## Interpolation -/

/-- A product with a weight. -/
theorem IsWeight.mul (h : IsWeight g) (hx : x.isFinite = true) :
    (g * x).isFinite = true ∧ |toRat (g * x)| ≤ roundPos (toRat g * greatestFinite) := by
  have hproduct := rounds_mul h.finite hx
  have hbound : |toRat g * toRat x| ≤ toRat g * greatestFinite := by
    rw [abs_mul, abs_of_nonneg h.nonneg]
    exact mul_le_mul_of_nonneg_left (abs_toRat_le hx) h.nonneg
  have hgreatest : toRat g * greatestFinite ≤ greatestFinite :=
    mul_le_of_le_one_left greatestFinite_pos.le h.le_one
  have hfinite : (g * x).isFinite = true := by
    refine hproduct.finite_of_lt (lt_of_le_of_lt (hbound.trans hgreatest) ?_)
    exact mul_lt_mul_of_pos_right (by norm_num) topPlace_pos
  refine ⟨hfinite, ?_⟩
  rw [hproduct.value_eq hfinite, abs_rounded]
  exact roundPos_mono (abs_nonneg _) hbound

/-- **Between finite doubles lie finite doubles.** -/
theorem isFinite_interpolated (h : IsWeight g) (hx : x.isFinite = true) (hy : y.isFinite = true) :
    ((Float.ofNat 1 - g) * x + g * y).isFinite = true := by
  obtain ⟨hrest, htogether⟩ := h.rest
  obtain ⟨hfirst, hfirstBound⟩ := hrest.mul hx
  obtain ⟨hsecond, hsecondBound⟩ := h.mul hy
  refine (rounds_add hfirst hsecond).finite_of_lt ?_
  calc |toRat ((Float.ofNat 1 - g) * x) + toRat (g * y)|
      ≤ |toRat ((Float.ofNat 1 - g) * x)| + |toRat (g * y)| := abs_add_le _ _
    _ ≤ roundPos (toRat (Float.ofNat 1 - g) * greatestFinite) +
        roundPos (toRat g * greatestFinite) := add_le_add hfirstBound hsecondBound
    _ < (2 ^ 53 - 1 / 2) * topPlace := weighted_lt hrest h htogether

end Reckoner.Double
