import Mathlib.Algebra.Order.Field.Power
import Mathlib.Data.Int.Log
import Mathlib.Data.Rat.Floor
import Mathlib.Tactic.Linarith
import Mathlib.Tactic.NormNum
import Mathlib.Tactic.Positivity
import Mathlib.Tactic.Ring

/-!
# `Reckoner.Proofs.Double.HalfEven` — rounding rational numbers

What operations on doubles compute is an exact result, rounded: to the nearest multiple of the last
place, and to the even one of two. The last place depends on the magnitude of the number. Rounding
keeps the order all the same, since a power of two is where one last place ends and the next begins.

## Contents
- **Whole numbers.** `halfEven`, and what is between its neighbours.
- **The last place.** `place`, given by the bounds in `place_eq`.
- **Magnitudes.** `roundPos`; it keeps the order (`roundPos_mono`) and what has the format
  (`roundPos_natCast_mul`), nothing that has it is nearer (`roundPos_nearest`), and it adds 1 part in
  `2 ^ 53` at most (`roundPos_error`).
- **Numbers.** `rounded`, the same with signs.
-/

namespace Reckoner.Double

variable {q q' t t' : ℚ} {p : ℤ}

/-! ## Whole numbers -/

/-- The nearest whole number, and the even one of two. -/
def halfEven (t : ℚ) : ℤ :=
  if Int.fract t < 1 / 2 then ⌊t⌋
  else if Int.fract t = 1 / 2 then ⌊t⌋ + ⌊t⌋ % 2
  else ⌊t⌋ + 1

theorem halfEven_of_lt (h : Int.fract t < 1 / 2) : halfEven t = ⌊t⌋ := if_pos h

theorem halfEven_of_eq (h : Int.fract t = 1 / 2) : halfEven t = ⌊t⌋ + ⌊t⌋ % 2 := by
  rw [halfEven, if_neg h.not_lt, if_pos h]

theorem halfEven_of_gt (h : 1 / 2 < Int.fract t) : halfEven t = ⌊t⌋ + 1 := by
  rw [halfEven, if_neg h.not_gt, if_neg h.ne']

theorem halfEven_intCast (n : ℤ) : halfEven n = n := by
  rw [halfEven_of_lt (by simp), Int.floor_intCast]

theorem halfEven_natCast (n : ℕ) : halfEven n = n := by
  rw [← Int.cast_natCast, halfEven_intCast]

/-- The whole numbers on both sides. -/
theorem halfEven_bounds (t : ℚ) : ⌊t⌋ ≤ halfEven t ∧ halfEven t ≤ ⌊t⌋ + 1 := by
  rcases lt_trichotomy (Int.fract t) (1 / 2) with h | h | h
  · rw [halfEven_of_lt h]
    omega
  · rw [halfEven_of_eq h]
    omega
  · rw [halfEven_of_gt h]
    omega

/-- No more than a half is added. -/
theorem halfEven_le (t : ℚ) : (halfEven t : ℚ) ≤ t + 1 / 2 := by
  have hfloor := Int.floor_add_fract t
  have hnonneg := Int.fract_nonneg t
  rcases lt_trichotomy (Int.fract t) (1 / 2) with h | h | h
  · rw [halfEven_of_lt h]
    linarith
  · have hparity : ((⌊t⌋ % 2 : ℤ) : ℚ) ≤ 1 := by
      exact_mod_cast (by omega : ⌊t⌋ % 2 ≤ 1)
    rw [halfEven_of_eq h, Int.cast_add]
    linarith
  · rw [halfEven_of_gt h, Int.cast_add, Int.cast_one]
    linarith

/-- **No whole number is nearer** than the rounded one. -/
theorem halfEven_nearest (t : ℚ) (n : ℤ) : |halfEven t - t| ≤ |n - t| := by
  have hfloor := Int.floor_add_fract t
  -- the whole numbers below are at least the fraction away, and those above what it lacks of one
  have hreach : Int.fract t ≤ |n - t| ∨ 1 - Int.fract t ≤ |n - t| := by
    rcases le_or_gt n ⌊t⌋ with hle | hgt
    · have hbelow : (n : ℚ) ≤ ⌊t⌋ := Int.cast_le.mpr hle
      exact .inl (le_trans (by linarith) (neg_le_abs _))
    · have habove : (⌊t⌋ : ℚ) + 1 ≤ n := by exact_mod_cast hgt
      exact .inr (le_trans (by linarith) (le_abs_self _))
  have hnonneg := Int.fract_nonneg t
  have hless := Int.fract_lt_one t
  rcases lt_trichotomy (Int.fract t) (1 / 2) with h | h | h
  · have hdistance : |(⌊t⌋ : ℚ) - t| = Int.fract t := by
      rw [abs_sub_comm, ← Int.self_sub_floor, abs_of_nonneg (by linarith)]
    rw [halfEven_of_lt h, hdistance]
    exact hreach.elim id fun hreach => by linarith
  · have hdistance : |((⌊t⌋ + ⌊t⌋ % 2 : ℤ) : ℚ) - t| = 1 / 2 := by
      have hparity : ⌊t⌋ % 2 = 0 ∨ ⌊t⌋ % 2 = 1 := by omega
      rcases hparity with heven | hodd
      · rw [heven, add_zero, abs_sub_comm, abs_of_nonneg (by linarith)]
        linarith
      · rw [hodd, Int.cast_add, Int.cast_one, abs_of_nonneg (by linarith)]
        linarith
    rw [halfEven_of_eq h, hdistance]
    exact hreach.elim (fun hreach => by linarith) fun hreach => by linarith
  · have hdistance : |((⌊t⌋ + 1 : ℤ) : ℚ) - t| = 1 - Int.fract t := by
      rw [Int.cast_add, Int.cast_one, abs_of_nonneg (by linarith)]
      linarith
    rw [halfEven_of_gt h, hdistance]
    exact hreach.elim (fun hreach => by linarith) id

/-- **Rounding to whole numbers keeps the order.** -/
theorem halfEven_mono (h : t ≤ t') : halfEven t ≤ halfEven t' := by
  rcases (Int.floor_mono h).lt_or_eq with hlt | heq
  · have := (halfEven_bounds t).2
    have := (halfEven_bounds t').1
    omega
  · -- between the same whole numbers the fractions decide
    have hfract : Int.fract t ≤ Int.fract t' := by
      rw [Int.fract, Int.fract, heq]
      linarith
    rcases lt_trichotomy (Int.fract t) (1 / 2) with hless | hhalf | hmore
    · rw [halfEven_of_lt hless, heq]
      exact (halfEven_bounds t').1
    · rcases (hhalf ▸ hfract).eq_or_lt with hhalf' | hmore'
      · rw [halfEven_of_eq hhalf, halfEven_of_eq hhalf'.symm, heq]
      · rw [halfEven_of_gt hmore', ← heq]
        exact (halfEven_bounds t).2
    · rw [halfEven_of_gt hmore, halfEven_of_gt (lt_of_lt_of_le hmore hfract), heq]

/-- A whole number is at most the rounded one if it is at most the exact one, and at least if it is at
    least. -/
theorem natCast_le_halfEven {n : ℕ} (h : n ≤ t) : n ≤ halfEven t := by
  rw [← halfEven_natCast]
  exact halfEven_mono h

theorem halfEven_le_natCast {n : ℕ} (h : t ≤ n) : halfEven t ≤ n := by
  rw [← halfEven_natCast]
  exact halfEven_mono h

/-! ## The last place -/

theorem two_pow_mul_zpow (n : ℕ) (p : ℤ) : (2 : ℚ) ^ n * 2 ^ p = 2 ^ (n + p) := by
  rw [← zpow_natCast, ← zpow_add₀ (by norm_num)]

theorem two_mul_zpow_le {p p' : ℤ} (h : p < p') : (2 : ℚ) * 2 ^ p ≤ 2 ^ p' := by
  rw [mul_comm, ← zpow_add_one₀ (by norm_num)]
  exact zpow_le_zpow_right₀ (by norm_num) h

/-- The exponent of the last place of a positive number: 53 bits stand in front of it, unless it is
    the lowest there is. -/
def place (q : ℚ) : ℤ := max (Int.log 2 q - 52) (-1074)

theorem lowest_le_place (q : ℚ) : -1074 ≤ place q := le_max_right _ _

/-- No more than 53 bits stand in front of the last place. -/
theorem lt_place (q : ℚ) : q < 2 ^ 53 * 2 ^ place q := by
  refine lt_of_lt_of_le (Int.lt_zpow_succ_log_self (b := 2) (by decide) q) ?_
  rw [two_pow_mul_zpow]
  refine zpow_le_zpow_right₀ (by norm_num) ?_
  unfold place
  push_cast
  omega

/-- And no less, unless the last place is the lowest. -/
theorem place_le (hq : 0 < q) (h : -1074 < place q) : 2 ^ 52 * 2 ^ place q ≤ q := by
  refine le_trans ?_ (Int.zpow_log_le_self (b := 2) (by decide) hq)
  rw [Nat.cast_ofNat, two_pow_mul_zpow]
  refine zpow_le_zpow_right₀ (by norm_num) ?_
  unfold place at h ⊢
  push_cast
  omega

/-- **The last place is given by these bounds.** -/
theorem place_eq (hq : 0 < q) (hlt : q < 2 ^ 53 * 2 ^ p) (hlowest : -1074 ≤ p)
    (hle : -1074 < p → 2 ^ 52 * 2 ^ p ≤ q) : place q = p := by
  have hhigh : Int.log 2 q < p + 53 := by
    rw [← Int.lt_zpow_iff_log_lt (b := 2) (by decide) hq, Nat.cast_ofNat, zpow_add₀ (by norm_num)]
    linarith
  rcases hlowest.eq_or_lt with rfl | hmore
  · unfold place
    omega
  · have hlow : p + 52 ≤ Int.log 2 q := by
      rw [← Int.zpow_le_iff_le_log (b := 2) (by decide) hq, Nat.cast_ofNat,
        zpow_add₀ (by norm_num)]
      linarith [hle hmore]
    unfold place
    omega

theorem place_mono (hq : 0 < q) (h : q ≤ q') : place q ≤ place q' := by
  have := Int.log_mono_right (b := 2) hq h
  unfold place
  omega

theorem place_le_of_lt (hq : 0 < q) (h : q < 2 ^ 53 * 2 ^ p) (hlowest : -1074 ≤ p) :
    place q ≤ p := by
  have hlog : Int.log 2 q < p + 53 := by
    rw [← Int.lt_zpow_iff_log_lt (b := 2) (by decide) hq, Nat.cast_ofNat, zpow_add₀ (by norm_num)]
    linarith
  unfold place
  omega

/-! ## Magnitudes -/

/-- A number that is not negative, rounded to its last place. -/
def roundPos (q : ℚ) : ℚ := halfEven (q / 2 ^ place q) * 2 ^ place q

@[simp] theorem roundPos_zero : roundPos 0 = 0 := by
  have hzero : halfEven 0 = 0 := halfEven_intCast 0
  rw [roundPos, zero_div, hzero, Int.cast_zero, zero_mul]

/-- A rounded mantissa has 53 bits, unless its last place is the lowest or it was rounded up to the
    next power of two. -/
theorem mantissa_bounds (hq : 0 < q) {m : ℕ} (hm : (m : ℤ) = halfEven (q / 2 ^ place q)) :
    m ≤ 2 ^ 53 ∧ (-1074 < place q → 2 ^ 52 ≤ m) := by
  constructor
  · have hbits := lt_place q
    rw [← div_lt_iff₀ (by positivity)] at hbits
    exact_mod_cast hm ▸ halfEven_le_natCast (n := 2 ^ 53) (by push_cast; exact hbits.le)
  · intro hlowest
    have hbits := place_le hq hlowest
    rw [← le_div_iff₀ (by positivity)] at hbits
    exact_mod_cast hm ▸ natCast_le_halfEven (n := 2 ^ 52) (by push_cast; exact hbits)

/-- Multiples of the last place bound what is rounded. -/
theorem roundPos_le_of_le {n : ℕ} (h : q ≤ n * 2 ^ place q) : roundPos q ≤ n * 2 ^ place q := by
  rw [roundPos]
  refine mul_le_mul_of_nonneg_right ?_ (by positivity)
  rw [← div_le_iff₀ (by positivity)] at h
  exact_mod_cast halfEven_le_natCast h

theorem le_roundPos_of_le {n : ℕ} (h : n * 2 ^ place q ≤ q) : n * 2 ^ place q ≤ roundPos q := by
  rw [roundPos]
  refine mul_le_mul_of_nonneg_right ?_ (by positivity)
  rw [← le_div_iff₀ (by positivity)] at h
  exact_mod_cast natCast_le_halfEven h

/-- **What has up to 53 bits is its own rounding.** -/
theorem roundPos_natCast_mul {n : ℕ} (hn : n < 2 ^ 53) (hlowest : -1074 ≤ p) :
    roundPos (n * 2 ^ p) = n * 2 ^ p := by
  rcases Nat.eq_zero_or_pos n with rfl | hpos
  · rw [Nat.cast_zero, zero_mul, roundPos_zero]
  · have hbits : (n : ℚ) * 2 ^ p < 2 ^ 53 * 2 ^ p :=
      mul_lt_mul_of_pos_right (by exact_mod_cast hn) (by positivity)
    -- it is a whole number of its last places too
    obtain ⟨k, hk⟩ := Int.le.dest (place_le_of_lt (by positivity) hbits hlowest)
    have hvalue : (n : ℚ) * 2 ^ p = (n * 2 ^ k : ℕ) * 2 ^ place (n * 2 ^ p) := by
      push_cast
      rw [mul_assoc, two_pow_mul_zpow, add_comm, hk]
    refine le_antisymm ?_ ?_
    · calc roundPos (n * 2 ^ p) ≤ (n * 2 ^ k : ℕ) * 2 ^ place (n * 2 ^ p) :=
            roundPos_le_of_le hvalue.le
        _ = n * 2 ^ p := hvalue.symm
    · calc (n : ℚ) * 2 ^ p = (n * 2 ^ k : ℕ) * 2 ^ place (n * 2 ^ p) := hvalue
        _ ≤ roundPos (n * 2 ^ p) := le_roundPos_of_le hvalue.ge

theorem roundPos_nonneg (hq : 0 ≤ q) : 0 ≤ roundPos q := by
  have := le_roundPos_of_le (q := q) (n := 0) (by simpa using hq)
  simpa using this

/-- **Rounding keeps the order.** -/
theorem roundPos_mono (hq : 0 ≤ q) (h : q ≤ q') : roundPos q ≤ roundPos q' := by
  rcases hq.eq_or_lt with rfl | hpos
  · rw [roundPos_zero]
    exact roundPos_nonneg h
  · rcases (place_mono hpos h).eq_or_lt with heq | hlt
    · rw [roundPos, roundPos, ← heq]
      refine mul_le_mul_of_nonneg_right ?_ (by positivity)
      exact_mod_cast halfEven_mono (div_le_div_of_nonneg_right h (by positivity))
    · -- a power of two stands between them
      have hpos' := lt_of_lt_of_le hpos h
      have hlow : roundPos q ≤ (2 ^ 53 : ℕ) * 2 ^ place q :=
        roundPos_le_of_le (by push_cast; exact (lt_place q).le)
      have hhigh : (2 ^ 52 : ℕ) * 2 ^ place q' ≤ roundPos q' :=
        le_roundPos_of_le (by
          push_cast
          exact place_le hpos' (lt_of_le_of_lt (lowest_le_place q) hlt))
      have hplaces := two_mul_zpow_le hlt
      push_cast at hlow hhigh
      linarith

/-- No multiple of the last place is nearer than the rounded number. -/
theorem roundPos_nearest_multiple (q : ℚ) (n : ℕ) :
    |roundPos q - q| ≤ |n * 2 ^ place q - q| := by
  have hunit : (0 : ℚ) < 2 ^ place q := by positivity
  have hscale : ∀ k : ℚ, |k * 2 ^ place q - q| = |k - q / 2 ^ place q| * 2 ^ place q := by
    intro k
    rw [← abs_of_pos hunit, ← abs_mul, abs_of_pos hunit, sub_mul, div_mul_cancel₀ _ hunit.ne']
  rw [roundPos, hscale, hscale]
  exact mul_le_mul_of_nonneg_right (halfEven_nearest _ n) hunit.le

/-- **No number of up to 53 bits is nearer** than the rounded one. -/
theorem roundPos_nearest {n : ℕ} (hq : 0 < q) (hn : n < 2 ^ 53) (hlowest : -1074 ≤ p) :
    |roundPos q - q| ≤ |n * 2 ^ p - q| := by
  rcases le_or_gt (place q) p with hle | hgt
  · -- a multiple of its own last place is one of a finer place
    obtain ⟨k, rfl⟩ := Int.le.dest hle
    have hmultiple := roundPos_nearest_multiple q (n * 2 ^ k)
    rwa [Nat.cast_mul, Nat.cast_pow, Nat.cast_ofNat, mul_assoc, two_pow_mul_zpow, add_comm]
      at hmultiple
  · -- a number with a finer last place is below the power of two where that of `q` begins
    have hpower : 2 ^ 52 * 2 ^ place q ≤ q := place_le hq (lt_of_le_of_lt hlowest hgt)
    have hbelow : (n : ℚ) * 2 ^ p ≤ 2 ^ 52 * 2 ^ place q := by
      have hbits : (n : ℚ) * 2 ^ p ≤ 2 ^ 53 * 2 ^ p :=
        mul_le_mul_of_nonneg_right (by exact_mod_cast hn.le) (by positivity)
      have hplaces := two_mul_zpow_le hgt
      linarith
    have hmultiple := roundPos_nearest_multiple q (2 ^ 52)
    rw [Nat.cast_pow, Nat.cast_ofNat] at hmultiple
    calc |roundPos q - q| ≤ |2 ^ 52 * 2 ^ place q - q| := hmultiple
      _ = q - 2 ^ 52 * 2 ^ place q := by rw [abs_of_nonpos (by linarith), neg_sub]
      _ ≤ q - n * 2 ^ p := by linarith
      _ = |n * 2 ^ p - q| := by rw [abs_of_nonpos (by linarith), neg_sub]

/-- Less than half of the lowest last place is rounded to nothing. -/
theorem roundPos_eq_zero (hq : 0 < q) (h : q < 1 / 2 * 2 ^ (-1074 : ℤ)) : roundPos q = 0 := by
  have hunit : (0 : ℚ) < 2 ^ (-1074 : ℤ) := by positivity
  have hplace : place q = -1074 :=
    le_antisymm (place_le_of_lt hq (by linarith) (le_refl _)) (lowest_le_place q)
  have hless : q / 2 ^ (-1074 : ℤ) < 1 / 2 := (div_lt_iff₀ hunit).mpr h
  have hfract : Int.fract (q / 2 ^ (-1074 : ℤ)) = q / 2 ^ (-1074 : ℤ) :=
    Int.fract_eq_self.mpr ⟨by positivity, by linarith⟩
  have hfloor : ⌊q / 2 ^ (-1074 : ℤ)⌋ = 0 := Int.floor_eq_zero_iff.mpr ⟨by positivity, by linarith⟩
  rw [roundPos, hplace, halfEven_of_lt (hfract.trans_lt hless), hfloor, Int.cast_zero, zero_mul]

/-- No more than half of the last place is added. -/
theorem roundPos_le_add (q : ℚ) : roundPos q ≤ q + 1 / 2 * 2 ^ place q := by
  have hunit : (2 : ℚ) ^ place q ≠ 0 := by positivity
  have hscaled := mul_le_mul_of_nonneg_right (halfEven_le (q / 2 ^ place q))
    (by positivity : (0 : ℚ) ≤ 2 ^ place q)
  rwa [add_mul, div_mul_cancel₀ _ hunit] at hscaled

/-- **The rounding error**: no more than 1 part in `2 ^ 53` of the result was added, unless the result
    is below the lowest number with 53 bits. -/
theorem roundPos_error (hq : 0 < q) (h : 2 ^ (-1022 : ℤ) ≤ roundPos q) :
    roundPos q * (1 - 2 ^ (-53 : ℤ)) ≤ q := by
  have hbits : 2 ^ 52 * 2 ^ place q ≤ roundPos q := by
    rcases (lowest_le_place q).eq_or_lt with heq | hlt
    · rw [← heq]
      refine le_trans (le_of_eq ?_) h
      rw [two_pow_mul_zpow]
      norm_num
    · have := le_roundPos_of_le (n := 2 ^ 52) (by push_cast; exact place_le hq hlt)
      push_cast at this
      exact this
  have hround := roundPos_le_add q
  have hhalf : (2 : ℚ) ^ (-53 : ℤ) = 1 / 2 / 2 ^ 52 := by norm_num
  have hulp : 1 / 2 * 2 ^ place q ≤ roundPos q * (1 / 2 / 2 ^ 52) := by
    rw [mul_div_assoc', le_div_iff₀ (by positivity)]
    linarith
  rw [hhalf, mul_sub, mul_one]
  linarith

/-! ## Numbers -/

/-- A number, rounded to the last place of its magnitude. -/
def rounded (q : ℚ) : ℚ := if q < 0 then -roundPos (-q) else roundPos q

theorem rounded_of_nonneg (hq : 0 ≤ q) : rounded q = roundPos q := if_neg hq.not_gt

theorem rounded_neg (q : ℚ) : rounded (-q) = -rounded q := by
  unfold rounded
  rcases lt_trichotomy q 0 with hq | rfl | hq
  · rw [if_neg (by linarith), if_pos hq, neg_neg]
  · simp
  · rw [if_pos (by linarith), if_neg (by linarith), neg_neg]

/-- **Rounding keeps the order**, whatever the signs. -/
theorem rounded_mono (h : q ≤ q') : rounded q ≤ rounded q' := by
  unfold rounded
  by_cases hq : q < 0
  · by_cases hq' : q' < 0
    · rw [if_pos hq, if_pos hq', neg_le_neg_iff]
      exact roundPos_mono (by linarith) (by linarith)
    · rw [if_pos hq, if_neg hq']
      have := roundPos_nonneg (q := -q) (by linarith)
      have := roundPos_nonneg (not_lt.mp hq')
      linarith
  · rw [if_neg hq, if_neg (by linarith)]
    exact roundPos_mono (not_lt.mp hq) h

end Reckoner.Double
