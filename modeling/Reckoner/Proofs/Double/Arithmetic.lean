import Reckoner.Proofs.Double.Finite
import Reckoner.Proofs.Double.Rounding

/-!
# `Reckoner.Proofs.Double.Arithmetic` — operations on doubles round exact results

Every finite double is a rational number, and an operation on finite doubles rounds the exact result.
What is rounded to `2 ^ 1024` or more becomes an infinity.

## Contents
- **Values.** `toRat`, the rational number that a finite double is.
- **Results.** `Rounds`: a double is what rounding makes of a number.
- **Operations.** `rounds_add`, `rounds_sub`, `rounds_mul`, `rounds_div`.
- **Whole numbers.** `ofNat_exact`: those of up to 53 bits are doubles.
- **Order.** Finite doubles compare as their values do.
- **Monotony.** What keeps the order of exact results (`Rounds.mono`) and how far it may be from them
  (`Rounds.nearest` and `Rounds.error`).
-/

namespace Reckoner.Double

open Float.Model (Format UnpackedFloat)
open Float.Model.UnpackedFloat

variable {x y z : Float} {s s' : Sign} {m m' : Nat} {e e' : Int} {u : UnpackedFloat} {q r : ℚ}

/-! ## Values -/

/-- The factor of a sign. -/
def signum : Sign → ℚ
  | .negative => -1
  | .positive => 1

theorem signum_mul (s s' : Sign) : signum (s * s') = signum s * signum s' := by
  cases s with
  | negative =>
      cases s' with
      | negative => show (1 : ℚ) = -1 * -1; norm_num
      | positive => show (-1 : ℚ) = -1 * 1; norm_num
  | positive =>
      cases s' with
      | negative => show (-1 : ℚ) = 1 * -1; norm_num
      | positive => show (1 : ℚ) = 1 * 1; norm_num

theorem signum_div (s s' : Sign) : signum (s / s') = signum s / signum s' := by
  cases s with
  | negative =>
      cases s' with
      | negative => show (1 : ℚ) = -1 / -1; norm_num
      | positive => show (-1 : ℚ) = -1 / 1; norm_num
  | positive =>
      cases s' with
      | negative => show (-1 : ℚ) = 1 / -1; norm_num
      | positive => show (1 : ℚ) = 1 / 1; norm_num

theorem signum_neg (s : Sign) : signum (-s) = -signum s := by
  cases s with
  | negative => exact (neg_neg 1).symm
  | positive => rfl

theorem apply_cast (s : Sign) (n : Int) : (s.apply n : ℚ) = signum s * n := by
  cases s <;> simp [Sign.apply, signum]

/-- The value of an unpacked double; what is not finite counts as zero. -/
def value : UnpackedFloat → ℚ
  | .finite s m e _ => signum s * (m * 2 ^ e)
  | .zero _ | .infinity _ | .notANumber => 0

/-- The value of a double; what is not finite counts as zero. -/
def toRat (x : Float) : ℚ := value (parts x)

theorem toRat_of_zero (h : parts x = .zero s) : toRat x = 0 := by
  rw [toRat, h]
  rfl

theorem toRat_of_finite {hm : 0 < m} (h : parts x = .finite s m e hm) :
    toRat x = signum s * (m * 2 ^ e) := by
  rw [toRat, h]
  rfl

/-! ## Results -/

/-- The double is what rounding makes of a number: the rounded number, or an infinity. -/
structure Rounds (q : ℚ) (x : Float) : Prop where
  finite : |rounded q| < 2 ^ 1024 → x.isFinite = true ∧ toRat x = rounded q
  overflow : 2 ^ 1024 ≤ |rounded q| →
    parts x = .infinity (if q < 0 then .negative else .positive)

theorem two_zpow_1024 : (2 : ℚ) ^ (1024 : ℕ) = 2 ^ 53 * 2 ^ (971 : ℤ) := by
  rw [← zpow_natCast, two_pow_mul_zpow]
  norm_num

/-- What has the format is below `2 ^ 1024` unless the exponent is too large. -/
theorem magnitude_lt_iff (h : Shape m e) : (m * 2 ^ e : ℚ) < 2 ^ 1024 ↔ e ≤ 971 := by
  rw [two_zpow_1024]
  constructor
  · intro hlt
    by_contra hlarge
    rw [not_le] at hlarge
    have hbit : (2 : ℚ) ^ 52 ≤ m := by exact_mod_cast h.leading_bit (by omega)
    have := mul_le_mul hbit (two_mul_zpow_le hlarge) (by positivity) (by positivity)
    linarith
  · intro he
    have hmantissa : (m : ℚ) < 2 ^ 53 := by exact_mod_cast h.mantissa_lt
    exact mul_lt_mul hmantissa (zpow_le_zpow_right₀ (by norm_num) he) (by positivity)
      (by positivity)

theorem rounded_signum (hr : 0 ≤ r) : rounded (signum s * r) = signum s * roundPos r := by
  cases s with
  | negative =>
      rw [signum, neg_one_mul, neg_one_mul, rounded_neg, rounded_of_nonneg hr]
  | positive =>
      rw [signum, one_mul, one_mul, rounded_of_nonneg hr]

theorem abs_signum_mul (hr : 0 ≤ r) : |signum s * r| = r := by
  cases s <;> simp [signum, abs_of_nonneg hr]

/-- **Packing a rounded magnitude.** -/
theorem Magnitude.rounds (h : Magnitude s (roundPos r) u) (hr : 0 ≤ r)
    (hx : parts x = repacked u) : Rounds (signum s * r) x := by
  have hvalue := rounded_signum (s := s) hr
  have habs : |rounded (signum s * r)| = roundPos r := by
    rw [hvalue, abs_signum_mul (roundPos_nonneg hr)]
  generalize hrounded : roundPos r = magnitude at *
  cases h with
  | zero =>
      rw [repacked_zero] at hx
      refine ⟨fun _ => ⟨?_, ?_⟩, fun hlarge => ?_⟩
      · rw [isFinite_eq, hx]
        rfl
      · rw [toRat, hx, hvalue, mul_zero]
        rfl
      · rw [habs] at hlarge
        exact absurd hlarge (not_le.mpr (by positivity))
  | finite hm shape =>
      rename_i m e
      have hbound := magnitude_lt_iff shape
      rw [← habs] at hbound
      -- packing keeps an exponent that is small enough, and makes an infinity of any other
      refine ⟨fun hsmall => ?_, fun hlarge => ?_⟩
      · rw [repacked_finite shape (hbound.mp hsmall)] at hx
        refine ⟨?_, ?_⟩
        · rw [isFinite_eq, hx]
          rfl
        · rw [toRat, hx, hvalue]
          rfl
      · have he : 971 < e := by
          by_contra hnot
          exact absurd (hbound.mpr (not_lt.mp hnot)) (not_lt.mpr hlarge)
        have hpos : 0 < r := by
          refine hr.lt_of_ne fun hzero => ?_
          rw [← hzero, roundPos_zero] at hrounded
          have : (0 : ℚ) < m * 2 ^ e := by positivity
          exact absurd hrounded this.ne
        rw [hx, repacked_overflow he]
        cases s with
        | negative => rw [if_pos (by simpa [signum] using hpos)]
        | positive => rw [if_neg (by simpa [signum] using hr)]

/-- A finite double is zero, or has the format. -/
theorem finite_cases (hx : x.isFinite = true) :
    (∃ s, parts x = .zero s) ∨ ∃ s m e hm, parts x = .finite s m e hm ∧ Shape m e ∧ e ≤ 971 := by
  rw [isFinite_eq] at hx
  cases h : parts x with
  | notANumber | infinity => exact absurd (h ▸ hx) (by simp)
  | zero s => exact .inl ⟨s, rfl⟩
  | finite s m e hm =>
      obtain ⟨shape, he⟩ := shape_of_unpack h
      exact .inr ⟨s, m, e, hm, rfl, shape, he⟩

/-- And one that is not negative is zero, or has the format and no minus sign. -/
theorem nonneg_cases (hx : x.isFinite = true) (hnonneg : 0 ≤ toRat x) :
    (toRat x = 0 ∧ ∃ s, parts x = .zero s) ∨ ∃ m e hm, parts x = .finite .positive m e hm ∧
      Shape m e ∧ e ≤ 971 ∧ toRat x = m * 2 ^ e := by
  rcases finite_cases hx with ⟨s, h⟩ | ⟨s, m, e, hm, h, shape, he⟩
  · exact .inl ⟨toRat_of_zero h, s, h⟩
  · have hvalue := toRat_of_finite h
    cases s with
    | negative =>
        have hpos : (0 : ℚ) < m * 2 ^ e := by positivity
        rw [signum] at hvalue
        linarith
    | positive =>
        rw [signum, one_mul] at hvalue
        exact .inr ⟨m, e, hm, h, shape, he, hvalue⟩

/-- What has the format is its own rounding. -/
theorem roundPos_shape (h : Shape m e) : roundPos (m * 2 ^ e) = m * 2 ^ e :=
  roundPos_natCast_mul h.mantissa_lt h.exponent_ge

/-- **Doubles are their own rounding.** -/
theorem rounded_toRat (hx : x.isFinite = true) :
    rounded (toRat x) = toRat x ∧ |toRat x| < 2 ^ 1024 := by
  rcases finite_cases hx with ⟨s, h⟩ | ⟨s, m, e, hm, h, shape, he⟩
  · rw [toRat_of_zero h, abs_zero, rounded_of_nonneg (le_refl _), roundPos_zero]
    exact ⟨rfl, by positivity⟩
  · have hnonneg : (0 : ℚ) ≤ m * 2 ^ e := by positivity
    rw [toRat_of_finite h, rounded_signum hnonneg, roundPos_shape shape, abs_signum_mul hnonneg]
    exact ⟨rfl, (magnitude_lt_iff shape).mpr he⟩

theorem rounds_of_parts_eq (hx : x.isFinite = true) (h : parts z = parts x) (hq : q = toRat x) :
    Rounds q z := by
  obtain ⟨hrounded, hsmall⟩ := rounded_toRat hx
  refine ⟨fun _ => ⟨?_, ?_⟩, fun hlarge => ?_⟩
  · rwa [isFinite_eq, h, ← isFinite_eq]
  · rw [toRat, h, hq, hrounded]
    rfl
  · rw [hq, hrounded] at hlarge
    exact absurd hlarge (not_le.mpr hsmall)

/-- A zero is what rounding makes of zero. -/
theorem rounds_of_zero (h : parts z = .zero s) (hq : q = 0) : Rounds q z := by
  have hfinite : z.isFinite = true := by rw [isFinite_eq, h]; rfl
  exact rounds_of_parts_eq hfinite rfl (hq.trans (toRat_of_zero h).symm)

/-! ## Operations -/

/-- A signed mantissa, rounded. -/
theorem rounds_normalize {n : Int}
    (h : parts z = repacked (UnpackedFloat.normalize Format.binary64 n e .positive))
    (hq : q = n * 2 ^ e) : Rounds q z := by
  unfold UnpackedFloat.normalize at h
  rcases lt_trichotomy n 0 with hn | rfl | hn
  · obtain ⟨m, hm⟩ := Int.eq_ofNat_of_zero_le (Int.neg_nonneg_of_nonpos hn.le)
    have hvalue : q = signum .negative * (m * 2 ^ e) := by
      rw [hq, ← neg_neg n, hm]
      push_cast [signum]
      ring
    rw [Int.compare_eq_lt.mpr hn, hm, Int.toNat_natCast] at h
    exact hvalue ▸ (magnitude_round .negative (by omega) e).rounds (by positivity) h
  · exact rounds_of_zero (h.trans (repacked_zero _)) (by rw [hq, Int.cast_zero, zero_mul])
  · obtain ⟨m, rfl⟩ := Int.eq_ofNat_of_zero_le hn.le
    have hvalue : q = signum .positive * (m * 2 ^ e) := by rw [hq, signum, one_mul, Int.cast_natCast]
    rw [Int.compare_eq_gt.mpr hn, Int.toNat_natCast] at h
    exact hvalue ▸ (magnitude_round .positive (by omega) e).rounds (by positivity) h

/-- A mantissa at a smaller exponent. -/
theorem shiftLeft_cast (m : Nat) (h : e' ≤ e) :
    ((m <<< (e - e').toNat : ℕ) : ℚ) * 2 ^ e' = m * 2 ^ e := by
  have hexponent : e = e' + (e - e').toNat := by omega
  conv_rhs => rw [hexponent, zpow_add₀ (by norm_num), zpow_natCast]
  rw [Nat.shiftLeft_eq]
  push_cast
  ring

/-- **Sums.** -/
theorem rounds_add (hx : x.isFinite = true) (hy : y.isFinite = true) :
    Rounds (toRat x + toRat y) (x + y) := by
  rcases finite_cases hx with ⟨s, hpx⟩ | ⟨s, m, e, hm, hpx, shape, he⟩
  · rcases finite_cases hy with ⟨s', hpy⟩ | ⟨s', m', e', hm', hpy, shape', he'⟩
    · have hsum : ∃ s, parts (x + y) = .zero s := by
        rw [parts_add, hpx, hpy, add, apply_ite repacked, repacked_zero, repacked_zero]
        split <;> exact ⟨_, rfl⟩
      obtain ⟨_, hsum⟩ := hsum
      exact rounds_of_zero hsum (by rw [toRat_of_zero hpx, toRat_of_zero hpy, add_zero])
    · have hsum : parts (x + y) = parts y := by
        rw [parts_add, hpx, hpy]
        exact repacked_finite shape' he'
      exact rounds_of_parts_eq hy hsum (by rw [toRat_of_zero hpx, zero_add])
  · rcases finite_cases hy with ⟨s', hpy⟩ | ⟨s', m', e', hm', hpy, shape', he'⟩
    · have hsum : parts (x + y) = parts x := by
        rw [parts_add, hpx, hpy]
        exact repacked_finite shape he
      exact rounds_of_parts_eq hx hsum (by rw [toRat_of_zero hpy, add_zero])
    · have hsum := parts_add x y
      rw [hpx, hpy] at hsum
      refine rounds_normalize hsum ?_
      -- the mantissas are added exactly, at the smaller of the exponents
      rw [toRat_of_finite hpx, toRat_of_finite hpy, ← shiftLeft_cast m (min_le_left e e'),
        ← shiftLeft_cast m' (min_le_right e e'), Int.cast_add, apply_cast, apply_cast,
        Int.cast_natCast, Int.cast_natCast]
      ring

theorem toRat_neg (hx : x.isFinite = true) : toRat (-x) = -toRat x := by
  have hneg := parts_neg x
  rcases finite_cases hx with ⟨s, hpx⟩ | ⟨s, m, e, hm, hpx, -, -⟩
  · rw [hpx] at hneg
    rw [toRat_of_zero hpx, toRat_of_zero hneg, neg_zero]
  · rw [hpx] at hneg
    rw [toRat_of_finite hpx, toRat_of_finite hneg, signum_neg, neg_mul]

/-- **Differences.** -/
theorem rounds_sub (hx : x.isFinite = true) (hy : y.isFinite = true) :
    Rounds (toRat x - toRat y) (x - y) := by
  have hsum := rounds_add hx ((isFinite_neg y).trans hy)
  rw [toRat_neg hy, ← sub_eq_add_neg] at hsum
  refine ⟨fun hsmall => ?_, fun hlarge => ?_⟩
  · have hvalue : toRat (x - y) = toRat (x + -y) := congrArg value (parts_sub x y)
    rw [isFinite_eq, parts_sub, ← isFinite_eq, hvalue]
    exact hsum.finite hsmall
  · rw [parts_sub]
    exact hsum.overflow hlarge

/-- A mantissa with all its bits loses none, and neither does one at the lowest exponent. -/
theorem le_target_of_bits (h : 2 ^ 52 ≤ m ∨ e ≤ -1074) : e ≤ target m e := by
  unfold target
  rcases h with hbits | hlowest
  · have hpos : m ≠ 0 := (Nat.lt_of_lt_of_le (by decide) hbits).ne'
    have hlog : 52 ≤ m.log2 := (Nat.le_log2 hpos).mpr hbits
    omega
  · omega

/-- A product of mantissas has all its bits, unless its exponent is lower than the lowest. -/
theorem le_target_mul (h : Shape m e) (h' : Shape m' e') (hm : 0 < m) (hm' : 0 < m') :
    e + e' ≤ target (m * m') (e + e') := by
  by_cases hlowest : e = -1074 ∧ e' = -1074
  · unfold target
    omega
  · have hge := h.exponent_ge
    have hge' := h'.exponent_ge
    have hbits : 2 ^ 52 ≤ m * m' := by
      by_cases he : -1074 < e
      · exact le_trans (h.leading_bit he) (Nat.le_mul_of_pos_right m hm')
      · exact le_trans (h'.leading_bit (by omega)) (Nat.le_mul_of_pos_left m' hm)
    exact le_target_of_bits (.inl hbits)

/-- **Products.** -/
theorem rounds_mul (hx : x.isFinite = true) (hy : y.isFinite = true) :
    Rounds (toRat x * toRat y) (x * y) := by
  have hproduct := parts_mul x y
  rcases finite_cases hx with ⟨s, hpx⟩ | ⟨s, m, e, hm, hpx, shape, -⟩
  · rw [hpx] at hproduct
    rcases finite_cases hy with ⟨s', hpy⟩ | ⟨s', m', e', hm', hpy, -, -⟩
    all_goals
      rw [hpy] at hproduct
      exact rounds_of_zero (hproduct.trans (repacked_zero _)) (by rw [toRat_of_zero hpx, zero_mul])
  · rcases finite_cases hy with ⟨s', hpy⟩ | ⟨s', m', e', hm', hpy, shape', -⟩
    · rw [hpx, hpy] at hproduct
      exact rounds_of_zero (hproduct.trans (repacked_zero _)) (by rw [toRat_of_zero hpy, mul_zero])
    · rw [hpx, hpy] at hproduct
      -- the mantissas are multiplied exactly, and have no bits to spare
      have hpos : 0 < m * m' := Nat.mul_pos hm hm'
      have hrounded := magnitude_roundWithAccuracy (s := s * s') (represents_exact (m * m'))
        (by exact_mod_cast hpos) (.inl hpos) (le_target_mul shape shape' hm hm')
      have hvalue : toRat x * toRat y = signum (s * s') * ((m * m' : ℕ) * 2 ^ (e + e')) := by
        rw [toRat_of_finite hpx, toRat_of_finite hpy, signum_mul, zpow_add₀ (by norm_num)]
        push_cast
        ring
      exact hvalue ▸ hrounded.rounds (by positivity) hproduct

/-- The exponent at which mantissas are divided. -/
def divisionExponent (m : Nat) (e : Int) (m' : Nat) (e' : Int) : Int :=
  min (e - e') (max ((m.log2 : Int) + 1 + e - (m'.log2 + 1 + e') - 53) (-1074))

/-- A quotient of mantissas has all its bits, unless its exponent is the lowest or lower. -/
theorem division_bits (hm : 0 < m) (hm' : 0 < m') (e e' : Int) :
    2 ^ 52 ≤ (m <<< (e - e' - divisionExponent m e m' e').toNat) / m' ∨
      divisionExponent m e m' e' ≤ -1074 := by
  refine or_iff_not_imp_right.mpr fun hlowest => ?_
  have hshift : m'.log2 + 53 ≤ m.log2 + (e - e' - divisionExponent m e m' e').toNat := by
    unfold divisionExponent at hlowest ⊢
    omega
  generalize (e - e' - divisionExponent m e m' e').toNat = k at hshift ⊢
  rw [Nat.le_div_iff_mul_le hm', Nat.shiftLeft_eq]
  calc 2 ^ 52 * m' ≤ 2 ^ 52 * 2 ^ (m'.log2 + 1) := Nat.mul_le_mul_left _ Nat.lt_log2_self.le
    _ = 2 ^ (m'.log2 + 53) := by rw [← pow_add, Nat.add_comm]
    _ ≤ 2 ^ (m.log2 + k) := Nat.pow_le_pow_right Nat.two_pos hshift
    _ = 2 ^ m.log2 * 2 ^ k := pow_add ..
    _ ≤ m * 2 ^ k := Nat.mul_le_mul_right _ (Nat.log2_self_le hm.ne')

/-- A fraction is its whole part and what is left of the division. -/
theorem div_add_mod_cast (n : Nat) {k : Nat} (hk : 0 < k) :
    ((n / k : ℕ) : ℚ) + (n % k : ℕ) / k = n / k := by
  have hne : (k : ℚ) ≠ 0 := by exact_mod_cast hk.ne'
  rw [eq_div_iff hne, add_mul, div_mul_cancel₀ _ hne]
  exact_mod_cast Nat.div_add_mod' n k

/-- **Quotients.** -/
theorem rounds_div (hx : x.isFinite = true) (hy : y.isFinite = true) (hne : toRat y ≠ 0) :
    Rounds (toRat x / toRat y) (x / y) := by
  have hquotient := parts_div x y
  rcases finite_cases hy with ⟨s', hpy⟩ | ⟨s', m', e', hm', hpy, -, -⟩
  · exact absurd (toRat_of_zero hpy) hne
  · rcases finite_cases hx with ⟨s, hpx⟩ | ⟨s, m, e, hm, hpx, -, -⟩
    · rw [hpx, hpy] at hquotient
      exact rounds_of_zero (hquotient.trans (repacked_zero _)) (by rw [toRat_of_zero hpx, zero_div])
    · rw [hpx, hpy] at hquotient
      have hbits := division_bits hm hm' e e'
      have hlower : divisionExponent m e m' e' ≤ e - e' := min_le_left _ _
      have hcast := shiftLeft_cast m hlower
      generalize hexponent : divisionExponent m e m' e' = f at hbits hlower hcast
      generalize hshifted : m <<< (e - e' - f).toNat = n at hbits hcast
      have hquotient : parts (x / y) = repacked (roundWithAccuracy Format.binary64 (s / s') (n / m') f
          (accuracyOfFraction (n % m') m')) := by
        rw [hquotient, ← hshifted, ← hexponent]
        rfl
      -- the remainder is what the bits behind the mantissa are made of
      have hdiv := div_add_mod_cast n hm'
      have hpos : (0 : ℚ) < n / m' := by
        refine div_pos ?_ (by exact_mod_cast hm')
        rw [← hshifted, Nat.shiftLeft_eq]
        exact_mod_cast Nat.mul_pos hm (Nat.pow_pos Nat.two_pos)
      have hrounded := magnitude_roundWithAccuracy (s := s / s') (e := f)
        (represents_fraction (n / m') (Nat.mod_lt n hm')) (hdiv ▸ hpos)
        (hbits.imp_left fun h => Nat.lt_of_lt_of_le (by decide) h) (le_target_of_bits hbits)
      have hvalue : toRat x / toRat y = signum (s / s') * (n / m' * 2 ^ f) := by
        rw [toRat_of_finite hpx, toRat_of_finite hpy, signum_div, div_mul_eq_mul_div (n : ℚ), hcast,
          zpow_sub₀ (by norm_num)]
        field_simp
      rw [hdiv] at hrounded
      exact hvalue ▸ hrounded.rounds (by positivity) hquotient

/-! ## Whole numbers -/

/-- Whole numbers of up to 53 bits are their own rounding. -/
theorem rounded_natCast {n : Nat} (hn : n < 2 ^ 53) :
    rounded n = n ∧ |(n : ℚ)| < 2 ^ 1024 := by
  have hself := roundPos_natCast_mul (p := 0) hn (by decide)
  rw [zpow_zero, mul_one] at hself
  rw [rounded_of_nonneg (Nat.cast_nonneg n), hself, Nat.abs_cast]
  have hsmall : (n : ℚ) < 2 ^ 53 := by exact_mod_cast hn
  exact ⟨rfl, hsmall.trans_le (pow_le_pow_right₀ (by norm_num) (by norm_num))⟩

/-- What rounds to such a whole number. -/
theorem Rounds.natCast {n : Nat} (h : Rounds n z) (hn : n < 2 ^ 53) :
    z.isFinite = true ∧ toRat z = n := by
  obtain ⟨hrounded, hsmall⟩ := rounded_natCast hn
  have hfinite := h.finite (by rwa [hrounded])
  rwa [hrounded] at hfinite

/-- What rounds to nothing. -/
theorem Rounds.zero (h : Rounds 0 z) : z.isFinite = true ∧ toRat z = 0 := by
  have hnatCast := Rounds.natCast (n := 0) (z := z) (by rwa [Nat.cast_zero]) (by decide)
  rwa [Nat.cast_zero] at hnatCast

/-- **Whole numbers of up to 53 bits are doubles.** -/
theorem ofNat_exact {n : Nat} (hn : n < 2 ^ 53) :
    (Float.ofNat n).isFinite = true ∧ toRat (Float.ofNat n) = n := by
  have hproduct : Float.ofNat n = n.toUInt64.toFloat * Float.ofBits 0x3FF0000000000000 :=
    dif_pos ⟨hn, by decide⟩
  have hone : parts (Float.ofBits 0x3FF0000000000000) =
      .finite .positive (2 ^ 52) (-52) (by decide) := rfl
  have honeFinite : (Float.ofBits 0x3FF0000000000000).isFinite = true := by
    rw [isFinite_eq, hone]
    rfl
  have hword : n.toUInt64.toNat = n := Nat.mod_eq_of_lt (by omega)
  have hfactor : parts n.toUInt64.toFloat =
      repacked (UnpackedFloat.normalize Format.binary64 n.toUInt64.toNat 0 .positive) := rfl
  rw [hword] at hfactor
  obtain ⟨hfinite, hvalue⟩ := Rounds.natCast (rounds_normalize hfactor (q := n) (by simp)) hn
  rw [hproduct]
  refine Rounds.natCast ?_ hn
  have hrounds := rounds_mul hfinite honeFinite
  rw [hvalue, toRat_of_finite hone] at hrounds
  have hunit : (n : ℚ) * (signum .positive * ((2 ^ 52 : ℕ) * 2 ^ (-52 : ℤ))) = n := by
    norm_num [signum]
  rwa [hunit] at hrounds

/-! ## Order -/

/-- A smaller exponent is a smaller magnitude. -/
theorem magnitude_lt_of_exponent_lt (h : Shape m e) (h' : Shape m' e') (he : e < e') :
    (m * 2 ^ e : ℚ) < m' * 2 ^ e' := by
  have hmantissa : (m : ℚ) < 2 ^ 53 := by exact_mod_cast h.mantissa_lt
  have hge := h.exponent_ge
  have hbit : (2 : ℚ) ^ 52 ≤ m' := by exact_mod_cast h'.leading_bit (by omega)
  calc (m * 2 ^ e : ℚ) < 2 ^ 53 * 2 ^ e := mul_lt_mul_of_pos_right hmantissa (by positivity)
    _ = 2 ^ 52 * (2 * 2 ^ e) := by ring
    _ ≤ m' * 2 ^ e' := mul_le_mul hbit (two_mul_zpow_le he) (by positivity) (by positivity)

/-- Exponents decide before mantissas. -/
theorem compare_magnitude (h : Shape m e) (h' : Shape m' e') :
    (compare e e').then (compare m m') = compare (m * 2 ^ e : ℚ) (m' * 2 ^ e') := by
  rcases lt_trichotomy e e' with hlt | rfl | hgt
  · rw [Int.compare_eq_lt.mpr hlt, compare_lt_iff_lt.mpr (magnitude_lt_of_exponent_lt h h' hlt)]
    rfl
  · have hunit : (0 : ℚ) < 2 ^ e := by positivity
    rw [Int.compare_eq_eq.mpr rfl]
    rcases lt_trichotomy m m' with hlt | rfl | hgt
    · have hvalue : (m * 2 ^ e : ℚ) < m' * 2 ^ e :=
        mul_lt_mul_of_pos_right (by exact_mod_cast hlt) hunit
      rw [compare_lt_iff_lt.mpr hlt, compare_lt_iff_lt.mpr hvalue]
      rfl
    · rw [compare_eq_iff_eq.mpr rfl, compare_eq_iff_eq.mpr rfl]
      rfl
    · have hvalue : (m' * 2 ^ e : ℚ) < m * 2 ^ e :=
        mul_lt_mul_of_pos_right (by exact_mod_cast hgt) hunit
      rw [compare_gt_iff_gt.mpr hgt, compare_gt_iff_gt.mpr hvalue]
      rfl
  · rw [Int.compare_eq_gt.mpr hgt, compare_gt_iff_gt.mpr (magnitude_lt_of_exponent_lt h' h hgt)]
    rfl

theorem compare_neg_neg (q r : ℚ) : compare (-q) (-r) = (compare q r).swap := by
  rcases lt_trichotomy q r with h | rfl | h
  · rw [compare_lt_iff_lt.mpr h, compare_gt_iff_gt.mpr (neg_lt_neg h)]
    rfl
  · rw [compare_eq_iff_eq.mpr rfl, compare_eq_iff_eq.mpr rfl]
    rfl
  · rw [compare_gt_iff_gt.mpr h, compare_lt_iff_lt.mpr (neg_lt_neg h)]
    rfl

/-- **Finite doubles compare as their values do.** -/
theorem compare_eq (hx : x.isFinite = true) (hy : y.isFinite = true) :
    (parts x).compare (parts y) = some (compare (toRat x) (toRat y)) := by
  rcases finite_cases hx with ⟨s, hpx⟩ | ⟨s, m, e, hm, hpx, shape, -⟩
  · rcases finite_cases hy with ⟨s', hpy⟩ | ⟨s', m', e', hm', hpy, -, -⟩
    · rw [hpx, hpy, toRat_of_zero hpx, toRat_of_zero hpy]
      rfl
    · have hpos : (0 : ℚ) < m' * 2 ^ e' := by positivity
      rw [hpx, hpy, toRat_of_zero hpx, toRat_of_finite hpy]
      cases s' with
      | negative => rw [compare_gt_iff_gt.mpr (by rw [signum]; linarith)]; rfl
      | positive => rw [compare_lt_iff_lt.mpr (by rw [signum]; linarith)]; rfl
  · have hpos : (0 : ℚ) < m * 2 ^ e := by positivity
    rcases finite_cases hy with ⟨s', hpy⟩ | ⟨s', m', e', hm', hpy, shape', -⟩
    · rw [hpx, hpy, toRat_of_finite hpx, toRat_of_zero hpy]
      cases s with
      | negative => rw [compare_lt_iff_lt.mpr (by rw [signum]; linarith)]; rfl
      | positive => rw [compare_gt_iff_gt.mpr (by rw [signum]; linarith)]; rfl
    · have hpos' : (0 : ℚ) < m' * 2 ^ e' := by positivity
      have hmagnitudes := compare_magnitude shape shape'
      rw [hpx, hpy, toRat_of_finite hpx, toRat_of_finite hpy]
      -- magnitudes count only between equal signs, and the other way round below zero
      cases s with
      | negative =>
          cases s' with
          | negative =>
              rw [signum, neg_one_mul, neg_one_mul, compare_neg_neg, ← hmagnitudes]
              rfl
          | positive => rw [compare_lt_iff_lt.mpr (by rw [signum, signum]; linarith)]; rfl
      | positive =>
          cases s' with
          | negative => rw [compare_gt_iff_gt.mpr (by rw [signum, signum]; linarith)]; rfl
          | positive =>
              rw [signum, one_mul, one_mul, ← hmagnitudes]
              rfl

/-- Finite doubles are in order as their values are. -/
theorem le_iff (hx : x.isFinite = true) (hy : y.isFinite = true) : x ≤ y ↔ toRat x ≤ toRat y := by
  show decide ((parts x).le (parts y) = true) = true ↔ _
  rw [decide_eq_true_iff, UnpackedFloat.le, compare_eq hx hy, Option.any_some]
  rcases lt_trichotomy (toRat x) (toRat y) with h | h | h
  · rw [compare_lt_iff_lt.mpr h]
    exact iff_of_true rfl h.le
  · rw [compare_eq_iff_eq.mpr h]
    exact iff_of_true rfl h.le
  · rw [compare_gt_iff_gt.mpr h]
    exact iff_of_false Bool.false_ne_true (not_le.mpr h)

/-- And so is a strict order. -/
theorem lt_iff (hx : x.isFinite = true) (hy : y.isFinite = true) : x < y ↔ toRat x < toRat y := by
  show decide ((parts x).lt (parts y) = true) = true ↔ _
  rw [decide_eq_true_iff]
  show ((parts x).compare (parts y) == some .lt) = true ↔ _
  rw [compare_eq hx hy, beq_iff_eq, Option.some.injEq, compare_lt_iff_lt]

/-- Finite doubles are equal as numbers if their values are. -/
theorem beq_iff (hx : x.isFinite = true) (hy : y.isFinite = true) :
    (x == y) = true ↔ toRat x = toRat y := by
  show ((parts x).compare (parts y) == some .eq) = true ↔ _
  rw [compare_eq hx hy, beq_iff_eq, Option.some.injEq, compare_eq_iff_eq]

/-- What equals a finite double is finite. -/
theorem isFinite_of_beq (hy : y.isFinite = true) (hxy : (x == y) = true) : x.isFinite = true := by
  have hcompare : ((parts x).compare (parts y) == some .eq) = true := hxy
  rw [isFinite_eq] at hy ⊢
  cases hx : parts x with
  | zero | finite => rfl
  | notANumber =>
      rw [hx] at hcompare
      exact absurd hcompare Bool.false_ne_true
  | infinity s =>
      rw [hx] at hcompare
      cases hb : parts y with
      | notANumber | infinity => exact absurd (hb ▸ hy) (by simp)
      | zero | finite =>
          rw [hb] at hcompare
          cases s <;> exact absurd hcompare Bool.false_ne_true

/-! ## Monotony -/

/-- A finite result is the rounded number. -/
theorem Rounds.value_eq (h : Rounds q z) (hz : z.isFinite = true) : toRat z = rounded q := by
  rcases lt_or_ge |rounded q| (2 ^ 1024) with hsmall | hlarge
  · exact (h.finite hsmall).2
  · rw [isFinite_eq, h.overflow hlarge] at hz
    exact absurd hz (by simp)

/-- What is not negative does not become negative. -/
theorem Rounds.nonneg (h : Rounds q z) (hq : 0 ≤ q) (hz : z.isFinite = true) : 0 ≤ toRat z := by
  rw [h.value_eq hz, rounded_of_nonneg hq]
  exact roundPos_nonneg hq

/-- What is not positive does not become positive. -/
theorem rounded_nonpos (hq : q ≤ 0) : rounded q ≤ 0 := by
  have hle := rounded_mono hq
  rwa [rounded_of_nonneg (le_refl _), roundPos_zero] at hle

/-- **The rounding error** of a finite result that has 53 bits. -/
theorem Rounds.error (h : Rounds q z) (hz : z.isFinite = true)
    (hnormal : 2 ^ (-1022 : ℤ) ≤ toRat z) : toRat z * (1 - 2 ^ (-53 : ℤ)) ≤ q := by
  have hlowest : (0 : ℚ) < 2 ^ (-1022 : ℤ) := by positivity
  rw [h.value_eq hz] at hnormal ⊢
  have hq : 0 < q := by
    by_contra hq
    exact absurd (rounded_nonpos (not_lt.mp hq)) (not_le.mpr (lt_of_lt_of_le hlowest hnormal))
  rw [rounded_of_nonneg hq.le] at hnormal ⊢
  exact roundPos_error hq hnormal

/-- **No double is nearer** to a number that is not negative than what it is rounded to. -/
theorem Rounds.nearest (h : Rounds q z) (hq : 0 ≤ q) (hz : z.isFinite = true)
    (hx : x.isFinite = true) : |toRat z - q| ≤ |toRat x - q| := by
  rw [h.value_eq hz, rounded_of_nonneg hq]
  rcases hq.eq_or_lt with rfl | hpos
  · rw [roundPos_zero, sub_zero, abs_zero]
    exact abs_nonneg _
  · rcases le_or_gt 0 (toRat x) with hnonneg | hneg
    · rcases nonneg_cases hx hnonneg with ⟨hzero, -⟩ | ⟨m, e, hm, -, shape, -, hvalue⟩
      · have hnearest := roundPos_nearest (n := 0) (p := -1074) hpos (by decide) (le_refl _)
        rwa [Nat.cast_zero, zero_mul, ← hzero] at hnearest
      · rw [hvalue]
        exact roundPos_nearest hpos shape.mantissa_lt shape.exponent_ge
    · -- nothing below zero is nearer than zero
      have hzero := roundPos_nearest (n := 0) (p := -1074) hpos (by decide) (le_refl _)
      calc |roundPos q - q| ≤ |0 - q| := by rwa [Nat.cast_zero, zero_mul] at hzero
        _ = q - 0 := by rw [abs_sub_comm, abs_of_nonneg (by linarith)]
        _ ≤ q - toRat x := by linarith
        _ = |toRat x - q| := by rw [abs_sub_comm, abs_of_nonneg (by linarith)]

/-- **Operations keep the order of exact results.** -/
theorem Rounds.mono (h : Rounds q x) (h' : Rounds r y) (hqr : q ≤ r) (hx : x.isFinite = true)
    (hy : y.isFinite = true) : toRat x ≤ toRat y := by
  rw [h.value_eq hx, h'.value_eq hy]
  exact rounded_mono hqr

/-- What is between two numbers with finite results has a finite result. -/
theorem Rounds.finite_between {p : ℚ} (h : Rounds q z) (hlow : Rounds p x) (hhigh : Rounds r y)
    (hx : x.isFinite = true) (hy : y.isFinite = true) (hpq : p ≤ q) (hqr : q ≤ r) :
    z.isFinite = true := by
  refine (h.finite (abs_lt.mpr ⟨?_, ?_⟩)).1
  · calc -2 ^ 1024 < toRat x := (abs_lt.mp (rounded_toRat hx).2).1
      _ = rounded p := hlow.value_eq hx
      _ ≤ rounded q := rounded_mono hpq
  · calc rounded q ≤ rounded r := rounded_mono hqr
      _ = toRat y := (hhigh.value_eq hy).symm
      _ < 2 ^ 1024 := (abs_lt.mp (rounded_toRat hy).2).2

/-- What is not below a number with a finite result has a finite result, or is positive infinity. -/
theorem Rounds.finite_or_infinity {p : ℚ} (h : Rounds q z) (hlow : Rounds p x)
    (hx : x.isFinite = true) (hpq : p ≤ q) :
    z.isFinite = true ∨ parts z = .infinity .positive := by
  rcases lt_or_ge |rounded q| (2 ^ 1024) with hsmall | hlarge
  · exact .inl (h.finite hsmall).1
  · refine .inr ?_
    have hbelow : -2 ^ 1024 < rounded q :=
      calc -2 ^ 1024 < toRat x := (abs_lt.mp (rounded_toRat hx).2).1
        _ = rounded p := hlow.value_eq hx
        _ ≤ rounded q := rounded_mono hpq
    rw [h.overflow hlarge, if_neg]
    intro hq
    rw [abs_of_nonpos (rounded_nonpos hq.le)] at hlarge
    exact absurd (neg_lt.mp hbelow) (not_lt.mpr hlarge)

/-- A double is what rounding makes of its own value. -/
theorem rounds_self (hx : x.isFinite = true) : Rounds (toRat x) x := rounds_of_parts_eq hx rfl rfl

/-- Positive infinity stays what it is when a finite double is added. -/
theorem parts_add_infinity (hx : x.isFinite = true) (hy : parts y = .infinity .positive) :
    parts (x + y) = .infinity .positive := by
  rw [parts_add, hy]
  rcases finite_cases hx with ⟨s, hpx⟩ | ⟨s, m, e, hm, hpx, -, -⟩ <;>
    · rw [hpx]
      exact repacked_infinity .positive

/-- No finite double is at least positive infinity. -/
theorem not_le_of_infinity (hx : parts x = .infinity .positive) (hy : y.isFinite = true) :
    ¬x ≤ y := by
  intro h
  have hle : decide ((parts x).le (parts y) = true) = true := h
  rw [decide_eq_true_iff, hx] at hle
  rcases finite_cases hy with ⟨s, hpy⟩ | ⟨s, m, e, hm, hpy, -, -⟩ <;>
    · rw [hpy] at hle
      exact Bool.false_ne_true hle

end Reckoner.Double
