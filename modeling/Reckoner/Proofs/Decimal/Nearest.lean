import Reckoner.Decimal.Nearest
import Reckoner.Proofs.Decimal.Shortest

/-!
# `Reckoner.Proofs.Decimal.Nearest` — a number in the rounding interval reads back

Rounding a fraction first finds the place of the last digit and then rounds to a whole number of
those. Every number in the rounding interval of a double rounds to that double.

## Contents
- **Doubles.** `Binary.Canonical`, and the interval in units of the last place.
- **The last place.** `lt_lastPlace` and `lastPlace_le`.
- **Rounding.** `roundDiv_eq` and `nearestBits_eq`.
- **Decimals.** `toFloat_eq`: guards against huge powers of ten make no difference.
-/

namespace Reckoner

/-! ## Doubles -/

/-- A positive double in its only form: the mantissa has its leading bit unless the exponent is the
    lowest. -/
structure Binary.Canonical (b : Binary) : Prop where
  mantissa_pos : 0 < b.mantissa
  mantissa_lt : b.mantissa < 2 * Binary.implicitBit
  exponent_ge : Binary.minExponent ≤ b.exponent
  exponent_le : b.exponent ≤ 971
  leading_bit : Binary.minExponent < b.exponent → Binary.implicitBit ≤ b.mantissa

/-- The bits of a positive double. -/
def Binary.magnitudeBits (b : Binary) : Nat :=
  (b.exponent - Binary.minExponent).toNat * Binary.implicitBit + b.mantissa

namespace Binary.Canonical

variable {b : Binary}

theorem mantissa_add_one_le (hb : b.Canonical) : (b.mantissa : ℚ) + 1 ≤ 2 ^ 53 := by
  have := hb.mantissa_lt
  unfold implicitBit at this
  exact_mod_cast this

theorem le_mantissa (hb : b.Canonical) (hmin : minExponent < b.exponent) :
    (2 : ℚ) ^ 52 ≤ b.mantissa := by
  have := hb.leading_bit hmin
  unfold implicitBit at this
  exact_mod_cast this

/-- A double has fewer bits than infinity. -/
theorem magnitudeBits_le (hb : b.Canonical) : b.magnitudeBits ≤ Decimal.infinityBits := by
  have hexponent := hb.exponent_le
  have hlowest := hb.exponent_ge
  have hmantissa := hb.mantissa_lt
  unfold magnitudeBits Decimal.infinityBits reservedExponent
  unfold minExponent at hlowest ⊢
  unfold implicitBit at hmantissa ⊢
  omega

end Binary.Canonical

namespace Decimal

/-- The distance to the double below, in units of the last place. -/
def reachBelow (b : Binary) : ℚ := if b.atPowerOfTwo then 1 / 4 else 1 / 2

/-- The rounding interval in quarters of the last place, as it is computed. -/
theorem quarters_of_contains {b : Binary} {x : ℚ} (h : (Interval.ofBinary b).Contains x) :
    if b.mantissa % 2 == 0 then
      (4 * b.mantissa - 4 * reachBelow b) * 2 ^ (b.exponent - 2) ≤ x ∧
        x ≤ (4 * b.mantissa + 2) * 2 ^ (b.exponent - 2)
    else (4 * b.mantissa - 4 * reachBelow b) * 2 ^ (b.exponent - 2) < x ∧
      x < (4 * b.mantissa + 2) * 2 ^ (b.exponent - 2) := by
  have hreach : ((if b.atPowerOfTwo then 1 else 2 : Nat) : ℚ) = 4 * reachBelow b := by
    unfold reachBelow
    split <;> norm_num
  unfold Interval.ofBinary Interval.Contains at h
  dsimp only at h
  by_cases hq : 0 ≤ b.exponent - 2
  · rw [if_pos hq] at h
    rw [Interval.toNat_zpow hq]
    push_cast [hreach, Nat.pow_eq] at h
    simpa only [sub_mul, add_mul, mul_one] using h
  · rw [if_neg hq] at h
    rw [Interval.toNat_zpow_neg hq]
    have hpos : (0 : ℚ) < 2 ^ (-(b.exponent - 2)).toNat := by positivity
    push_cast [hreach, Nat.pow_eq] at h
    generalize (2 : ℚ) ^ (-(b.exponent - 2)).toNat = unit at h hpos
    rw [← div_eq_mul_inv, ← div_eq_mul_inv, div_le_iff₀ hpos, le_div_iff₀ hpos,
      div_lt_iff₀ hpos, lt_div_iff₀ hpos]
    exact h

/-- The rounding interval in units of the last place. -/
theorem near_of_contains {b : Binary} {x : ℚ} (h : (Interval.ofBinary b).Contains x) :
    (b.mantissa - reachBelow b) * 2 ^ b.exponent ≤ x ∧
      x ≤ (b.mantissa + 1 / 2) * 2 ^ b.exponent ∧
      (b.mantissa % 2 = 1 → (b.mantissa - reachBelow b) * 2 ^ b.exponent < x ∧
        x < (b.mantissa + 1 / 2) * 2 ^ b.exponent) := by
  have hexponent : (2 : ℚ) ^ b.exponent = 4 * 2 ^ (b.exponent - 2) := by
    rw [zpow_sub₀ (by norm_num)]
    norm_num
    ring
  have hquarters := quarters_of_contains h
  rw [hexponent]
  generalize (2 : ℚ) ^ (b.exponent - 2) = unit at hquarters
  -- the ends of the interval belong to it if the mantissa is even
  split at hquarters
  · rename_i heven
    refine ⟨by linarith [hquarters.1], by linarith [hquarters.2], fun hodd => ?_⟩
    rw [beq_iff_eq, hodd] at heven
    exact absurd heven (by decide)
  · refine ⟨by linarith [hquarters.1], by linarith [hquarters.2], fun _ => ⟨?_, ?_⟩⟩
    · linarith [hquarters.1]
    · linarith [hquarters.2]

/-! ## The last place -/

section LastPlace

variable {num den : Nat}

/-- A whole number of units is below the fraction when it is at most the quotient. -/
theorem le_quotient_iff (hden : 0 < den) (n : Nat) (q : Int) :
    n ≤ (if 0 ≤ q then num / (den * Nat.pow 2 q.toNat) else num * Nat.pow 2 (-q).toNat / den) ↔
      (n : ℚ) * 2 ^ q ≤ num / den := by
  have hpos : (0 : ℚ) < den := Nat.cast_pos.mpr hden
  by_cases hq : 0 ≤ q
  · have hunit : 0 < Nat.pow 2 q.toNat := Nat.pow_pos (by decide)
    rw [if_pos hq, Interval.toNat_zpow hq, Nat.le_div_iff_mul_le (Nat.mul_pos hden hunit),
      le_div_iff₀ hpos, ← Nat.cast_le (α := ℚ)]
    push_cast [Nat.pow_eq]
    rw [mul_comm (den : ℚ), mul_assoc]
  · rw [if_neg hq, Interval.toNat_zpow_neg hq, Nat.le_div_iff_mul_le hden, le_div_iff₀ hpos,
      ← Nat.cast_le (α := ℚ), ← div_eq_mul_inv, div_mul_eq_mul_div, div_le_iff₀ (by positivity)]
    push_cast [Nat.pow_eq]
    rfl

/-- The logarithms of a fraction's parts bound it from both sides. -/
theorem log2_bounds (hnum : 0 < num) (hden : 0 < den) :
    (2 : ℚ) ^ ((num.log2 : Int) - den.log2 - 1) ≤ num / den ∧
      (num / den : ℚ) < 2 ^ ((num.log2 : Int) - den.log2 + 1) := by
  have hpos : (0 : ℚ) < den := Nat.cast_pos.mpr hden
  have hnumLow : (2 : ℚ) ^ num.log2 ≤ num := by
    exact_mod_cast Nat.log2_self_le hnum.ne'
  have hnumHigh : (num : ℚ) < 2 ^ (num.log2 + 1) := by
    exact_mod_cast Nat.lt_log2_self
  have hdenLow : (2 : ℚ) ^ den.log2 ≤ den := by
    exact_mod_cast Nat.log2_self_le hden.ne'
  have hdenHigh : (den : ℚ) < 2 ^ (den.log2 + 1) := by
    exact_mod_cast Nat.lt_log2_self
  constructor
  · have hexponent : (num.log2 : Int) - den.log2 - 1 = (num.log2 : Int) - (den.log2 + 1 : Nat) := by
      omega
    rw [hexponent, zpow_sub₀ (by norm_num), zpow_natCast, zpow_natCast,
      div_le_div_iff₀ (by positivity) hpos]
    exact mul_le_mul hnumLow hdenHigh.le hpos.le (Nat.cast_nonneg _)
  · have hexponent : (num.log2 : Int) - den.log2 + 1 = (num.log2 + 1 : Nat) - (den.log2 : Int) := by
      omega
    rw [hexponent, zpow_sub₀ (by norm_num), zpow_natCast, zpow_natCast,
      div_lt_div_iff₀ hpos (by positivity)]
    exact mul_lt_mul hnumHigh hdenLow (by positivity) (by positivity)

/-- One unit more is twice the unit. -/
theorem zpow_succ_two (q : Int) : (2 : ℚ) ^ (q + 1) = 2 * 2 ^ q := by
  rw [zpow_add_one₀ (by norm_num), mul_comm]

/-- The last place is fine enough: no more than 53 bits stand in front of it. -/
theorem lt_lastPlace (hnum : 0 < num) (hden : 0 < den) :
    (num / den : ℚ) < 2 ^ 53 * 2 ^ lastPlace num den := by
  unfold lastPlace
  simp only [le_quotient_iff hden]
  generalize hguess : (num.log2 : Int) - den.log2 - Binary.precision = guess
  have hceiling : (num / den : ℚ) < 2 ^ 54 * 2 ^ max guess Binary.minExponent := by
    refine lt_of_lt_of_le (log2_bounds hnum hden).2 ?_
    rw [← zpow_natCast, ← zpow_add₀ (by norm_num)]
    refine zpow_le_zpow_right₀ (by norm_num) ?_
    unfold Binary.precision at hguess
    push_cast at hguess ⊢
    omega
  split
  · rw [zpow_succ_two]
    linarith
  · rename_i hquotient
    rw [not_le] at hquotient
    unfold Binary.implicitBit at hquotient
    push_cast at hquotient
    linarith

/-- And no finer than needed: unless it is the lowest there is, 53 bits stand in front of it. -/
theorem lastPlace_le (hnum : 0 < num) (hden : 0 < den) :
    Binary.minExponent ≤ lastPlace num den ∧
      (Binary.minExponent < lastPlace num den →
        (2 : ℚ) ^ 52 * 2 ^ lastPlace num den ≤ num / den) := by
  unfold lastPlace
  simp only [le_quotient_iff hden]
  generalize hguess : (num.log2 : Int) - den.log2 - Binary.precision = guess
  split
  · rename_i hquotient
    refine ⟨by omega, fun _ => ?_⟩
    unfold Binary.implicitBit at hquotient
    push_cast at hquotient
    rw [zpow_succ_two]
    linarith
  · refine ⟨by omega, fun habove => ?_⟩
    refine le_trans ?_ (log2_bounds hnum hden).1
    rw [← zpow_natCast, ← zpow_add₀ (by norm_num)]
    refine zpow_le_zpow_right₀ (by norm_num) ?_
    unfold Binary.precision at hguess
    push_cast at hguess ⊢
    omega

end LastPlace

/-! ## Rounding -/

theorem roundDiv_below {num den : Nat} (hhalf : 2 * (num % den) ≤ den)
    (htie : 2 * (num % den) = den → num / den % 2 = 0) : roundDiv num den = num / den := by
  unfold roundDiv
  dsimp only
  split
  · rfl
  · rename_i hless
    rw [if_neg (Nat.not_lt.mpr hhalf), if_pos (beq_iff_eq.mpr (htie (by omega)))]

theorem roundDiv_above {num den : Nat} (hhalf : den ≤ 2 * (num % den))
    (htie : 2 * (num % den) = den → num / den % 2 = 1) : roundDiv num den = num / den + 1 := by
  unfold roundDiv
  dsimp only
  rw [if_neg (Nat.not_lt.mpr hhalf)]
  split
  · rfl
  · rename_i hmore
    have hodd := htie (by omega)
    rw [if_neg (by simp [hodd])]

/-- A fraction rounds to a whole number that is no more than a half away, and less if it is odd. -/
theorem roundDiv_eq {num den n : Nat} (hden : 0 < den) (hlow : 2 * (n * den) ≤ 2 * num + den)
    (hhigh : 2 * num ≤ 2 * (n * den) + den)
    (hodd : n % 2 = 1 → 2 * (n * den) < 2 * num + den ∧ 2 * num < 2 * (n * den) + den) :
    roundDiv num den = n := by
  have hdiv : num / den * den + num % den = num := Nat.div_add_mod' num den
  have hrest : num % den < den := Nat.mod_lt _ hden
  -- the number is one of the two neighbours
  have hupper : n ≤ num / den + 1 := by
    refine Nat.lt_succ_iff.mp (Nat.lt_of_mul_lt_mul_right (a := den) ?_)
    rw [Nat.succ_mul, Nat.succ_mul]
    omega
  have hlower : num / den ≤ n := by
    refine Nat.lt_succ_iff.mp (Nat.lt_of_mul_lt_mul_right (a := den) ?_)
    rw [Nat.succ_mul]
    omega
  obtain hn | hn : n = num / den ∨ n = num / den + 1 := by omega
  · rw [hn] at hlow hhigh hodd ⊢
    refine roundDiv_below (by omega) fun htie => ?_
    by_contra hparity
    have hless := hodd (by omega)
    omega
  · rw [hn] at hlow hhigh hodd ⊢
    rw [Nat.add_mul] at hlow hhigh hodd
    refine roundDiv_above (by omega) fun htie => ?_
    by_contra hparity
    have hless := hodd (by omega)
    omega

/-- The same in terms of the quotient. -/
theorem roundDiv_of_near {num den n : Nat} (hden : 0 < den) (hlow : (n - 1 / 2 : ℚ) ≤ num / den)
    (hhigh : (num / den : ℚ) ≤ n + 1 / 2)
    (hodd : n % 2 = 1 → (n - 1 / 2 : ℚ) < num / den ∧ (num / den : ℚ) < n + 1 / 2) :
    roundDiv num den = n := by
  have hpos : (0 : ℚ) < den := Nat.cast_pos.mpr hden
  rw [le_div_iff₀ hpos] at hlow
  rw [div_le_iff₀ hpos] at hhigh
  rw [lt_div_iff₀ hpos, div_lt_iff₀ hpos] at hodd
  refine roundDiv_eq hden ?_ ?_ fun h => ⟨?_, ?_⟩
  · rw [← Nat.cast_le (α := ℚ)]
    push_cast
    linarith
  · rw [← Nat.cast_le (α := ℚ)]
    push_cast
    linarith
  · rw [← Nat.cast_lt (α := ℚ)]
    push_cast
    linarith [(hodd h).1]
  · rw [← Nat.cast_lt (α := ℚ)]
    push_cast
    linarith [(hodd h).2]

/-- A fraction in units of a power of two is a fraction. -/
theorem div_zpow_of_nonneg (num den : Nat) {q : Int} (hq : 0 ≤ q) :
    (num / den : ℚ) / 2 ^ q = num / (den * Nat.pow 2 q.toNat : Nat) := by
  rw [Interval.toNat_zpow hq, div_div]
  push_cast [Nat.pow_eq]
  rfl

theorem div_zpow_of_neg (num den : Nat) {q : Int} (hq : ¬0 ≤ q) :
    (num / den : ℚ) / 2 ^ q = (num * Nat.pow 2 (-q).toNat : Nat) / den := by
  rw [Interval.toNat_zpow_neg hq, div_inv_eq_mul, div_mul_eq_mul_div]
  push_cast [Nat.pow_eq]
  rfl

/-- A fraction in units of a power of two, rounded. -/
theorem roundDiv_scaled (num n : Nat) {den : Nat} (hden : 0 < den) (q : Int)
    (hlow : (n - 1 / 2 : ℚ) * 2 ^ q ≤ num / den) (hhigh : (num / den : ℚ) ≤ (n + 1 / 2) * 2 ^ q)
    (hodd : n % 2 = 1 → (n - 1 / 2 : ℚ) * 2 ^ q < num / den ∧
      (num / den : ℚ) < (n + 1 / 2) * 2 ^ q) :
    (if 0 ≤ q then roundDiv num (den * Nat.pow 2 q.toNat)
      else roundDiv (num * Nat.pow 2 (-q).toNat) den) = n := by
  have hunit : (0 : ℚ) < 2 ^ q := by positivity
  rw [← le_div_iff₀ hunit] at hlow
  rw [← div_le_iff₀ hunit] at hhigh
  rw [← lt_div_iff₀ hunit, ← div_lt_iff₀ hunit] at hodd
  by_cases hq : 0 ≤ q
  · rw [div_zpow_of_nonneg num den hq] at hlow hhigh hodd
    rw [if_pos hq]
    exact roundDiv_of_near (Nat.mul_pos hden (Nat.pow_pos (by decide))) hlow hhigh hodd
  · rw [div_zpow_of_neg num den hq] at hlow hhigh hodd
    rw [if_neg hq]
    exact roundDiv_of_near hden hlow hhigh hodd

section Rounding

variable {b : Binary} {num den : Nat}

/-- The reach below is a quarter at a power of two and a half elsewhere. -/
theorem reachBelow_le (b : Binary) : reachBelow b ≤ 1 / 2 := by
  unfold reachBelow
  split <;> norm_num

/-- A place above the double's own asks for a leading bit that the double cannot have. -/
theorem lastPlace_le_exponent (hb : b.Canonical) (hnum : 0 < num) (hden : 0 < den)
    (h : (Interval.ofBinary b).Contains (num / den)) : lastPlace num den ≤ b.exponent := by
  by_contra hgt
  rw [not_le] at hgt
  obtain ⟨-, hhigh, -⟩ := near_of_contains h
  have hreached := (lastPlace_le hnum hden).2 (lt_of_le_of_lt hb.exponent_ge hgt)
  have hunit : (0 : ℚ) < 2 ^ b.exponent := by positivity
  have hdouble : (2 : ℚ) ^ (b.exponent + 1) ≤ 2 ^ lastPlace num den :=
    zpow_le_zpow_right₀ (by norm_num) hgt
  rw [zpow_succ_two] at hdouble
  have hcancel : (2 : ℚ) ^ 53 ≤ b.mantissa + 1 / 2 := by
    refine le_of_mul_le_mul_right ?_ hunit
    linarith
  linarith [hb.mantissa_add_one_le]

/-- A place below leaves room for no more than half the leading bit: the double is a power of two,
    and the place is the next one. -/
theorem of_lastPlace_lt (hb : b.Canonical) (hnum : 0 < num) (hden : 0 < den)
    (h : (Interval.ofBinary b).Contains (num / den)) (hlt : lastPlace num den < b.exponent) :
    lastPlace num den = b.exponent - 1 ∧ Binary.minExponent < b.exponent ∧
      b.mantissa = Binary.implicitBit := by
  obtain ⟨hlow, -, -⟩ := near_of_contains h
  have hmin : Binary.minExponent < b.exponent := lt_of_le_of_lt (lastPlace_le hnum hden).1 hlt
  have hbit := hb.le_mantissa hmin
  have hreach := reachBelow_le b
  have hceiling : ∀ {k : Int}, lastPlace num den ≤ k →
      (b.mantissa - reachBelow b) * 2 ^ b.exponent < 2 ^ 53 * 2 ^ k := fun hk =>
    lt_of_le_of_lt hlow (lt_of_lt_of_le (lt_lastPlace hnum hden)
      (mul_le_mul_of_nonneg_left (zpow_le_zpow_right₀ (by norm_num) hk) (by norm_num)))
  have hequal : b.mantissa = Binary.implicitBit := by
    have hplace := hceiling (k := b.exponent - 1) (by omega)
    rw [← sub_add_cancel b.exponent 1, zpow_succ_two, add_sub_cancel_right] at hplace
    have hsmall : (0 : ℚ) < 2 ^ (b.exponent - 1) := by positivity
    have hcancel : (b.mantissa - reachBelow b) * 2 < (2 : ℚ) ^ 53 := by
      refine lt_of_mul_lt_mul_right ?_ hsmall.le
      linarith
    have hless : (b.mantissa : ℚ) < (2 ^ 52 + 1 : Nat) := by
      push_cast
      linarith
    have hge := hb.leading_bit hmin
    have hlt' : b.mantissa < 2 ^ 52 + 1 := by exact_mod_cast hless
    unfold Binary.implicitBit at hge ⊢
    omega
  refine ⟨?_, hmin, hequal⟩
  -- two places below, not even the least mantissa would have room
  by_contra hne
  have hquarter := hceiling (k := b.exponent - 2) (by omega)
  rw [← sub_add_cancel b.exponent 2, zpow_add₀ (by norm_num), add_sub_cancel_right] at hquarter
  have hsmall : (0 : ℚ) < 2 ^ (b.exponent - 2) := by positivity
  have hcancel : (b.mantissa - reachBelow b) * 4 < (2 : ℚ) ^ 53 := by
    refine lt_of_mul_lt_mul_right ?_ hsmall.le
    linarith
  linarith

/-- The double's own place is the last place of a number in its interval, or the place below when
    the double is a power of two and the number is smaller. -/
theorem lastPlace_of_contains (hb : b.Canonical) (hnum : 0 < num) (hden : 0 < den)
    (h : (Interval.ofBinary b).Contains (num / den)) :
    lastPlace num den = b.exponent ∨
      lastPlace num den = b.exponent - 1 ∧ Binary.minExponent < b.exponent ∧
        b.mantissa = Binary.implicitBit :=
  (lastPlace_le_exponent hb hnum hden h).eq_or_lt.imp_right (of_lastPlace_lt hb hnum hden h)

/-- At its own place a fraction rounds to the mantissa of the double. -/
theorem rounded_at_exponent (hden : 0 < den) (h : (Interval.ofBinary b).Contains (num / den)) :
    (if 0 ≤ b.exponent then roundDiv num (den * Nat.pow 2 b.exponent.toNat)
      else roundDiv (num * Nat.pow 2 (-b.exponent).toNat) den) = b.mantissa := by
  obtain ⟨hlow, hhigh, hodd⟩ := near_of_contains h
  have hreach := reachBelow_le b
  have hunit : (0 : ℚ) < 2 ^ b.exponent := by positivity
  have hlow' : (b.mantissa - 1 / 2 : ℚ) * 2 ^ b.exponent ≤
      (b.mantissa - reachBelow b) * 2 ^ b.exponent :=
    mul_le_mul_of_nonneg_right (by linarith) hunit.le
  exact roundDiv_scaled num b.mantissa hden b.exponent (le_trans hlow' hlow) hhigh fun hparity =>
    ⟨lt_of_le_of_lt hlow' (hodd hparity).1, (hodd hparity).2⟩

/-- At the place below, a fraction rounds up to the power of two. -/
theorem rounded_below_exponent (hden : 0 < den) (h : (Interval.ofBinary b).Contains (num / den))
    (hmin : Binary.minExponent < b.exponent) (hequal : b.mantissa = Binary.implicitBit)
    (hceiling : (num / den : ℚ) < 2 ^ 53 * 2 ^ (b.exponent - 1)) :
    (if 0 ≤ b.exponent - 1 then roundDiv num (den * Nat.pow 2 (b.exponent - 1).toNat)
      else roundDiv (num * Nat.pow 2 (-(b.exponent - 1)).toNat) den) =
        2 * Binary.implicitBit := by
  obtain ⟨hlow, -, -⟩ := near_of_contains h
  have hquarter : reachBelow b = 1 / 4 := by
    have htwo : b.atPowerOfTwo = true := by simp [Binary.atPowerOfTwo, hequal, hmin]
    rw [reachBelow, if_pos htwo]
  have hhalved : (2 : ℚ) ^ b.exponent = 2 * 2 ^ (b.exponent - 1) := by
    rw [← zpow_succ_two, sub_add_cancel]
  have hmantissa : (b.mantissa : ℚ) = 2 ^ 52 := by
    rw [hequal]
    unfold Binary.implicitBit
    norm_num
  rw [hquarter, hmantissa, hhalved] at hlow
  have hsmall : (0 : ℚ) < 2 ^ (b.exponent - 1) := by positivity
  have hdouble : ((2 * Binary.implicitBit : Nat) : ℚ) = 2 ^ 53 := by
    unfold Binary.implicitBit
    norm_num
  have hcarried := roundDiv_scaled num (2 * Binary.implicitBit) hden (b.exponent - 1)
  rw [hdouble] at hcarried
  exact hcarried (by linarith) (by linarith) fun hparity => absurd hparity (by decide)

/-- **Rounding.** A fraction in the rounding interval of a double has that double's bits. -/
theorem nearestBits_eq (hb : b.Canonical) (hnum : 0 < num) (hden : 0 < den)
    (h : (Interval.ofBinary b).Contains (num / den)) : nearestBits num den = b.magnitudeBits := by
  have hplace := lastPlace_of_contains hb hnum hden h
  have hceiling := lt_lastPlace hnum hden
  unfold nearestBits
  rw [if_neg (by simpa using hnum.ne')]
  dsimp only
  generalize lastPlace num den = q at hplace hceiling
  rcases hplace with rfl | ⟨rfl, hmin, hequal⟩
  · rw [rounded_at_exponent hden h]
    exact Nat.min_eq_left hb.magnitudeBits_le
  · -- the mantissa carries into the exponent
    rw [rounded_below_exponent hden h hmin hequal hceiling]
    refine Eq.trans (congrArg (min · infinityBits) ?_) (Nat.min_eq_left hb.magnitudeBits_le)
    unfold Binary.magnitudeBits
    rw [hequal]
    unfold Binary.minExponent at hmin ⊢
    unfold Binary.implicitBit
    omega

end Rounding

/-! ## Decimals -/

section Decimals

variable {b : Binary} {d : Decimal}

theorem two_pow_1024_lt : 2 ^ 53 * 2 ^ 971 < 10 ^ 401 := by decide +kernel

theorem two_pow_1075_lt : 2 * 2 ^ 1074 < 10 ^ 400 := by decide +kernel

/-- A decimal as a fraction. -/
theorem toRat_of_nonneg (h : 0 ≤ d.exponent) :
    d.toRat = (d.coefficient * Nat.pow 10 d.exponent.toNat : Nat) / (1 : Nat) := by
  rw [toRat, Interval.toNat_zpow h]
  push_cast [Nat.pow_eq]
  rw [div_one]

theorem toRat_of_neg (h : ¬0 ≤ d.exponent) :
    d.toRat = d.coefficient / (Nat.pow 10 (-d.exponent).toNat : Nat) := by
  rw [toRat, Interval.toNat_zpow_neg h, ← div_eq_mul_inv]
  push_cast [Nat.pow_eq]
  rfl

/-- A decimal that is not expanded because of its size is above all doubles. -/
theorem le_toRat_of_large (hpos : 0 < d.coefficient) (h : 400 < d.exponent) :
    (10 : ℚ) ^ 401 ≤ d.toRat := by
  have hone : (1 : ℚ) ≤ d.coefficient := by exact_mod_cast hpos
  have hpower : (10 : ℚ) ^ ((401 : Nat) : Int) ≤ 10 ^ d.exponent :=
    zpow_le_zpow_right₀ (by norm_num) (by omega)
  rw [zpow_natCast] at hpower
  exact le_trans hpower (le_mul_of_one_le_left (by positivity) hone)

/-- And one that is not expanded because it is small is below all of them. -/
theorem toRat_le_of_small (h : d.exponent < -400 - d.coefficient.log2) :
    d.toRat ≤ (10 ^ 400)⁻¹ := by
  have hcoefficient : (d.coefficient : ℚ) ≤ 10 ^ (d.coefficient.log2 + 1) := by
    have hbinary : d.coefficient < 2 ^ (d.coefficient.log2 + 1) := Nat.lt_log2_self
    have hdecimal : 2 ^ (d.coefficient.log2 + 1) ≤ 10 ^ (d.coefficient.log2 + 1) :=
      Nat.pow_le_pow_left (by decide) _
    exact_mod_cast (lt_of_lt_of_le hbinary hdecimal).le
  refine le_trans (mul_le_mul_of_nonneg_right hcoefficient (by positivity)) ?_
  rw [← zpow_natCast, ← zpow_natCast, ← zpow_neg, ← zpow_add₀ (by norm_num)]
  exact zpow_le_zpow_right₀ (by norm_num) (by push_cast; omega)

/-- No double is as large as the decimals that are not expanded. -/
theorem exponent_le_of_contains (hb : b.Canonical) (hpos : 0 < d.coefficient)
    (h : (Interval.ofBinary b).Contains d.toRat) : d.exponent ≤ 400 := by
  by_contra hlarge
  obtain ⟨-, hhigh, -⟩ := near_of_contains h
  have hmantissa : (b.mantissa : ℚ) + 1 / 2 ≤ 2 ^ 53 := by linarith [hb.mantissa_add_one_le]
  have hunit : (2 : ℚ) ^ b.exponent ≤ 2 ^ ((971 : Nat) : Int) :=
    zpow_le_zpow_right₀ (by norm_num) hb.exponent_le
  have hceiling : d.toRat ≤ 2 ^ 53 * 2 ^ ((971 : Nat) : Int) :=
    le_trans hhigh (mul_le_mul hmantissa hunit (by positivity) (by positivity))
  have hfloor := le_toRat_of_large hpos (not_le.mp hlarge)
  rw [zpow_natCast] at hceiling
  exact absurd two_pow_1024_lt (not_lt.mpr (by exact_mod_cast le_trans hfloor hceiling))

/-- No double is as small as the decimals that are not expanded. -/
theorem le_exponent_of_contains (hb : b.Canonical)
    (h : (Interval.ofBinary b).Contains d.toRat) : -400 - d.coefficient.log2 ≤ d.exponent := by
  by_contra hsmall
  obtain ⟨hlow, -, -⟩ := near_of_contains h
  have hmantissa : (1 / 2 : ℚ) ≤ b.mantissa - reachBelow b := by
    have hone : (1 : ℚ) ≤ b.mantissa := by exact_mod_cast hb.mantissa_pos
    have hreach := reachBelow_le b
    linarith
  have hunit : (2 : ℚ) ^ (-((1074 : Nat) : Int)) ≤ 2 ^ b.exponent :=
    zpow_le_zpow_right₀ (by norm_num) hb.exponent_ge
  have hfloor : (1 / 2 : ℚ) * 2 ^ (-((1074 : Nat) : Int)) ≤ d.toRat :=
    le_trans (mul_le_mul hmantissa hunit (by positivity) (by linarith)) hlow
  have hinverse := le_trans hfloor (toRat_le_of_small (not_le.mp hsmall))
  rw [zpow_neg, zpow_natCast, one_div, ← mul_inv, inv_le_inv₀ (by positivity) (by positivity)]
    at hinverse
  exact absurd two_pow_1075_lt (not_lt.mpr (by exact_mod_cast hinverse))

/-- **A decimal in the rounding interval of a double reads back as that double.** -/
theorem toFloat_eq (hb : b.Canonical) (hpos : 0 < d.coefficient)
    (h : (Interval.ofBinary b).Contains d.toRat) (negative : Bool) :
    toFloat negative d = Float.ofBits (UInt64.ofNat (signBit negative + b.magnitudeBits)) := by
  have hzero : ¬ (d.coefficient == 0) = true := by simpa using hpos.ne'
  unfold toFloat
  dsimp only
  rw [if_neg hzero, if_neg (not_lt.mpr (exponent_le_of_contains hb hpos h)),
    if_neg (not_lt.mpr (le_exponent_of_contains hb h))]
  have hmagnitude : (if 0 ≤ d.exponent then
      nearestBits (d.coefficient * Nat.pow 10 d.exponent.toNat) 1
      else nearestBits d.coefficient (Nat.pow 10 (-d.exponent).toNat)) = b.magnitudeBits := by
    by_cases hsign : 0 ≤ d.exponent
    · rw [if_pos hsign]
      rw [toRat_of_nonneg hsign] at h
      exact nearestBits_eq hb (Nat.mul_pos hpos (Nat.pow_pos (by decide))) Nat.one_pos h
    · rw [if_neg hsign]
      rw [toRat_of_neg hsign] at h
      exact nearestBits_eq hb hpos (Nat.pow_pos (by decide)) h
  rw [hmagnitude]

end Decimals

end Decimal

end Reckoner
