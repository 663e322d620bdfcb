import Mathlib.Algebra.Order.Field.Power
import Mathlib.Data.Rat.Cast.Order
import Mathlib.Tactic.FieldSimp
import Mathlib.Tactic.Linarith
import Mathlib.Tactic.NormNum
import Mathlib.Tactic.Ring
import Reckoner.Decimal.Shortest
import Reckoner.Proofs.Decimal.Digits

/-!
# `Reckoner.Proofs.Decimal.Shortest` — the shortest decimal is in the rounding interval

The search for the shortest decimal tests whole numbers on ever finer grids. What it finds lies in the
rounding interval, and on a grid of 18 digits it finds something, since the interval of a double is
wider than the grid.

## Contents
- **Values.** `Decimal.toRat`.
- **Membership.** `Interval.Contains`, and how it follows a change of scale.
- **Candidates.** What `Interval.whole` finds, and when it finds something.
- **The search.** `leadingExponent_le` and `contains_shortest`.
-/

namespace Reckoner

/-! ## Values -/

/-- The number that a decimal stands for. -/
def Decimal.toRat (d : Decimal) : ℚ := d.coefficient * 10 ^ d.exponent

namespace Decimal

theorem toRat_stripZeros (n : Nat) (d : Decimal) : (stripZeros n d).toRat = d.toRat := by
  induction n generalizing d with
  | zero => rfl
  | succ n ih =>
      unfold stripZeros
      split
      · rename_i hzero
        obtain ⟨k, hk⟩ : ∃ k, d.coefficient = 10 * k :=
          Nat.dvd_of_mod_eq_zero (eq_of_beq (Bool.and_eq_true_iff.mp hzero).2)
        rw [ih, toRat, toRat, hk, Nat.mul_div_cancel_left k (by decide),
          zpow_add_one₀ (by norm_num)]
        push_cast
        ring
      · rfl

theorem toRat_normalize (d : Decimal) : d.normalize.toRat = d.toRat := toRat_stripZeros _ d

namespace Interval

/-! ## Membership -/

/-- A number lies in an interval. -/
def Contains (i : Interval) (x : ℚ) : Prop :=
  if i.closed then (i.num : ℚ) - i.down ≤ x * i.den ∧ x * i.den ≤ i.num + i.up
  else (i.num : ℚ) - i.down < x * i.den ∧ x * i.den < i.num + i.up

/-- The unit is positive, and the interval reaches in both directions. -/
structure Proper (i : Interval) : Prop where
  den_pos : 0 < i.den
  down_pos : 0 < i.down
  up_pos : 0 < i.up

theorem toNat_zpow {b : ℚ} {k : Int} (hk : 0 ≤ k) : b ^ k = b ^ k.toNat := by
  obtain ⟨n, rfl⟩ := Int.eq_ofNat_of_zero_le hk
  rw [Int.toNat_natCast, zpow_natCast]

theorem toNat_zpow_neg {b : ℚ} {k : Int} (hk : ¬ 0 ≤ k) : b ^ k = (b ^ (-k).toNat)⁻¹ := by
  rw [← toNat_zpow (by omega), zpow_neg, inv_inv]

theorem Proper.scale {i : Interval} (h : i.Proper) (k : Int) : (i.scale k).Proper := by
  unfold Interval.scale
  split
  · exact ⟨Nat.mul_pos h.den_pos (Nat.pow_pos (by decide)), h.down_pos, h.up_pos⟩
  · have hunit : 0 < Nat.pow 10 (-k).toNat := Nat.pow_pos (by decide)
    exact ⟨h.den_pos, Nat.mul_pos h.down_pos hunit, Nat.mul_pos h.up_pos hunit⟩

/-- Scaling an interval scales what it contains. -/
theorem contains_scale {i : Interval} {k : Int} {x : ℚ} :
    (i.scale k).Contains x ↔ i.Contains (x * 10 ^ k) := by
  unfold Interval.scale Contains
  by_cases hk : 0 ≤ k
  · rw [if_pos hk, toNat_zpow hk]
    simp only [Nat.cast_mul, Nat.pow_eq, Nat.cast_pow, Nat.cast_ofNat]
    rw [mul_comm (i.den : ℚ), ← mul_assoc]
  · rw [if_neg hk, toNat_zpow_neg hk]
    have hpos : (0 : ℚ) < 10 ^ (-k).toNat := by positivity
    simp only [Nat.cast_mul, Nat.pow_eq, Nat.cast_pow, Nat.cast_ofNat]
    generalize (10 : ℚ) ^ (-k).toNat = unit at hpos
    have hleft : x * unit⁻¹ * i.den = x * i.den / unit := by
      field_simp
    rw [hleft, le_div_iff₀ hpos, div_le_iff₀ hpos, lt_div_iff₀ hpos, div_lt_iff₀ hpos, sub_mul,
      add_mul]

/-- What lies in an interval is positive if its lower end is. -/
theorem Contains.pos {i : Interval} {x : ℚ} (h : i.Contains x) (hdown : i.down < i.num) : 0 < x := by
  have hlower : (0 : ℚ) < i.num - i.down := by
    rw [sub_pos]
    exact_mod_cast hdown
  have hden : (0 : ℚ) ≤ i.den := Nat.cast_nonneg _
  have hpos : 0 < x * i.den := by
    unfold Contains at h
    split at h
    · exact lt_of_lt_of_le hlower h.1
    · exact lt_trans hlower h.1
  exact lt_of_not_ge fun hx =>
    absurd hpos (not_lt.mpr (mul_nonpos_of_nonpos_of_nonneg hx hden))

/-! ## Candidates -/

/-- The whole number below the value is inside if it is within reach. -/
theorem contains_below {i : Interval} (h : i.Proper)
    (hreach : i.admits (i.num % i.den) i.down = true) : i.Contains ((i.num / i.den : Nat) : ℚ) := by
  have hdiv : i.num = i.num / i.den * i.den + i.num % i.den := (Nat.div_add_mod' _ _).symm
  have hup := h.up_pos
  have hvalue : ((i.num / i.den : Nat) : ℚ) * i.den = i.num - (i.num % i.den : Nat) := by
    rw [eq_sub_iff_add_eq]
    exact_mod_cast hdiv.symm
  unfold Contains
  rw [hvalue]
  unfold admits at hreach
  generalize i.num % i.den = rest at hreach
  have hrest : (0 : ℚ) ≤ rest := Nat.cast_nonneg _
  have hupper : (0 : ℚ) < i.up := Nat.cast_pos.mpr hup
  split
  · rename_i hclosed
    rw [if_pos hclosed, decide_eq_true_eq] at hreach
    have hle : (rest : ℚ) ≤ i.down := Nat.cast_le.mpr hreach
    constructor <;> linarith
  · rename_i hopen
    rw [if_neg hopen, decide_eq_true_eq] at hreach
    have hlt : (rest : ℚ) < i.down := Nat.cast_lt.mpr hreach
    constructor <;> linarith

/-- So is the next one. -/
theorem contains_above {i : Interval} (h : i.Proper)
    (hreach : i.admits (i.den - i.num % i.den) i.up = true) :
    i.Contains ((i.num / i.den + 1 : Nat) : ℚ) := by
  have hdiv : i.num = i.num / i.den * i.den + i.num % i.den := (Nat.div_add_mod' _ _).symm
  have hlt : i.num % i.den < i.den := Nat.mod_lt _ h.den_pos
  have hdown := h.down_pos
  have hvalue : ((i.num / i.den + 1 : Nat) : ℚ) * i.den =
      i.num + (i.den - i.num % i.den : Nat) := by
    have hnat : (i.num / i.den + 1) * i.den = i.num + (i.den - i.num % i.den) := by
      rw [Nat.add_mul, Nat.one_mul]
      omega
    exact_mod_cast hnat
  unfold Contains
  rw [hvalue]
  unfold admits at hreach
  have hgap : 0 < i.den - i.num % i.den := Nat.sub_pos_of_lt hlt
  generalize i.den - i.num % i.den = gap at hreach hgap
  have hpos : (0 : ℚ) < gap := Nat.cast_pos.mpr hgap
  have hlower : (0 : ℚ) < i.down := Nat.cast_pos.mpr hdown
  split
  · rename_i hclosed
    rw [if_pos hclosed, decide_eq_true_eq] at hreach
    have hle : (gap : ℚ) ≤ i.up := Nat.cast_le.mpr hreach
    constructor <;> linarith
  · rename_i hopen
    rw [if_neg hopen, decide_eq_true_eq] at hreach
    have hless : (gap : ℚ) < i.up := Nat.cast_lt.mpr hreach
    constructor <;> linarith

theorem choose_eq (tie : Tie) (below : Nat) :
    tie.choose below = below ∨ tie.choose below = below + 1 := by
  unfold Tie.choose
  cases tie with
  | toEven => dsimp only; split <;> simp
  | up => exact .inr rfl

/-- **What is found is inside.** -/
theorem contains_whole {i : Interval} (h : i.Proper) {tie : Tie} {c : Nat}
    (hc : i.whole tie = some c) : i.Contains (c : ℚ) := by
  unfold whole at hc
  dsimp only at hc
  split at hc
  · exact absurd hc nofun
  · rename_i hlower _
    obtain rfl := Option.some.inj hc
    exact contains_below h hlower
  · rename_i _ hupper
    obtain rfl := Option.some.inj hc
    exact contains_above h hupper
  · rename_i hlower hupper
    have heither : c = i.num / i.den ∨ c = i.num / i.den + 1 := by
      split at hc
      · exact .inl (Option.some.inj hc).symm
      · split at hc
        · exact .inr (Option.some.inj hc).symm
        · rw [← Option.some.inj hc]
          exact choose_eq tie _
    rcases heither with rfl | rfl
    · exact contains_below h hlower
    · exact contains_above h hupper

/-- An interval that is wider than the unit has a whole number inside. -/
theorem isSome_whole {i : Interval} (h : i.Proper) (hwide : i.den < i.down + i.up) (tie : Tie) :
    (i.whole tie).isSome = true := by
  unfold whole
  dsimp only
  split
  · -- with neither neighbour inside, the interval would be narrower than the unit
    rename_i hlower hupper
    have hle : i.down ≤ i.num % i.den := by
      unfold admits at hlower
      split at hlower <;> simp only [decide_eq_false_iff_not] at hlower <;> omega
    have hle' : i.up ≤ i.den - i.num % i.den := by
      unfold admits at hupper
      split at hupper <;> simp only [decide_eq_false_iff_not] at hupper <;> omega
    have hrest : i.num % i.den < i.den := Nat.mod_lt _ h.den_pos
    omega
  · rfl
  · rfl
  · split
    · rfl
    · split <;> rfl

end Interval

/-! ## The search -/

/-- The numbers of digits tell the leading exponent, up to one digit. -/
theorem length_digitsOf_sub_le {num : Nat} (hnum : 0 < num) (den : Nat) :
    (den : ℚ) * 10 ^ (((digitsOf num).length : Int) - (digitsOf den).length - 1) ≤ num := by
  have hlower : (10 : ℚ) ^ ((digitsOf num).length - 1) ≤ num := by
    exact_mod_cast pow_length_digitsOf_le hnum
  have hupper : (den : ℚ) ≤ 10 ^ (digitsOf den).length := by
    exact_mod_cast (lt_pow_length_digitsOf den).le
  have hlength : 0 < (digitsOf num).length := List.length_pos_iff.mpr (digitsOf_ne_nil num)
  have hexponent : ((digitsOf num).length : Int) - (digitsOf den).length - 1 =
      (((digitsOf num).length - 1 : Nat) : Int) - (digitsOf den).length := by omega
  rw [hexponent, zpow_sub₀ (by norm_num), zpow_natCast, zpow_natCast, mul_div_assoc',
    div_le_iff₀ (by positivity), mul_comm]
  exact mul_le_mul hlower hupper (Nat.cast_nonneg _) (Nat.cast_nonneg _)

/-- The leading exponent is not too large. -/
theorem leadingExponent_le {num : Nat} (hnum : 0 < num) (den : Nat) :
    (den : ℚ) * 10 ^ leadingExponent num den ≤ num := by
  have hless := length_digitsOf_sub_le hnum den
  unfold leadingExponent
  generalize ((digitsOf num).length : Int) - (digitsOf den).length = guess at hless ⊢
  by_cases hsign : 0 ≤ guess
  · simp only [hsign, if_true, decide_eq_true_eq]
    split
    · rename_i hreached
      rw [Interval.toNat_zpow hsign]
      exact_mod_cast hreached
    · exact hless
  · simp only [hsign, if_false, decide_eq_true_eq]
    split
    · rename_i hreached
      rw [Interval.toNat_zpow_neg hsign, ← div_eq_mul_inv, div_le_iff₀ (by positivity)]
      exact_mod_cast hreached
    · exact hless

section Search

variable {b : Binary}

theorem proper_ofBinary (b : Binary) : (Interval.ofBinary b).Proper := by
  have hdown : 0 < if b.atPowerOfTwo then 1 else 2 := by split <;> decide
  unfold Interval.ofBinary
  dsimp only
  split
  · have hunit : 0 < Nat.pow 2 (b.exponent - 2).toNat := Nat.pow_pos (by decide)
    exact ⟨Nat.one_pos, Nat.mul_pos hdown hunit, Nat.mul_pos Nat.two_pos hunit⟩
  · exact ⟨Nat.pow_pos (by decide), hdown, Nat.two_pos⟩

/-- The interval of a double is wide: no double has more than 17 digits in front of it. -/
theorem num_ofBinary_lt (hfits : b.mantissa < 2 * Binary.implicitBit) :
    (Interval.ofBinary b).num <
      10 ^ 17 * ((Interval.ofBinary b).down + (Interval.ofBinary b).up) := by
  have hdown : 1 ≤ if b.atPowerOfTwo then 1 else 2 := by split <;> decide
  unfold Binary.implicitBit at hfits
  unfold Interval.ofBinary
  dsimp only
  generalize (if b.atPowerOfTwo then 1 else 2 : Nat) = down at hdown
  split
  · have hunit : 0 < Nat.pow 2 (b.exponent - 2).toNat := Nat.pow_pos (by decide)
    generalize Nat.pow 2 (b.exponent - 2).toNat = unit at hunit
    rw [← Nat.add_mul, ← Nat.mul_assoc]
    exact Nat.mul_lt_mul_of_pos_right (by omega) hunit
  · dsimp only
    omega

theorem num_ofBinary_pos (hpos : 0 < b.mantissa) : 0 < (Interval.ofBinary b).num := by
  unfold Interval.ofBinary
  dsimp only
  split
  · exact Nat.mul_pos (by omega) (Nat.pow_pos (by decide))
  · dsimp only
    omega

theorem down_ofBinary_lt (hpos : 0 < b.mantissa) :
    (Interval.ofBinary b).down < (Interval.ofBinary b).num := by
  have hdown : (if b.atPowerOfTwo then 1 else 2 : Nat) ≤ 2 := by split <;> decide
  unfold Interval.ofBinary
  dsimp only
  generalize (if b.atPowerOfTwo then 1 else 2 : Nat) = down at hdown
  split
  · exact Nat.mul_lt_mul_of_pos_right (by omega) (Nat.pow_pos (by decide))
  · dsimp only
    omega

/-- On a grid of 18 digits there is a candidate. -/
theorem isSome_finest (hpos : 0 < b.mantissa) (hfits : b.mantissa < 2 * Binary.implicitBit)
    (tie : Tie) {k : Int}
    (hk : k = leadingExponent (Interval.ofBinary b).num (Interval.ofBinary b).den - 17) :
    (((Interval.ofBinary b).scale k).whole tie).isSome = true := by
  refine Interval.isSome_whole ((proper_ofBinary b).scale k) ?_ tie
  have hleading := leadingExponent_le (num_ofBinary_pos hpos) (Interval.ofBinary b).den
  have hnum : ((Interval.ofBinary b).num : ℚ) <
      10 ^ 17 * ((Interval.ofBinary b).down + (Interval.ofBinary b).up) := by
    exact_mod_cast num_ofBinary_lt hfits
  have hgrid : ((Interval.ofBinary b).den : ℚ) * 10 ^ k <
      (Interval.ofBinary b).down + (Interval.ofBinary b).up := by
    rw [hk, zpow_sub₀ (by norm_num), mul_div_assoc', div_lt_iff₀ (by positivity), mul_comm (_ + _)]
    exact lt_of_le_of_lt hleading (by exact_mod_cast hnum)
  generalize Interval.ofBinary b = i at hgrid
  unfold Interval.scale
  by_cases hsign : 0 ≤ k
  · rw [if_pos hsign]
    rw [Interval.toNat_zpow hsign] at hgrid
    exact_mod_cast hgrid
  · rw [if_neg hsign]
    rw [Interval.toNat_zpow_neg hsign, ← div_eq_mul_inv, div_lt_iff₀ (by positivity)] at hgrid
    dsimp only
    rw [← Nat.add_mul]
    exact_mod_cast hgrid

/-- **The shortest decimal lies in the rounding interval.** -/
theorem contains_shortest (hpos : 0 < b.mantissa) (hfits : b.mantissa < 2 * Binary.implicitBit)
    (tie : Tie) : (Interval.ofBinary b).Contains (shortest tie b).toRat := by
  unfold shortest
  dsimp only
  split
  · rename_i d hfound
    obtain ⟨places, -, hgrid⟩ := List.exists_of_findSome?_eq_some hfound
    obtain ⟨c, hc, rfl⟩ := Option.map_eq_some_iff.mp hgrid
    rw [toRat_normalize, toRat, ← Interval.contains_scale]
    exact Interval.contains_whole ((proper_ofBinary b).scale _) hc
  · -- the search ends with the grid of 18 digits at the latest
    rename_i hnone
    have hlast := List.findSome?_eq_none_iff.mp hnone 17 (by decide)
    have hsome := isSome_finest hpos hfits tie rfl
    rw [Option.map_eq_none_iff] at hlast
    push_cast at hlast
    rw [hlast] at hsome
    exact absurd hsome nofun

/-- The shortest decimal of a positive double is positive. -/
theorem coefficient_shortest_pos (hpos : 0 < b.mantissa)
    (hfits : b.mantissa < 2 * Binary.implicitBit) (tie : Tie) :
    0 < (shortest tie b).coefficient := by
  have hvalue := (contains_shortest hpos hfits tie).pos (down_ofBinary_lt hpos)
  refine Nat.pos_of_ne_zero fun hzero => ?_
  rw [toRat, hzero, Nat.cast_zero, zero_mul] at hvalue
  exact lt_irrefl _ hvalue

end Search

end Decimal

end Reckoner
