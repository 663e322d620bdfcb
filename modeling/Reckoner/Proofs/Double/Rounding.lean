import Reckoner.Proofs.Double.HalfEven
import Reckoner.Proofs.Double.Packing

/-!
# `Reckoner.Proofs.Double.Rounding` — mantissas are rounded half to even

Results are rounded by shifting mantissas to the right, where two bits keep what is needed of all that
was shifted out. These bits tell whether the exact number is below, at or above a half, so that what
is shifted and rounded is the exact number, rounded.

## Contents
- **Shifting.** `Represents`: the exact number behind a mantissa and its two bits.
- **Rounding.** `Magnitude`: a sign and an exact magnitude in the format;
  `magnitude_roundWithAccuracy` and `magnitude_round`.
-/

namespace Reckoner.Double

open Float.Model (Format UnpackedFloat)
open Float.Model.UnpackedFloat

variable {s : Sign} {m : Nat} {e : Int} {t : ℚ}

/-! ## Shifting -/

/-- The exact number behind an extended mantissa: the round bit is a half, and something smaller than
    a half is left exactly if the sticky bit is set. -/
def Represents (em : ExtendedMantissa) (t : ℚ) : Prop :=
  ∃ rest : ℚ, 0 ≤ rest ∧ rest < 1 / 2 ∧
    t = em.mantissa + (if em.roundBit then 1 / 2 else 0) + rest ∧
    (em.stickyBit = true ↔ 0 < rest)

/-- **What is shifted is divided by two.** -/
theorem Represents.shiftRightOne {em : ExtendedMantissa} (h : Represents em t) :
    Represents em.shiftRightOne (t / 2) := by
  obtain ⟨rest, hnonneg, hless, rfl, hsticky⟩ := h
  have hsplit : (em.mantissa : ℚ) = 2 * (em.mantissa / 2 : ℕ) + (em.mantissa % 2 : ℕ) := by
    exact_mod_cast (Nat.div_add_mod em.mantissa 2).symm
  have hbit : (em.mantissa % 2 : ℕ) = if em.shiftRightOne.roundBit then (1 : ℚ) else 0 := by
    rcases Nat.mod_two_eq_zero_or_one em.mantissa with hodd | hodd <;>
      simp [ExtendedMantissa.shiftRightOne, hodd]
  -- the old round bit is a quarter now, and one more thing that the sticky bit stands for
  refine ⟨(if em.roundBit then 1 / 4 else 0) + rest / 2, ?_, ?_, ?_, ?_⟩
  · split <;> linarith
  · split <;> linarith
  · rw [hsplit, hbit]
    show _ = ((em.mantissa / 2 : ℕ) : ℚ) + _ + _
    split <;> split <;> ring
  · show (em.roundBit || em.stickyBit) = true ↔ _
    rw [Bool.or_eq_true, hsticky]
    cases em.roundBit with
    | false => simp
    | true =>
        refine iff_of_true (.inl rfl) ?_
        rw [if_pos rfl]
        linarith

theorem Represents.shiftRight {em : ExtendedMantissa} (h : Represents em t) (n : Nat) :
    Represents (em >>> n) (t / 2 ^ n) := by
  induction n with
  | zero =>
      rw [pow_zero, div_one]
      exact h
  | succ n ih =>
      rw [pow_succ, ← div_div]
      exact ih.shiftRightOne

theorem Represents.floor_eq {em : ExtendedMantissa} (h : Represents em t) : ⌊t⌋ = em.mantissa := by
  obtain ⟨rest, hnonneg, hless, ht, -⟩ := h
  rw [Int.floor_eq_iff, ht, Int.cast_natCast]
  constructor <;> split <;> linarith

/-- **The two bits are enough for rounding.** -/
theorem Represents.roundedMantissa_eq {em : ExtendedMantissa} (h : Represents em t) :
    (em.roundedMantissa : ℤ) = halfEven t := by
  have hfloor := h.floor_eq
  obtain ⟨rest, hnonneg, hless, ht, hsticky⟩ := h
  have hfract : Int.fract t = (if em.roundBit then 1 / 2 else 0) + rest := by
    rw [Int.fract, hfloor, ht, Int.cast_natCast]
    ring
  obtain ⟨m, roundBit, stickyBit⟩ := em
  dsimp only at hfloor hfract hsticky
  -- the round bit tells a half, and behind it the sticky bit whether there is more
  cases roundBit with
  | false =>
      have hbelow : Int.fract t < 1 / 2 := by
        rw [hfract]
        simpa using hless
      rw [halfEven_of_lt hbelow, hfloor]
      cases stickyBit <;> rfl
  | true =>
      rw [if_pos rfl] at hfract
      cases stickyBit with
      | false =>
          have hrest : rest = 0 :=
            hnonneg.antisymm' (not_lt.mp fun hpos => by simp [hpos] at hsticky)
          rw [halfEven_of_eq (by rw [hfract, hrest, add_zero]), hfloor]
          rfl
      | true =>
          have habove : 1 / 2 < Int.fract t := by
            rw [hfract]
            linarith [hsticky.mp rfl]
          rw [halfEven_of_gt habove, hfloor]
          rfl

theorem mantissa_ofMantissaAndAccuracy (m : Nat) (accuracy : Accuracy) :
    (ExtendedMantissa.ofMantissaAndAccuracy m accuracy).mantissa = m := by
  cases accuracy with
  | exact => rfl
  | inexact o => cases o <;> rfl

/-- Nothing is lost yet. -/
theorem represents_exact (m : Nat) :
    Represents (ExtendedMantissa.ofMantissaAndAccuracy m .exact) m :=
  ⟨0, le_refl _, by norm_num, by simp [ExtendedMantissa.ofMantissaAndAccuracy],
    by simp [ExtendedMantissa.ofMantissaAndAccuracy]⟩

/-- What is left of a division. -/
theorem represents_fraction (m : Nat) {num den : Nat} (h : num < den) :
    Represents (ExtendedMantissa.ofMantissaAndAccuracy m (accuracyOfFraction num den))
      (m + num / den) := by
  have hden : (0 : ℚ) < den := by exact_mod_cast Nat.zero_lt_of_lt h
  have hless : (num / den : ℚ) < 1 := by
    rw [div_lt_one hden]
    exact_mod_cast h
  unfold accuracyOfFraction
  by_cases hzero : num = 0
  · rw [if_pos hzero, hzero, Nat.cast_zero, zero_div, add_zero]
    exact represents_exact m
  · have hpos : (0 : ℚ) < num / den := div_pos (by exact_mod_cast Nat.pos_of_ne_zero hzero) hden
    rw [if_neg hzero]
    -- the accuracy is told by the side of a half on which the fraction lies
    rcases lt_trichotomy (2 * num) den with hlt | heq | hgt
    · have hhalf : (num / den : ℚ) < 1 / 2 := by
        rw [div_lt_div_iff₀ hden (by norm_num)]
        exact_mod_cast (by omega : num * 2 < 1 * den)
      rw [Nat.compare_eq_lt.mpr hlt]
      exact ⟨num / den, hpos.le, hhalf, by simp [ExtendedMantissa.ofMantissaAndAccuracy],
        iff_of_true rfl hpos⟩
    · have hhalf : (num / den : ℚ) = 1 / 2 := by
        rw [div_eq_div_iff hden.ne' (by norm_num)]
        exact_mod_cast (by omega : num * 2 = 1 * den)
      rw [Nat.compare_eq_eq.mpr heq, hhalf]
      exact ⟨0, le_refl _, by norm_num, by simp [ExtendedMantissa.ofMantissaAndAccuracy],
        by simp [ExtendedMantissa.ofMantissaAndAccuracy]⟩
    · have hhalf : (1 / 2 : ℚ) < num / den := by
        rw [div_lt_div_iff₀ (by norm_num) hden]
        exact_mod_cast (by omega : 1 * den < num * 2)
      rw [Nat.compare_eq_gt.mpr hgt]
      refine ⟨num / den - 1 / 2, by linarith, by linarith, ?_, iff_of_true rfl (by linarith)⟩
      simp [ExtendedMantissa.ofMantissaAndAccuracy]

/-! ## Rounding -/

/-- The last place that the format asks for, given a mantissa and an exponent. -/
def target (m : Nat) (e : Int) : Int := max ((m.log2 : Int) + 1 + e - 53) (-1074)

/-- A sign and an exact magnitude in the format. -/
inductive Magnitude (s : Sign) : ℚ → UnpackedFloat → Prop
  | zero : Magnitude s 0 (.zero s)
  | finite {m : Nat} {e : Int} (hm : 0 < m) (shape : Shape m e) :
      Magnitude s (m * 2 ^ e) (.finite s m e hm)

/-- The logarithm of a mantissa bounds every number with that whole part. -/
theorem log2_le (hm : 0 < m) (h : ⌊t⌋ = m) : (2 : ℚ) ^ m.log2 ≤ t := by
  have hfloor : (m : ℚ) ≤ t := by
    have := Int.floor_le t
    rw [h] at this
    exact_mod_cast this
  refine le_trans ?_ hfloor
  exact_mod_cast Nat.log2_self_le hm.ne'

theorem lt_log2 (h : ⌊t⌋ = m) : t < 2 ^ (m.log2 + 1) := by
  have hceiling : t < (m : ℚ) + 1 := by
    have := Int.lt_floor_add_one t
    rw [h] at this
    exact_mod_cast this
  refine lt_of_lt_of_le hceiling ?_
  exact_mod_cast (Nat.lt_log2_self : m < _)

/-- The place that is aimed at is the last place of the exact number. -/
theorem place_eq_target (ht : 0 < t) (h : ⌊t⌋ = m) (hm : 0 < m ∨ e ≤ -1074) :
    place (t * 2 ^ e) = target m e := by
  have hunit : (0 : ℚ) < 2 ^ e := by positivity
  -- what lies behind the point of `t` does not change its highest bit
  refine place_eq (mul_pos ht hunit) ?_ (le_max_right _ _) fun hlowest => ?_
  · have hbound : t * 2 ^ e < 2 ^ (m.log2 + 1) * 2 ^ e := mul_lt_mul_of_pos_right (lt_log2 h) hunit
    refine lt_of_lt_of_le hbound ?_
    rw [two_pow_mul_zpow, two_pow_mul_zpow]
    refine zpow_le_zpow_right₀ (by norm_num) ?_
    unfold target
    push_cast
    omega
  · have hpos : 0 < m := by
      refine Nat.pos_of_ne_zero fun hzero => ?_
      subst hzero
      have := hm.resolve_left (Nat.lt_irrefl _)
      have hlog : Nat.log2 0 = 0 := by decide
      unfold target at hlowest
      rw [hlog] at hlowest
      omega
    have hbound : 2 ^ m.log2 * 2 ^ e ≤ t * 2 ^ e :=
      mul_le_mul_of_nonneg_right (log2_le hpos h) hunit.le
    refine le_trans ?_ hbound
    rw [two_pow_mul_zpow, two_pow_mul_zpow]
    refine zpow_le_zpow_right₀ (by norm_num) ?_
    unfold target at hlowest ⊢
    push_cast
    omega

/-- Rounding up may have given a mantissa one more bit, which is taken away again. -/
def settled (s : Sign) (m : Nat) (e : Int) : UnpackedFloat :=
  let (em, e') := shiftToTargetExponent Format.binary64 m e .exact
  if h : em.mantissa = 0 then .zero s else .finite s em.mantissa e' (Nat.pos_of_ne_zero h)

theorem magnitude_finite {q : ℚ} (hm : 0 < m) (shape : Shape m e) (hq : q = m * 2 ^ e) :
    Magnitude s q (.finite s m e hm) := hq ▸ .finite hm shape

theorem settled_eq (s : Sign) (m : Nat) (e : Int) :
    settled s m e =
      if h : (ExtendedMantissa.ofMantissaAndAccuracy m .exact >>> (target m e - e).toNat).mantissa = 0
      then .zero s
      else .finite s _ (e + (target m e - e).toNat) (Nat.pos_of_ne_zero h) := rfl

/-- **The bit that is taken away is zero.** -/
theorem magnitude_settled (hlt : m ≤ 2 ^ 53) (hge : -1074 ≤ e) (hbit : -1074 < e → 2 ^ 52 ≤ m) :
    Magnitude s (m * 2 ^ e) (settled s m e) := by
  rw [settled_eq]
  -- only a mantissa that was rounded up to `2 ^ 53` has a bit too many
  rcases hlt.eq_or_lt with rfl | hlt
  · have hshift : (target (2 ^ 53) e - e).toNat = 1 := by
      have hlog : Nat.log2 (2 ^ 53) = 53 := by decide
      unfold target
      omega
    rw [hshift]
    have hshape : Shape (2 ^ 52) (e + 1) := ⟨by decide, by omega, fun _ => Nat.le_refl _⟩
    refine magnitude_finite (m := 2 ^ 52) (by decide) hshape ?_
    rw [zpow_add_one₀ (by norm_num)]
    push_cast
    ring
  · have hshift : (target m e - e).toNat = 0 := by
      have hlog : m.log2 ≤ 52 := by
        rcases Nat.eq_zero_or_pos m with rfl | hpos
        · decide
        · exact Nat.lt_succ_iff.mp ((Nat.log2_lt hpos.ne').mpr hlt)
      unfold target
      omega
    rw [hshift]
    show Magnitude s _ (if h : m = 0 then _ else .finite s m (e + 0) (Nat.pos_of_ne_zero h))
    by_cases hzero : m = 0
    · rw [dif_pos hzero, hzero, Nat.cast_zero, zero_mul]
      exact .zero
    · rw [dif_neg hzero]
      exact magnitude_finite _ ⟨hlt, by omega, fun h => hbit (by omega)⟩ (by rw [add_zero])

/-- **Rounding with what was lost.** The exact number is rounded to the format. -/
theorem magnitude_roundWithAccuracy {accuracy : Accuracy}
    (h : Represents (ExtendedMantissa.ofMantissaAndAccuracy m accuracy) t) (ht : 0 < t)
    (hm : 0 < m ∨ e ≤ -1074) (he : e ≤ target m e) :
    Magnitude s (roundPos (t * 2 ^ e)) (roundWithAccuracy Format.binary64 s m e accuracy) := by
  have hfloor : ⌊t⌋ = m := by rw [h.floor_eq, mantissa_ofMantissaAndAccuracy]
  have hplace := place_eq_target ht hfloor hm
  have hq : 0 < t * 2 ^ e := by positivity
  have hsplit : roundWithAccuracy Format.binary64 s m e accuracy =
      settled s (ExtendedMantissa.ofMantissaAndAccuracy m accuracy >>>
        (target m e - e).toNat).roundedMantissa (e + (target m e - e).toNat) := rfl
  have hshift : e + (target m e - e).toNat = target m e := by omega
  -- in units of the last place
  have hunits : t / 2 ^ (target m e - e).toNat = t * 2 ^ e / 2 ^ target m e := by
    rw [← hshift, zpow_add₀ (by norm_num), zpow_natCast, hshift]
    field_simp
  have hmantissa := (h.shiftRight (target m e - e).toNat).roundedMantissa_eq
  rw [hunits, ← hplace] at hmantissa
  obtain ⟨hle, hbit⟩ := mantissa_bounds hq hmantissa
  rw [hsplit, hshift, roundPos, ← hmantissa, Int.cast_natCast, ← hplace]
  exact magnitude_settled hle (lowest_le_place _) hbit

theorem log2_shiftLeft (hm : 0 < m) (k : Nat) : (m <<< k).log2 = m.log2 + k := by
  have hpos : 0 < m <<< k := by
    rw [Nat.shiftLeft_eq]
    exact Nat.mul_pos hm (Nat.pow_pos Nat.two_pos)
  have hlow := Nat.log2_self_le hm.ne'
  have hhigh : m < 2 ^ (m.log2 + 1) := Nat.lt_log2_self
  rw [Nat.log2_eq_iff hpos.ne', Nat.shiftLeft_eq, pow_add, Nat.add_right_comm, pow_add]
  exact ⟨Nat.mul_le_mul_right _ hlow, Nat.mul_lt_mul_of_pos_right hhigh (Nat.pow_pos Nat.two_pos)⟩

/-- **Rounding.** A mantissa with too few bits is shifted to the left before. -/
theorem magnitude_round (s : Sign) (hm : 0 < m) (e : Int) :
    Magnitude s (roundPos (m * 2 ^ e)) (round Format.binary64 s m e) := by
  obtain ⟨k, hk⟩ : ∃ k : Nat, (e - target m e).toNat = k := ⟨_, rfl⟩
  have hsplit : round Format.binary64 s m e =
      roundWithAccuracy Format.binary64 s (m <<< (e - target m e).toNat)
        (e - (e - target m e).toNat) .exact := rfl
  have hpos : 0 < m <<< k := by
    rw [Nat.shiftLeft_eq]
    exact Nat.mul_pos hm (Nat.pow_pos Nat.two_pos)
  have htarget : target (m <<< k) (e - k) = target m e := by
    unfold target
    rw [log2_shiftLeft hm]
    omega
  have hvalue : (m : ℚ) * 2 ^ e = (m <<< k : ℕ) * 2 ^ (e - k) := by
    rw [Nat.shiftLeft_eq, zpow_sub₀ (by norm_num), zpow_natCast]
    push_cast
    field_simp
  rw [hsplit, hk, hvalue]
  refine magnitude_roundWithAccuracy (represents_exact _) (by exact_mod_cast hpos) (.inl hpos) ?_
  rw [htarget]
  omega

end Reckoner.Double
