import Reckoner.Proofs.Decimal.Nearest
import Reckoner.Proofs.Double.Arithmetic

/-!
# `Reckoner.Proofs.Decimal.Literals` — a literal is read as the nearest double

The number that a literal writes is a rational number, and the literal is read as that number,
rounded: to the nearest double, ties to the even one, and to infinity from the middle above the
greatest double on.

## Contents
- **Fractions.** `nearestBits_eq_min`: fractions are rounded half to even at their last place.
- **Doubles.** `Reads`: a double is what a number that is not negative is read as.
- **Decimals.** `reads_toFloat`, for every decimal.
- **Literals.** `Writes`: a literal and the number that it writes; `reads_floatOfLiteral` and
  `floatOfLiteral_nearest`.
-/

namespace Reckoner.Decimal

open Double
open Float.Model (Format UnpackedFloat)

variable {num den m : Nat} {e : Int} {q : ℚ} {x y : Float} {d : Decimal}

/-! ## Fractions -/

/-- **Division is rounded half to even.** -/
theorem roundDiv_eq_halfEven (num : Nat) (hden : 0 < den) :
    (roundDiv num den : ℤ) = halfEven (num / den) := by
  have hpos : (0 : ℚ) < den := Nat.cast_pos.mpr hden
  have hfloor : ⌊(num / den : ℚ)⌋ = (num / den : ℕ) := Rat.floor_natCast_div_natCast num den
  have hfract : Int.fract (num / den : ℚ) = (num % den : ℕ) / den := by
    rw [Int.fract, hfloor, ← div_add_mod_cast num hden, Int.cast_natCast, add_sub_cancel_left]
  -- the side of a half on which the fraction lies is told by twice the remainder
  rcases lt_trichotomy (2 * (num % den)) den with hless | hhalf | hmore
  · rw [roundDiv_below hless.le fun htie => absurd htie hless.ne, halfEven_of_lt, hfloor]
    rw [hfract, div_lt_div_iff₀ hpos (by norm_num)]
    exact_mod_cast (by omega : num % den * 2 < 1 * den)
  · have hfraction : Int.fract (num / den : ℚ) = 1 / 2 := by
      rw [hfract, div_eq_div_iff hpos.ne' (by norm_num)]
      exact_mod_cast (by omega : num % den * 2 = 1 * den)
    rw [halfEven_of_eq hfraction, hfloor]
    rcases Nat.mod_two_eq_zero_or_one (num / den) with heven | hodd
    · rw [roundDiv_below hhalf.le fun _ => heven]
      omega
    · rw [roundDiv_above hhalf.ge fun _ => hodd]
      omega
  · rw [roundDiv_above hmore.le fun htie => absurd htie hmore.ne', halfEven_of_gt, hfloor]
    · push_cast
      rfl
    · rw [hfract, div_lt_div_iff₀ (by norm_num) hpos]
      exact_mod_cast (by omega : 1 * den < num % den * 2)

/-- And so is division in units of a power of two. -/
theorem roundDiv_scaled_eq_halfEven (num : Nat) (hden : 0 < den) (p : Int) :
    ((if 0 ≤ p then roundDiv num (den * Nat.pow 2 p.toNat)
      else roundDiv (num * Nat.pow 2 (-p).toNat) den : ℕ) : ℤ) = halfEven (num / den / 2 ^ p) := by
  by_cases hp : 0 ≤ p
  · have hunits : 0 < den * Nat.pow 2 p.toNat := Nat.mul_pos hden (Nat.pow_pos Nat.two_pos)
    rw [if_pos hp, div_zpow_of_nonneg num den hp, roundDiv_eq_halfEven num hunits]
  · rw [if_neg hp, div_zpow_of_neg num den hp, roundDiv_eq_halfEven _ hden]

theorem place_eq_lastPlace (hnum : 0 < num) (hden : 0 < den) :
    place (num / den) = lastPlace num den :=
  place_eq (div_pos (Nat.cast_pos.mpr hnum) (Nat.cast_pos.mpr hden)) (lt_lastPlace hnum hden)
    (lastPlace_le hnum hden).1 (lastPlace_le hnum hden).2

/-- **The bits of a fraction** are those of its rounding, unless infinity has fewer. -/
theorem nearestBits_eq_min (hnum : 0 < num) (hden : 0 < den) :
    ∃ m : Nat, (m : ℤ) = halfEven (num / den / 2 ^ place (num / den)) ∧
      nearestBits num den =
        min ((place (num / den) + 1074).toNat * 2 ^ 52 + m) infinityBits := by
  refine ⟨_, roundDiv_scaled_eq_halfEven num hden _, ?_⟩
  rw [place_eq_lastPlace hnum hden, nearestBits, if_neg (by simpa using hnum.ne')]
  rfl

/-! ## Doubles -/

/-- What a number that is not negative is read as: its rounding, and no negative zero. -/
structure Reads (q : ℚ) (x : Float) : Prop where
  rounds : Rounds q x
  not_negative_zero : parts x ≠ .zero .negative

theorem reads_of_magnitude {u : UnpackedFloat} (h : Magnitude .positive (roundPos q) u) (hq : 0 ≤ q)
    (hx : parts x = repacked u) : Reads q x := by
  have hrounds := h.rounds hq hx
  rw [signum, one_mul] at hrounds
  constructor
  · exact hrounds
  · rw [hx]
    generalize roundPos q = magnitude at h
    cases h with
    | zero =>
        rw [repacked_zero]
        simp
    | @finite m e hm shape =>
        by_cases he : e ≤ 971
        · rw [repacked_finite shape he]
          simp
        · rw [repacked_overflow (not_le.mp he)]
          simp

theorem parts_infinityBits :
    parts (Float.ofBits (UInt64.ofNat infinityBits)) = .infinity .positive := rfl

theorem parts_zeroBits : parts (Float.ofBits (UInt64.ofNat 0)) = .zero .positive := rfl

/-- What is rounded to nothing is read as zero. -/
theorem reads_zeroBits (h : roundPos q = 0) (hq : 0 ≤ q) :
    Reads q (Float.ofBits (UInt64.ofNat 0)) := by
  refine reads_of_magnitude (u := .zero .positive) ?_ hq (parts_zeroBits.trans ?_)
  · rw [h]
    exact .zero
  · exact (repacked_zero .positive).symm

/-- The bits of a mantissa and an exponent, cut off at infinity, are those of what is packed. -/
theorem parts_ofBits_min (h : Shape m e) (hm : 0 < m) :
    parts (Float.ofBits (UInt64.ofNat (min ((e + 1074).toNat * 2 ^ 52 + m) infinityBits))) =
      repacked (.finite .positive m e hm) := by
  have hge := h.exponent_ge
  have hlt := h.mantissa_lt
  have hinfinity : infinityBits = 2047 * 2 ^ 52 := by decide
  by_cases he : e ≤ 971
  · rw [repacked_finite h he, Nat.min_eq_left (by omega), parts_ofBits_finite h he]
  · have hbit := h.leading_bit (by omega)
    rw [repacked_overflow (not_le.mp he), Nat.min_eq_right (by omega), parts_infinityBits]

/-- **Bits of a rounded magnitude.** A mantissa that was rounded up to `2 ^ 53` carries into the
    exponent, where it is the leading bit of the next one. -/
theorem exists_magnitude (hle : m ≤ 2 ^ 53) (hge : -1074 ≤ e) (hbit : -1074 < e → 2 ^ 52 ≤ m) :
    ∃ u, Magnitude .positive (m * 2 ^ e) u ∧
      parts (Float.ofBits (UInt64.ofNat (min ((e + 1074).toNat * 2 ^ 52 + m) infinityBits))) =
        repacked u := by
  rcases Nat.eq_zero_or_pos m with rfl | hm
  · have he : (e + 1074).toNat = 0 := by omega
    refine ⟨.zero .positive, ?_, ?_⟩
    · rw [Nat.cast_zero, zero_mul]
      exact .zero
    · rw [he, Nat.zero_mul, Nat.zero_add, Nat.zero_min, parts_zeroBits, repacked_zero]
  · rcases hle.eq_or_lt with rfl | hlt
    · have hshape : Shape (2 ^ 52) (e + 1) := ⟨by decide, by omega, fun _ => le_refl _⟩
      have hcarry : (e + 1074).toNat * 2 ^ 52 + 2 ^ 53 =
          (e + 1 + 1074).toNat * 2 ^ 52 + 2 ^ 52 := by omega
      refine ⟨.finite .positive (2 ^ 52) (e + 1) (by decide), ?_, ?_⟩
      · refine magnitude_finite _ hshape ?_
        rw [zpow_add_one₀ (by norm_num)]
        push_cast
        ring
      · rw [hcarry, parts_ofBits_min hshape]
    · have hshape : Shape m e := ⟨hlt, hge, hbit⟩
      exact ⟨.finite .positive m e hm, .finite hm hshape, parts_ofBits_min hshape hm⟩

/-- **Fractions** are read as the nearest doubles. -/
theorem reads_nearestBits (num : Nat) (hden : 0 < den) :
    Reads (num / den) (Float.ofBits (UInt64.ofNat (nearestBits num den))) := by
  rcases Nat.eq_zero_or_pos num with rfl | hnum
  · have hbits : nearestBits 0 den = 0 := rfl
    rw [Nat.cast_zero, zero_div, hbits]
    exact reads_zeroBits roundPos_zero (le_refl _)
  · have hpos : (0 : ℚ) < num / den := div_pos (Nat.cast_pos.mpr hnum) (Nat.cast_pos.mpr hden)
    obtain ⟨m, hm, hbits⟩ := nearestBits_eq_min hnum hden
    generalize (num / den : ℚ) = q at *
    obtain ⟨hle, hbit⟩ := mantissa_bounds hpos hm
    have hvalue : roundPos q = m * 2 ^ place q := by rw [roundPos, ← hm, Int.cast_natCast]
    obtain ⟨u, hmagnitude, hparts⟩ := exists_magnitude hle (lowest_le_place q) hbit
    rw [hbits]
    exact reads_of_magnitude (hvalue ▸ hmagnitude) hpos.le hparts

/-! ## Decimals -/

/-- What is above all doubles is read as infinity. -/
theorem reads_infinityBits (h : 2 ^ 1024 ≤ q) :
    Reads q (Float.ofBits (UInt64.ofNat infinityBits)) := by
  have hq : 0 ≤ q := le_trans (by positivity) h
  have hpower : roundPos (2 ^ 1024) = 2 ^ 1024 := by
    have hself := roundPos_natCast_mul (n := 1) (p := 1024) (by decide) (by decide)
    rwa [Nat.cast_one, one_mul] at hself
  have hlarge : 2 ^ 1024 ≤ |rounded q| := by
    rw [rounded_of_nonneg hq, abs_of_nonneg (roundPos_nonneg hq), ← hpower]
    exact roundPos_mono (by positivity) h
  have hrounds : Rounds q (Float.ofBits (UInt64.ofNat infinityBits)) := by
    constructor
    · intro hsmall
      exact absurd hlarge (not_le.mpr hsmall)
    · intro _
      rw [parts_infinityBits, if_neg (not_lt.mpr hq)]
  constructor
  · exact hrounds
  · rw [parts_infinityBits]
    simp

theorem two_pow_1024_le : (2 : ℚ) ^ 1024 ≤ 10 ^ 401 := by
  have hpower : ((2 ^ 53 * 2 ^ 971 : ℕ) : ℚ) ≤ (10 ^ 401 : ℕ) := Nat.cast_le.mpr two_pow_1024_lt.le
  rw [← pow_add, Nat.cast_pow, Nat.cast_pow] at hpower
  exact hpower

theorem inv_ten_pow_400_lt : ((10 : ℚ) ^ 400)⁻¹ < 1 / 2 * 2 ^ (-1074 : ℤ) := by
  have hpower : ((2 * 2 ^ 1074 : ℕ) : ℚ) < (10 ^ 400 : ℕ) := Nat.cast_lt.mpr two_pow_1075_lt
  rw [Nat.cast_mul, Nat.cast_pow, Nat.cast_pow, Nat.cast_ofNat, Nat.cast_ofNat] at hpower
  rw [zpow_neg, one_div, ← mul_inv, inv_lt_inv₀ (by positivity) (by positivity)]
  exact hpower

/-- **Decimals** are read as the nearest doubles, whether they are expanded or not. -/
theorem reads_toFloat (d : Decimal) : Reads d.toRat (toFloat false d) := by
  unfold toFloat
  dsimp only
  rw [signBit, if_neg Bool.false_ne_true, Nat.zero_add]
  by_cases hzero : d.coefficient = 0
  · have hvalue : d.toRat = 0 := by rw [toRat, hzero, Nat.cast_zero, zero_mul]
    rw [if_pos (beq_iff_eq.mpr hzero), hvalue]
    exact reads_zeroBits roundPos_zero (le_refl _)
  · have hpos : 0 < d.coefficient := Nat.pos_of_ne_zero hzero
    have hvalue : 0 < d.toRat := mul_pos (Nat.cast_pos.mpr hpos) (by positivity)
    rw [if_neg (by simpa using hzero)]
    split
    · rename_i hlarge
      exact reads_infinityBits (two_pow_1024_le.trans (le_toRat_of_large hpos hlarge))
    · split
      · rename_i hsmall
        have hless := (toRat_le_of_small hsmall).trans_lt inv_ten_pow_400_lt
        exact reads_zeroBits (roundPos_eq_zero hvalue hless) hvalue.le
      · split
        · rename_i hexponent
          rw [toRat_of_nonneg hexponent]
          exact reads_nearestBits _ Nat.one_pos
        · rename_i hexponent
          rw [toRat_of_neg hexponent]
          exact reads_nearestBits _ (Nat.pow_pos (by decide))

/-! ## Literals -/

/-- A run of digits. -/
def AreDigits (ds : List Char) : Prop := ∀ c ∈ ds, c.isDigit = true

/-- The whole number that a run of digits writes. -/
def wholeNumber (ds : List Char) : ℕ := Nat.ofDigitChars 10 ds 0

/-- A mantissa and its number: digits, or digits around a point. -/
inductive WritesMantissa : List Char → ℚ → Prop
  | whole {ds : List Char} (digits : AreDigits ds) : WritesMantissa ds (wholeNumber ds)
  | pointed {ds places : List Char} (digits : AreDigits ds) (behind : AreDigits places) :
      WritesMantissa (ds ++ '.' :: places)
        (wholeNumber ds + wholeNumber places / 10 ^ places.length)

/-- A power of ten and its number. -/
inductive WritesPower : List Char → ℚ → Prop
  | absent : WritesPower [] 1
  | unsigned {mark : Char} {ds : List Char} (marked : mark = 'e' ∨ mark = 'E')
      (digits : AreDigits ds) : WritesPower (mark :: ds) (10 ^ wholeNumber ds)
  | plus {mark : Char} {ds : List Char} (marked : mark = 'e' ∨ mark = 'E')
      (digits : AreDigits ds) : WritesPower (mark :: '+' :: ds) (10 ^ wholeNumber ds)
  | minus {mark : Char} {ds : List Char} (marked : mark = 'e' ∨ mark = 'E')
      (digits : AreDigits ds) : WritesPower (mark :: '-' :: ds) (1 / 10 ^ wholeNumber ds)

/-- **A literal and the number that it writes.** -/
inductive Writes : List Char → ℚ → Prop
  | scaled {mantissa power : List Char} {q r : ℚ} (number : WritesMantissa mantissa q)
      (scale : WritesPower power r) : Writes (mantissa ++ power) (q * r)

variable {w ds power : List Char} {r : ℚ}

theorem intOfDigits_of_areDigits (h : AreDigits ds) : intOfDigits ds = wholeNumber ds := by
  unfold intOfDigits
  split
  · exact absurd (h '-' List.mem_cons_self) (by decide)
  · exact absurd (h '+' List.mem_cons_self) (by decide)
  · rfl

theorem isExponentMark_of_eq {c : Char} (h : c = 'e' ∨ c = 'E') : isExponentMark c = true := by
  rcases h with rfl | rfl <;> decide

/-- A power of ten begins with its mark, and its exponent is read behind that. -/
theorem WritesPower.spec (h : WritesPower power r) :
    (∀ c ∈ power.head?, isExponentMark c = true) ∧ r = 10 ^ intOfDigits (power.drop 1) := by
  cases h with
  | absent => exact ⟨nofun, (zpow_zero 10).symm⟩
  | @unsigned mark ds marked digits =>
      refine ⟨fun c hc => Option.some.inj hc ▸ isExponentMark_of_eq marked, ?_⟩
      rw [List.drop_one, List.tail_cons, intOfDigits_of_areDigits digits, zpow_natCast]
  | @plus mark ds marked digits =>
      exact ⟨fun c hc => Option.some.inj hc ▸ isExponentMark_of_eq marked, (zpow_natCast _ _).symm⟩
  | @minus mark ds marked digits =>
      refine ⟨fun c hc => Option.some.inj hc ▸ isExponentMark_of_eq marked, ?_⟩
      have hexponent : intOfDigits ('-' :: ds) = -(wholeNumber ds : ℤ) := rfl
      rw [List.drop_one, List.tail_cons, hexponent, zpow_neg, zpow_natCast, one_div]

/-- **A literal has the number that it writes.** -/
theorem Writes.toRat_ofLiteral (h : Writes w q) : (ofLiteral w).toRat = q := by
  cases h with
  | @scaled mantissa power q r number scale =>
      obtain ⟨hmark, rfl⟩ := scale.spec
      cases number with
      | whole digits =>
          have hliteral := @ofLiteral_eq _ [] _ digits nofun nofun hmark
          rw [List.drop_nil, List.append_nil, List.length_nil, Nat.cast_zero,
            sub_zero] at hliteral
          rw [hliteral]
          rfl
      | @pointed ds places digits behind =>
          have hpoint : ∀ c ∈ ('.' :: places).head?, c = '.' := fun c hc => (Option.some.inj hc).symm
          have hplaces : ∀ c ∈ '.' :: places, isExponentMark c = false :=
            List.forall_mem_cons.mpr ⟨by decide, fun c hc => not_mark_of_isDigit (behind c hc)⟩
          have hliteral := ofLiteral_eq digits hpoint hplaces hmark
          rw [List.drop_one, List.tail_cons, natOfDigits_append] at hliteral
          -- the places are units of the last one, and each of them is a tenth
          rw [hliteral, toRat, zpow_sub₀ (by norm_num), zpow_natCast]
          show ((wholeNumber ds * 10 ^ places.length + wholeNumber places : ℕ) : ℚ) * _ = _
          push_cast
          field_simp

/-- **Literals** are read as the numbers that they write, rounded. -/
theorem reads_floatOfLiteral (h : Writes w q) : Reads q (floatOfLiteral w) :=
  h.toRat_ofLiteral ▸ reads_toFloat (ofLiteral w)

theorem Writes.nonneg (h : Writes w q) : 0 ≤ q := by
  rw [← h.toRat_ofLiteral, toRat]
  positivity

/-- **No finite double is nearer** to the number than what the literal is read as, if that is finite
    itself. -/
theorem floatOfLiteral_nearest (h : Writes w q) (hfinite : (floatOfLiteral w).isFinite = true)
    (hy : y.isFinite = true) :
    |Double.toRat (floatOfLiteral w) - q| ≤ |Double.toRat y - q| :=
  (reads_floatOfLiteral h).rounds.nearest h.nonneg hfinite hy

end Reckoner.Decimal
