import Mathlib
import Reckoner.Proofs.Decimal.Nearest

/-!
# `Reckoner.Proofs.Decimal.Doubles` — doubles and their bits

The reading of a finite double is zero or in canonical form, and its sign and magnitude, put
together again, are the bits of the double.

## Contents
- **Fields.** The biased exponent of 64 bits as a number.
- **Readings.** `exists_finite`: the reading of a finite double.
- **Order.** `le_iff_not_lt`: finite doubles are in order one way or the other.
-/

namespace Reckoner

open Float.Model (Format)
open Float.Model.UnpackedFloat (unpack unpackExponent)

/-! ## Fields -/

theorem toNat_unpackExponent (bits : BitVec Format.binary64.numBits) :
    (unpackExponent bits).toNat = bits.toNat / 2 ^ 52 % 2 ^ 11 := by
  simp [unpackExponent, BitVec.extractLsb, Nat.shiftRight_eq_div_pow]

/-! ## Readings -/

/-- The exponent of a finite double is not the reserved one. -/
theorem biased_ne_reserved {x : Float} (h : x.isFinite = true) :
    x.toBits.toNat / Binary.implicitBit % (Binary.reservedExponent + 1) ≠ 2047 := by
  intro hreserved
  have hfield : @unpackExponent Format.binary64 x.toModel.toBits.toBitVec = -1#_ :=
    BitVec.eq_of_toNat_eq ((toNat_unpackExponent _).trans hreserved)
  unfold Float.isFinite Float.Model.isFinite Float.Model.unpack unpack at h
  dsimp only at h
  rw [if_pos hfield] at h
  split at h
  · exact absurd h nofun
  · exact absurd h nofun

section Forms

variable {negative : Bool} {biased low : Nat}

theorem canonical_subnormal (hpos : 0 < low) (hlow : low < Binary.implicitBit) :
    (⟨negative, low, Binary.minExponent⟩ : Binary).Canonical where
  mantissa_pos := hpos
  mantissa_lt := Nat.lt_of_lt_of_le hlow (Nat.le_mul_of_pos_left _ Nat.two_pos)
  exponent_ge := Int.le_refl _
  exponent_le := by
    change Binary.minExponent ≤ 971
    decide
  leading_bit h := absurd h (Int.lt_irrefl _)

theorem canonical_normal (hpos : 0 < biased) (hbiased : biased < Binary.reservedExponent)
    (hlow : low < Binary.implicitBit) :
    (⟨negative, Binary.implicitBit + low, (biased : Int) - 1075⟩ : Binary).Canonical where
  mantissa_pos := Nat.add_pos_left (by decide) _
  mantissa_lt := by
    change Binary.implicitBit + low < 2 * Binary.implicitBit
    omega
  exponent_ge := by
    change Binary.minExponent ≤ (biased : Int) - 1075
    unfold Binary.minExponent
    omega
  exponent_le := by
    change (biased : Int) - 1075 ≤ 971
    unfold Binary.reservedExponent at hbiased
    omega
  leading_bit _ := Nat.le_add_right _ _

theorem magnitudeBits_subnormal :
    (⟨negative, low, Binary.minExponent⟩ : Binary).magnitudeBits = low := by
  simp [Binary.magnitudeBits]

theorem magnitudeBits_normal (hpos : 0 < biased) :
    (⟨negative, Binary.implicitBit + low, (biased : Int) - 1075⟩ : Binary).magnitudeBits =
      biased * Binary.implicitBit + low := by
  obtain ⟨k, rfl⟩ := Nat.exists_eq_succ_of_ne_zero hpos.ne'
  have hexponent : ((k.succ : Int) - 1075 - Binary.minExponent).toNat = k := by
    unfold Binary.minExponent
    omega
  rw [Binary.magnitudeBits, hexponent, Nat.succ_mul, Nat.add_assoc]

end Forms

/-- The sign of 64 bits, at its place. -/
theorem signBit_eq {n : Nat} (h : n < 2 ^ 64) :
    Decimal.signBit (n / Binary.signWeight == 1) = n / 2 ^ 63 * 2 ^ 63 := by
  unfold Decimal.signBit Binary.signWeight
  split
  · rename_i hone
    rw [beq_iff_eq] at hone
    omega
  · rename_i hone
    rw [beq_iff_eq] at hone
    omega

/-- The three fields of a number make it up. -/
theorem fields_eq (n : Nat) : n / 2 ^ 63 * 2 ^ 63 +
    (n / Binary.implicitBit % (Binary.reservedExponent + 1) * Binary.implicitBit +
      n % Binary.implicitBit) = n := by
  unfold Binary.implicitBit Binary.reservedExponent
  omega

/-- **The reading of a finite double**: zero or in canonical form, with the double's bits. -/
theorem exists_finite {x : Float} (h : x.isFinite = true) :
    ∃ b : Binary, Reading.ofFloat x = .finite b ∧
      (b.mantissa = 0 ∧ b.magnitudeBits = 0 ∨ b.Canonical) ∧
      Decimal.signBit b.negative + b.magnitudeBits = x.toBits.toNat := by
  have hreserved := biased_ne_reserved h
  have hbits : x.toBits.toNat < 2 ^ 64 := x.toBits.toNat_lt
  unfold Reading.ofFloat Reading.ofBits
  dsimp only
  generalize x.toBits.toNat = n at hreserved hbits
  have hlow : n % Binary.implicitBit < Binary.implicitBit := Nat.mod_lt _ (by decide)
  have hbiased : n / Binary.implicitBit % (Binary.reservedExponent + 1) <
      Binary.reservedExponent + 1 := Nat.mod_lt _ (by decide)
  have hsign := signBit_eq hbits
  have hfields := fields_eq n
  generalize n % Binary.implicitBit = low at *
  generalize n / Binary.implicitBit % (Binary.reservedExponent + 1) = biased at *
  rw [if_neg (by simpa [Binary.reservedExponent] using hreserved)]
  split
  · -- without a leading bit, the lowest exponent is meant
    rename_i hzero
    rw [beq_iff_eq] at hzero
    refine ⟨_, rfl, ?_, ?_⟩
    · rw [magnitudeBits_subnormal]
      exact low.eq_zero_or_pos.imp (fun h => ⟨h, h⟩) fun hpos => canonical_subnormal hpos hlow
    · rw [hzero, Nat.zero_mul, Nat.zero_add] at hfields
      rw [magnitudeBits_subnormal, hsign, hfields]
  · rename_i hzero
    have hpos : 0 < biased := Nat.pos_of_ne_zero fun h => hzero (beq_iff_eq.mpr h)
    have hless : biased < Binary.reservedExponent :=
      Nat.lt_of_le_of_ne (Nat.lt_succ_iff.mp hbiased) hreserved
    refine ⟨_, rfl, .inr (canonical_normal hpos hless hlow), ?_⟩
    rw [magnitudeBits_normal hpos, hsign, hfields]

/-! ## Order -/

/-- Two finite doubles compare, and the other way round with the opposite outcome. -/
theorem exists_compare {a b : Float.Model.UnpackedFloat} (ha : a.isFinite = true)
    (hb : b.isFinite = true) : ∃ o, a.compare b = some o ∧ b.compare a = some o.swap := by
  cases a with
  | infinity s => exact absurd ha nofun
  | notANumber => exact absurd ha nofun
  | zero s =>
      cases b with
      | infinity s => exact absurd hb nofun
      | notANumber => exact absurd hb nofun
      | zero s => exact ⟨.eq, rfl, rfl⟩
      | finite s m e hm => cases s <;> exact ⟨_, rfl, rfl⟩
  | finite s m e hm =>
      cases b with
      | infinity s => exact absurd hb nofun
      | notANumber => exact absurd hb nofun
      | zero s' => cases s <;> exact ⟨_, rfl, rfl⟩
      | finite s' m' e' hm' =>
          have hswap : ((compare e' e).then (compare m' m)) =
              ((compare e e').then (compare m m')).swap := by
            rw [Ordering.swap_then, Std.OrientedOrd.eq_swap (a := e'),
              Std.OrientedOrd.eq_swap (a := m')]
          -- exponents decide before mantissas, since both readings are in canonical form
          cases s <;> cases s'
          · refine ⟨_, rfl, ?_⟩
            simp [Float.Model.UnpackedFloat.compare, hswap]
          · exact ⟨_, rfl, rfl⟩
          · exact ⟨_, rfl, rfl⟩
          · refine ⟨_, rfl, ?_⟩
            simp [Float.Model.UnpackedFloat.compare, hswap]

/-- Of two finite doubles the first is at most the second unless the second is less. -/
theorem le_iff_not_lt {x y : Float} (hx : x.isFinite = true) (hy : y.isFinite = true) :
    x ≤ y ↔ ¬ y < x := by
  obtain ⟨o, hxy, hyx⟩ := exists_compare hx hy
  have hle : x ≤ y ↔ o.isLE = true := by
    show decide (x.toModel.unpack.le y.toModel.unpack = true) = true ↔ _
    rw [decide_eq_true_iff, Float.Model.UnpackedFloat.le, hxy, Option.any_some]
  have hlt : y < x ↔ o.swap = .lt := by
    show decide (y.toModel.unpack.lt x.toModel.unpack = true) = true ↔ _
    rw [decide_eq_true_iff, Float.Model.UnpackedFloat.lt, hyx, beq_iff_eq, Option.some.injEq]
  rw [hle, hlt]
  cases o <;> decide

end Reckoner
