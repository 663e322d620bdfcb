import Mathlib

/-!
# `Reckoner.Proofs.Double.Packing` — doubles as signs, mantissas and exponents

An operation on doubles unpacks its operands, computes on signs, mantissas and exponents, and packs
the result into 64 bits again. What is rounded to the format is not changed by packing, unless its
exponent is too large: then it becomes an infinity.

## Contents
- **Parts.** `parts`, a double unpacked, and `Shape`: mantissas and exponents in the format.
- **Packing.** `repacked`: what is left of a result behind packing.
- **Bits.** `parts_ofBits_finite`: the bits of a mantissa and an exponent.
- **Operations.** The parts of a result, for each operation.
-/

namespace Reckoner.Double

open Float.Model (Format UnpackedFloat)
open Float.Model.UnpackedFloat

/-! ## Parts -/

/-- A double, unpacked. -/
def parts (x : Float) : UnpackedFloat := x.toModel.unpack

/-- Mantissas and exponents of the format: the mantissa has its leading bit unless the exponent is
    the lowest. The exponent may still be too large for a double. -/
structure Shape (m : Nat) (e : Int) : Prop where
  mantissa_lt : m < 2 ^ 53
  exponent_ge : -1074 ≤ e
  leading_bit : -1074 < e → 2 ^ 52 ≤ m

variable {s : Sign} {m : Nat} {e : Int} {hm : 0 < m}

/-- A mantissa with the leading bit that is not stored. -/
theorem toNat_implicit (low : BitVec 52) : (1#1 ++ low).toNat = 2 ^ 52 + low.toNat := by
  rw [BitVec.toNat_append, ← Nat.shiftLeft_add_eq_or_of_lt low.isLt]
  rfl

/-- What is unpacked has the format's shape. -/
theorem shape_of_unpack {bits : BitVec Format.binary64.numBits}
    (h : unpack Format.binary64 bits = .finite s m e hm) : Shape m e ∧ e ≤ 971 := by
  have hexponent : (@unpackExponent Format.binary64 bits).toNat < 2048 := BitVec.isLt _
  have hlow : (@unpackMantissa Format.binary64 bits).toNat < 2 ^ 52 := BitVec.isLt _
  unfold unpack at h
  dsimp only at h
  split at h
  · split at h <;> exact absurd h (by simp)
  · rename_i hreserved
    split at h
    · split at h
      · exact absurd h (by simp)
      · rename_i hzero _
        obtain ⟨-, rfl, rfl⟩ := UnpackedFloat.finite.inj h
        rw [hzero]
        exact ⟨⟨Nat.lt_trans hlow (by decide), by decide, fun hlt => absurd hlt (by decide)⟩,
          by decide⟩
    · rename_i hzero
      obtain ⟨-, rfl, rfl⟩ := UnpackedFloat.finite.inj h
      have hpos : (@unpackExponent Format.binary64 bits).toNat ≠ 0 :=
        fun h0 => hzero (BitVec.eq_of_toNat_eq h0)
      have hless : (@unpackExponent Format.binary64 bits).toNat ≠ 2047 :=
        fun h0 => hreserved (BitVec.eq_of_toNat_eq h0)
      have hmantissa := toNat_implicit (@unpackMantissa Format.binary64 bits)
      refine ⟨⟨by omega, ?_, fun _ => by omega⟩, ?_⟩
      · change (-1074 : Int) ≤ (@unpackExponent Format.binary64 bits).toNat - 1075
        omega
      · change ((@unpackExponent Format.binary64 bits).toNat : Int) - 1075 ≤ 971
        omega

/-! ## Packing -/

/-- What is left of a result when it has been packed into a double. -/
def repacked (u : UnpackedFloat) : UnpackedFloat :=
  unpack Format.binary64 (pack Format.binary64 u)

@[simp] theorem repacked_notANumber : repacked .notANumber = .notANumber := rfl

@[simp] theorem repacked_infinity (s : Sign) : repacked (.infinity s) = .infinity s := by
  cases s <;> rfl

@[simp] theorem repacked_zero (s : Sign) : repacked (.zero s) = .zero s := by
  cases s <;> rfl

/-- A result with too large an exponent becomes an infinity. -/
theorem repacked_overflow (he : 971 < e) : repacked (.finite s m e hm) = .infinity s := by
  have hbiased : 2 ^ 11 ≤ (e + (1023 : Nat) + (52 : Nat)).toNat + 1 := by omega
  have hpack : pack Format.binary64 (.finite s m e hm) = pack Format.binary64 (.infinity s) :=
    if_pos hbiased
  rw [repacked, hpack]
  exact repacked_infinity s

/-- The fields of a double with the lowest exponent. -/
theorem unpack_subnormal {low : BitVec 52} (hlow : low ≠ 0#52) :
    unpack Format.binary64 (packComponents Format.binary64 s 0#11 low) =
      .finite s low.toNat (-1074) (Nat.pos_of_ne_zero fun h => hlow (BitVec.eq_of_toNat_eq h)) := by
  unfold unpack
  simp only [unpackMantissa_packComponents, unpackExponent_packComponents,
    unpackSign_packComponents, Sign.ofBitVec_toBitVec]
  rw [if_neg (by decide), if_true, dif_neg hlow]
  rfl

/-- The fields of a double with a leading bit. -/
theorem unpack_normal {biased : BitVec 11} {low : BitVec 52} (hpos : biased ≠ 0#11)
    (hreserved : biased ≠ -1#11) :
    unpack Format.binary64 (packComponents Format.binary64 s biased low) =
      .finite s (1#1 ++ low).toNat (biased.toNat - 1075)
        (toNat_implicit low ▸ Nat.add_pos_left (by decide) _) := by
  unfold unpack
  simp only [unpackMantissa_packComponents, unpackExponent_packComponents,
    unpackSign_packComponents, Sign.ofBitVec_toBitVec]
  rw [if_neg hreserved, if_neg hpos]
  rfl

/-- With 53 bits the exponent is packed, and the leading bit is left out. -/
theorem pack_normal (h : Shape m e) (he : e ≤ 971) (hbit : 2 ^ 52 ≤ m) :
    pack Format.binary64 (.finite s m e hm) =
      packComponents Format.binary64 s (BitVec.ofNat 11 (e + 1075).toNat) (BitVec.ofNat 52 m) := by
  have hge := h.exponent_ge
  have hsmall : ¬2 ^ 11 ≤ (e + (1023 : Nat) + (52 : Nat)).toNat + 1 := by omega
  have hlog : m.log2 + 1 = 53 := by
    have := (Nat.le_log2 hm.ne').mpr hbit
    have := (Nat.log2_lt hm.ne').mpr h.mantissa_lt
    omega
  have hpack : pack Format.binary64 (.finite s m e hm) =
      packComponents Format.binary64 s
        (BitVec.ofNat 11 (e + (1023 : Nat) + (52 : Nat)).toNat) (BitVec.ofNat 52 m) :=
    (if_neg hsmall).trans (if_pos hlog)
  have hbiased : e + (1023 : Nat) + (52 : Nat) = e + 1075 := by omega
  rw [hpack, hbiased]

/-- With fewer bits the exponent is the lowest, and packed as zero. -/
theorem pack_subnormal (h : Shape m e) (hbit : m < 2 ^ 52) :
    pack Format.binary64 (.finite s m e hm) =
      packComponents Format.binary64 s 0#11 (BitVec.ofNat 52 m) := by
  have hge := h.exponent_ge
  have hlowest : ¬-1074 < e := fun hlt => Nat.not_le_of_lt hbit (h.leading_bit hlt)
  have hsmall : ¬2 ^ 11 ≤ (e + (1023 : Nat) + (52 : Nat)).toNat + 1 := by omega
  have hlog : ¬m.log2 + 1 = 53 := by
    have := (Nat.log2_lt hm.ne').mpr hbit
    omega
  exact (if_neg hsmall).trans (if_neg hlog)

/-- **A rounded result is not changed by packing**, unless its exponent is too large. -/
theorem repacked_finite (h : Shape m e) (he : e ≤ 971) :
    repacked (.finite s m e hm) = .finite s m e hm := by
  have hlt := h.mantissa_lt
  have hge := h.exponent_ge
  have hlow : (BitVec.ofNat 52 m).toNat = m % 2 ^ 52 := BitVec.toNat_ofNat ..
  by_cases hbit : 2 ^ 52 ≤ m
  · obtain ⟨biased, hbiased⟩ : ∃ k : Nat, (e + 1075).toNat = k := ⟨_, rfl⟩
    have hfield : (BitVec.ofNat 11 biased).toNat = biased := by
      rw [BitVec.toNat_ofNat]
      exact Nat.mod_eq_of_lt (by omega)
    have hpos : BitVec.ofNat 11 biased ≠ 0#11 := fun h0 => by
      have : biased = 0 := hfield.symm.trans (congrArg BitVec.toNat h0)
      omega
    have hreserved : BitVec.ofNat 11 biased ≠ -1#11 := fun h0 => by
      have : biased = 2047 := hfield.symm.trans (congrArg BitVec.toNat h0)
      omega
    rw [repacked, pack_normal h he hbit, hbiased, unpack_normal hpos hreserved]
    simp only [UnpackedFloat.finite.injEq, toNat_implicit, hlow, hfield, true_and]
    omega
  · have hless := Nat.lt_of_not_le hbit
    have hne : BitVec.ofNat 52 m ≠ 0#52 := fun h0 => by
      have : m % 2 ^ 52 = 0 := hlow.symm.trans (congrArg BitVec.toNat h0)
      omega
    have hlowest : ¬-1074 < e := fun hlt => hbit (h.leading_bit hlt)
    rw [repacked, pack_subnormal h hless, unpack_subnormal hne]
    simp only [UnpackedFloat.finite.injEq, hlow, true_and]
    omega

/-! ## Bits -/

/-- The fields of a double without a sign, as a number. -/
theorem toNat_packComponents (biased : BitVec 11) (low : BitVec 52) :
    (packComponents Format.binary64 .positive biased low).toNat =
      biased.toNat * 2 ^ 52 + low.toNat := by
  have hfields : (packComponents Format.binary64 .positive biased low).toNat =
      ((0#1 ++ biased) ++ low).toNat := rfl
  rw [hfields, BitVec.toNat_append, ← Nat.shiftLeft_add_eq_or_of_lt low.isLt, Nat.shiftLeft_eq,
    BitVec.toNat_append]
  simp

/-- **The bits of a mantissa and an exponent** without a sign: the exponents are numbered from the
    lowest, and the leading bit adds one. -/
theorem toNat_pack (h : Shape m e) (he : e ≤ 971) :
    (pack Format.binary64 (.finite .positive m e hm)).toNat = (e + 1074).toNat * 2 ^ 52 + m := by
  have hlt := h.mantissa_lt
  have hge := h.exponent_ge
  by_cases hbit : 2 ^ 52 ≤ m
  · rw [pack_normal h he hbit, toNat_packComponents, BitVec.toNat_ofNat, BitVec.toNat_ofNat]
    omega
  · have hlowest : ¬-1074 < e := fun hlt => hbit (h.leading_bit hlt)
    rw [pack_subnormal h (Nat.lt_of_not_le hbit), toNat_packComponents, BitVec.toNat_ofNat,
      BitVec.toNat_ofNat]
    omega

/-- A double is unpacked from its bits. -/
theorem parts_ofBits (bits : UInt64) :
    parts (Float.ofBits bits) = repacked (unpack Format.binary64 bits.toBitVec) := by
  unfold parts Float.ofBits Float.Model.ofBits Float.Model.pack Float.Model.unpack repacked
  rfl

/-- **Bits that are put together are unpacked again.** -/
theorem parts_ofBits_finite (h : Shape m e) (he : e ≤ 971) :
    parts (Float.ofBits (UInt64.ofNat ((e + 1074).toNat * 2 ^ 52 + m))) =
      .finite .positive m e hm := by
  have hlt := h.mantissa_lt
  have hge := h.exponent_ge
  have hbits : (UInt64.ofNat ((e + 1074).toNat * 2 ^ 52 + m)).toBitVec =
      pack Format.binary64 (.finite .positive m e hm) := by
    apply BitVec.eq_of_toNat_eq
    rw [toNat_pack h he, UInt64.toNat_toBitVec]
    exact UInt64.toNat_ofNat_of_lt' (by rw [UInt64.size]; omega)
  rw [parts_ofBits, hbits]
  show repacked (repacked (.finite .positive m e hm)) = _
  rw [repacked_finite h he, repacked_finite h he]

/-! ## Operations -/

variable {x y : Float}

theorem parts_add (x y : Float) :
    parts (x + y) = repacked (add Format.binary64 (parts x) (parts y)) := rfl

theorem parts_mul (x y : Float) :
    parts (x * y) = repacked (mul Format.binary64 (parts x) (parts y)) := rfl

theorem parts_div (x y : Float) :
    parts (x / y) = repacked (div Format.binary64 (parts x) (parts y)) := rfl

theorem parts_neg (x : Float) : parts (-x) = neg (parts x) := by
  change repacked (neg (parts x)) = neg (parts x)
  cases h : parts x with
  | notANumber => exact repacked_notANumber
  | infinity s => exact repacked_infinity (-s)
  | zero s => exact repacked_zero (-s)
  | finite s m e hm =>
      obtain ⟨hshape, he⟩ := shape_of_unpack h
      exact repacked_finite hshape he

theorem apply_neg (s : Sign) (n : Int) : (-s).apply n = -s.apply n := by
  cases s with
  | negative => exact (Int.neg_neg n).symm
  | positive => rfl

/-- **A difference is the sum with what is subtracted negated.** -/
theorem parts_sub (x y : Float) : parts (x - y) = parts (x + -y) := by
  rw [parts_add, parts_neg]
  change repacked (sub Format.binary64 (parts x) (parts y)) = _
  congr 1
  cases parts x with
  | notANumber => rfl
  | infinity s => cases parts y <;> rfl
  | zero s => cases parts y <;> rfl
  | finite s m e hm =>
      cases parts y with
      | notANumber | infinity | zero => rfl
      | finite s' m' e' hm' =>
          simp only [sub, add, neg, apply_neg, Int.sub_eq_add_neg]

theorem isFinite_eq (x : Float) : x.isFinite = (parts x).isFinite := rfl

theorem isNaN_eq (x : Float) : x.isNaN = (parts x).isNaN := rfl

theorem isInf_eq (x : Float) : x.isInf = (parts x).isInf := rfl

end Reckoner.Double
