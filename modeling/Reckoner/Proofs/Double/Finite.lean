import Reckoner.Proofs.Double.Packing

/-!
# `Reckoner.Proofs.Double.Finite` — what is not finite, and what becomes of it

Sums, differences, products and negations are finite for finite operands only. A quotient may also be
finite for an infinite divisor: then it is zero.

## Contents
- **Kinds.** A double is finite, infinite or not a number.
- **Operations.** `finite_of_add` and its like; `finite_div_infinite`: the quotient that is finite
  although its divisor is not.
-/

namespace Reckoner.Double

open Float.Model (Format UnpackedFloat)
open Float.Model.UnpackedFloat

variable {x y : Float} {a b : UnpackedFloat}

/-! ## Kinds -/

@[simp] theorem isFinite_infinity (s : Sign) : (UnpackedFloat.infinity s).isFinite = false := rfl

@[simp] theorem isFinite_notANumber : UnpackedFloat.notANumber.isFinite = false := rfl

/-- What is not finite is infinite or not a number. -/
theorem isFinite_eq_false_iff : x.isFinite = false ↔ x.isInf = true ∨ x.isNaN = true := by
  rw [isFinite_eq, isInf_eq, isNaN_eq]
  cases parts x with
  | infinity => exact iff_of_true rfl (.inl rfl)
  | notANumber => exact iff_of_true rfl (.inr rfl)
  | zero | finite => exact iff_of_false Bool.noConfusion (by rintro (h | h) <;> cases h)

theorem isFinite_zero : (0.0 : Float).isFinite = true := rfl

theorem isFinite_one : (1.0 : Float).isFinite = true := rfl

theorem isFinite_one_div_zero : (1.0 / 0.0 : Float).isFinite = false := rfl

theorem isFinite_zero_div_zero : (0.0 / 0.0 : Float).isFinite = false := rfl

/-! ## Operations -/

/-- The sign makes no difference. -/
theorem isFinite_neg (x : Float) : (-x).isFinite = x.isFinite := by
  rw [isFinite_eq, isFinite_eq, parts_neg]
  cases parts x <;> rfl

/-- Sums of finite doubles only are finite. -/
theorem finite_of_add (h : (x + y).isFinite = true) : x.isFinite = true ∧ y.isFinite = true := by
  rw [isFinite_eq, parts_add] at h
  rw [isFinite_eq, isFinite_eq]
  generalize parts x = a at h ⊢
  generalize parts y = b at h ⊢
  cases a with
  | zero | finite =>
      cases b with
      | zero | finite => exact ⟨rfl, rfl⟩
      | infinity | notANumber => simp [add] at h
  | infinity =>
      -- infinities of different signs have no sum
      cases b <;> simp [add, apply_ite repacked, apply_ite UnpackedFloat.isFinite] at h
  | notANumber => simp [add] at h

/-- Differences of finite doubles only are finite. -/
theorem finite_of_sub (h : (x - y).isFinite = true) : x.isFinite = true ∧ y.isFinite = true := by
  rw [isFinite_eq, parts_sub, ← isFinite_eq] at h
  obtain ⟨hx, hy⟩ := finite_of_add h
  exact ⟨hx, by rwa [isFinite_neg] at hy⟩

/-- Products of finite doubles only are finite. -/
theorem finite_of_mul (h : (x * y).isFinite = true) : x.isFinite = true ∧ y.isFinite = true := by
  rw [isFinite_eq, parts_mul] at h
  rw [isFinite_eq, isFinite_eq]
  generalize parts x = a at h ⊢
  generalize parts y = b at h ⊢
  cases a with
  | zero | finite =>
      cases b with
      | zero | finite => exact ⟨rfl, rfl⟩
      | infinity | notANumber => simp [mul] at h
  | infinity => cases b <;> simp [mul] at h
  | notANumber => simp [mul] at h

/-- Quotients of finite doubles only are finite, unless the divisor is an infinity. -/
theorem finite_of_div (h : (x / y).isFinite = true) :
    x.isFinite = true ∧ (y.isFinite = true ∨ y.isInf = true) := by
  rw [isFinite_eq, parts_div] at h
  rw [isFinite_eq, isFinite_eq, isInf_eq]
  generalize parts x = a at h ⊢
  generalize parts y = b at h ⊢
  cases a with
  | zero | finite =>
      cases b with
      | zero | finite => exact ⟨rfl, .inl rfl⟩
      | infinity => exact ⟨rfl, .inr rfl⟩
      | notANumber => simp [div] at h
  | infinity => cases b <;> simp [div] at h
  | notANumber => simp [div] at h

/-- A finite double divided by an infinity is zero. -/
theorem parts_div_infinite (hx : x.isFinite = true) (hy : y.isInf = true) :
    ∃ s, parts (x / y) = .zero s := by
  rw [isFinite_eq] at hx
  rw [isInf_eq] at hy
  rw [parts_div]
  cases hb : parts y with
  | infinity s' =>
      cases ha : parts x with
      | zero s => exact ⟨s / s', repacked_zero _⟩
      | finite s m e hm => exact ⟨s / s', repacked_zero _⟩
      | infinity | notANumber => exact absurd (ha ▸ hx) (by simp)
  | notANumber | zero | finite => exact absurd (hb ▸ hy) (by simp [UnpackedFloat.isInf])

/-- A finite double divided by an infinity is finite. -/
theorem finite_div_infinite (hx : x.isFinite = true) (hy : y.isInf = true) :
    (x / y).isFinite = true := by
  obtain ⟨s, hs⟩ := parts_div_infinite hx hy
  rw [isFinite_eq, hs]
  rfl

end Reckoner.Double
