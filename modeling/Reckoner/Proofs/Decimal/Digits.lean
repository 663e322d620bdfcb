import Mathlib.Algebra.Group.Nat.Defs
import Reckoner.Decimal.Literal

/-!
# `Reckoner.Proofs.Decimal.Digits` — runs of digits

## Contents
- **Runs.** A run in front of a text ends where a character of another kind stands.
- **Values.** `natOfDigits` of runs that are joined, padded or extended.
- **Digits of a number.** What `digitsOf` writes, and that `natOfDigits` reads it back.
- **Literals.** `ofLiteral_eq`: where a literal is cut.
-/

namespace Reckoner.Decimal

/-! ## Runs -/

section Boundaries

variable {p : Char → Bool} {body rest : List Char}

theorem takeWhile_of_boundary (hbody : ∀ c ∈ body, p c = true)
    (hrest : ∀ c ∈ rest.head?, p c = false) : (body ++ rest).takeWhile p = body := by
  rw [List.takeWhile_append_of_pos hbody]
  cases rest with
  | nil => simp
  | cons c cs =>
      have hc : ¬ p c = true := by simp [hrest c rfl]
      rw [List.takeWhile_cons_of_neg hc, List.append_nil]

theorem dropWhile_of_boundary (hbody : ∀ c ∈ body, p c = true)
    (hrest : ∀ c ∈ rest.head?, p c = false) : (body ++ rest).dropWhile p = rest := by
  rw [List.dropWhile_append_of_pos hbody]
  cases rest with
  | nil => rfl
  | cons c cs => exact List.dropWhile_cons_of_neg (by simp [hrest c rfl])

end Boundaries

theorem isDigit_of_mem_zeros {n : Nat} {c : Char} (h : c ∈ List.replicate n '0') :
    c.isDigit = true := by
  rw [List.eq_of_mem_replicate h]
  decide

/-! ## Values -/

theorem natOfDigits_eq (ds : List Char) : natOfDigits ds = Nat.ofDigitChars 10 ds 0 := rfl

theorem natOfDigits_append (ds es : List Char) :
    natOfDigits (ds ++ es) = natOfDigits ds * 10 ^ es.length + natOfDigits es := by
  rw [natOfDigits_eq, Nat.ofDigitChars_append, Nat.ofDigitChars_eq_ofDigitChars_zero, Nat.mul_comm]
  rfl

@[simp] theorem natOfDigits_zeros (n : Nat) : natOfDigits (List.replicate n '0') = 0 := by
  rw [natOfDigits_eq, Nat.ofDigitChars_replicate_zero, Nat.mul_zero]

/-- Zeros in front change nothing. -/
theorem natOfDigits_zeros_append (n : Nat) (ds : List Char) :
    natOfDigits (List.replicate n '0' ++ ds) = natOfDigits ds := by
  rw [natOfDigits_append, natOfDigits_zeros, Nat.zero_mul, Nat.zero_add]

/-- Zeros behind are powers of ten. -/
theorem natOfDigits_append_zeros (ds : List Char) (n : Nat) :
    natOfDigits (ds ++ List.replicate n '0') = natOfDigits ds * 10 ^ n := by
  rw [natOfDigits_append, natOfDigits_zeros, List.length_replicate, Nat.add_zero]

/-! ## Digits of a number -/

@[simp] theorem natOfDigits_digitsOf (n : Nat) : natOfDigits (digitsOf n) = n :=
  Nat.ofDigitChars_ten_toDigits

theorem isDigit_of_mem_digitsOf {n : Nat} {c : Char} (h : c ∈ digitsOf n) : c.isDigit = true :=
  Nat.isDigit_of_mem_toDigits (by decide) (by decide) h

theorem digitsOf_ne_nil (n : Nat) : digitsOf n ≠ [] := Nat.toDigits_ne_nil

theorem digits_ne_nil (d : Decimal) : d.digits ≠ [] := digitsOf_ne_nil d.coefficient

theorem length_digitsOf_le_iff {n k : Nat} (hk : 0 < k) :
    (digitsOf n).length ≤ k ↔ n < 10 ^ k :=
  Nat.length_toDigits_le_iff (by decide) hk

theorem lt_pow_length_digitsOf (n : Nat) : n < 10 ^ (digitsOf n).length :=
  (length_digitsOf_le_iff (List.length_pos_iff.mpr (digitsOf_ne_nil n))).mp (Nat.le_refl _)

theorem pow_length_digitsOf_le {n : Nat} (h : 0 < n) : 10 ^ ((digitsOf n).length - 1) ≤ n := by
  refine Nat.le_of_not_lt fun hlt => ?_
  by_cases hone : (digitsOf n).length - 1 = 0
  · rw [hone] at hlt
    omega
  · have hshort := (length_digitsOf_le_iff (Nat.pos_of_ne_zero hone)).mpr hlt
    omega

/-- The first digit of a positive number is not zero. -/
theorem head?_digitsOf_ne_zero {n : Nat} (h : 0 < n) : (digitsOf n).head? ≠ some '0' := by
  have hdigit : ∀ m < 10, 0 < m → [Nat.digitChar m].head? ≠ some '0' := by decide
  induction n using Nat.strongRecOn with
  | ind n ih =>
      rw [digitsOf, Nat.toDigits_eq_if (by decide)]
      split
      · rename_i hlt
        exact hdigit n hlt h
      · rename_i hge
        -- the number without its last digit is positive and begins alike
        rw [List.head?_append, Option.or_of_isSome (by simp)]
        exact ih (n / 10) (by omega) (by omega)

/-! ## Literals -/

theorem not_mark_of_isDigit {c : Char} (h : c.isDigit = true) : isExponentMark c = false := by
  cases hmark : isExponentMark c with
  | false => rfl
  | true =>
      rcases Bool.or_eq_true_iff.mp hmark with he | hE
      · rw [eq_of_beq he] at h
        exact absurd h (by decide)
      · rw [eq_of_beq hE] at h
        exact absurd h (by decide)

theorem ne_point_of_isDigit {c : Char} (h : c.isDigit = true) : c ≠ '.' := by
  rintro rfl
  exact absurd h (by decide)

section Literals

variable {whole fraction power : List Char}

/-- A literal is cut at the mark of its power of ten. -/
theorem span_mark (hwhole : ∀ c ∈ whole, c.isDigit = true)
    (hfraction : ∀ c ∈ fraction, isExponentMark c = false)
    (hpower : ∀ c ∈ power.head?, isExponentMark c = true) :
    (whole ++ fraction ++ power).takeWhile (!isExponentMark ·) = whole ++ fraction ∧
      (whole ++ fraction ++ power).dropWhile (!isExponentMark ·) = power := by
  have hmantissa : ∀ c ∈ whole ++ fraction, (!isExponentMark c) = true := by
    intro c hc
    rw [Bool.not_eq_true']
    exact (List.mem_append.mp hc).elim (fun h => not_mark_of_isDigit (hwhole c h)) (hfraction c)
  have hmark : ∀ c ∈ power.head?, (!isExponentMark c) = false := fun c hc => by
    rw [hpower c hc]
    rfl
  exact ⟨takeWhile_of_boundary hmantissa hmark, dropWhile_of_boundary hmantissa hmark⟩

/-- **A literal** has the digits on both sides of its point, counted in units of the last. -/
theorem ofLiteral_eq (hwhole : ∀ c ∈ whole, c.isDigit = true)
    (hpoint : ∀ c ∈ fraction.head?, c = '.') (hfraction : ∀ c ∈ fraction, isExponentMark c = false)
    (hpower : ∀ c ∈ power.head?, isExponentMark c = true) :
    ofLiteral (whole ++ fraction ++ power) =
      ⟨natOfDigits (whole ++ fraction.drop 1),
        intOfDigits (power.drop 1) - (fraction.drop 1).length⟩ := by
  obtain ⟨htake, hdrop⟩ := span_mark hwhole hfraction hpower
  have hdigits : ∀ c ∈ whole, (c != '.') = true := fun c hc =>
    bne_iff_ne.mpr (ne_point_of_isDigit (hwhole c hc))
  have hstop : ∀ c ∈ fraction.head?, (c != '.') = false := fun c hc => by
    rw [hpoint c hc]
    rfl
  simp only [ofLiteral, htake, hdrop, takeWhile_of_boundary hdigits hstop,
    dropWhile_of_boundary hdigits hstop]

end Literals

end Reckoner.Decimal
