import Mathlib.Algebra.Group.Pi.Basic
import Mathlib.Algebra.Module.Pi
import Reckoner.Proofs.CompoundUnit.Comparison
import Reckoner.Proofs.CompoundUnit.Range

/-!
# `Reckoner.Proofs.CompoundUnit.Algebra` — units as a partial commutative group

The exponents of a unit are a vector of whole numbers, one for each name. Whether a product, a
quotient or a power is defined is decided by these vectors, and so is what it is, up to the order of
the factors. So the laws of units are the laws of the group of vectors wherever all results fit.

## Contents
- **Outcomes.** `SameOutcome`, `InRange`, and `Computes`: a partial result told by its exponents.
- **Operations.** What products, quotients, powers and repetitions compute.
- **Laws.** `partial_group_laws`.
- **Powers.** `power_agrees_with_steps`.
-/

namespace Reckoner.CompoundUnit

variable {u v w : CompoundUnit} {x y : Option CompoundUnit} {p q : Prop} {s t : String → Int}

/-! ## Outcomes -/

/-- Two results are both missing, or both there and the same unit whatever the order of factors. -/
def SameOutcome (x y : Option CompoundUnit) : Prop :=
  Option.Rel (fun u v => u.sameAs v = true) x y

/-- All exponents of a vector fit. -/
def InRange (s : String → Int) : Prop := ∀ name, Exponent.Fits (s name)

theorem inRange_exponentOf (u : CompoundUnit) : InRange u.exponentOf := u.fits_exponentOf

theorem inRange_zero : InRange 0 := fun _ => (by decide : Exponent.Fits 0)

/-- **Partial sums** of a vector lie between 0 and the last one. -/
theorem InRange.nsmul_of_le {j k : Nat} (h : InRange (k • s)) (hjk : j ≤ k) : InRange (j • s) := by
  intro name
  have hlast : Exponent.Fits (k * s name) := by simpa using h name
  have hbetween : Exponent.Fits (j * s name) := by
    unfold Exponent.Fits at hlast ⊢
    -- multiples of a number go up or down with its sign, away from 0
    rcases Int.le_total 0 (s name) with hpos | hneg
    · have hgrows : (j : Int) * s name ≤ k * s name :=
        Int.mul_le_mul_of_nonneg_right (by omega) hpos
      have hfirst : 0 ≤ (j : Int) * s name := Int.mul_nonneg (by omega) hpos
      omega
    · have hshrinks : (k : Int) * s name ≤ j * s name :=
        Int.mul_le_mul_of_nonpos_right (by omega) hneg
      have hfirst : (j : Int) * s name ≤ 0 := Int.mul_nonpos_of_nonneg_of_nonpos (by omega) hneg
      omega
  simpa using hbetween

/-- A partial result is there exactly when `p` holds, and is then a normal unit with the
    exponents `s`. -/
structure Computes (x : Option CompoundUnit) (p : Prop) (s : String → Int) : Prop where
  isSome_iff : x.isSome = true ↔ p
  normal : ∀ w, x = some w → w.Normal
  exponents : ∀ w, x = some w → w.exponentOf = s

theorem Computes.congr (h : Computes x p s) (hp : p ↔ q) (hs : s = t) : Computes x q t :=
  ⟨h.isSome_iff.trans hp, h.normal, fun w hw => (h.exponents w hw).trans hs⟩

theorem computes_some (hu : u.Normal) : Computes (some u) True u.exponentOf := by
  refine ⟨by simp, fun w hw => ?_, fun w hw => ?_⟩
  · exact Option.some.inj hw ▸ hu
  · rw [Option.some.inj hw]

theorem Computes.exists (h : Computes x p s) (hp : p) :
    ∃ w, x = some w ∧ w.Normal ∧ w.exponentOf = s := by
  obtain ⟨w, hw⟩ := Option.isSome_iff_exists.mp (h.isSome_iff.mpr hp)
  exact ⟨w, hw, h.normal w hw, h.exponents w hw⟩

/-- One result after the other. -/
theorem Computes.bind {g : CompoundUnit → Option CompoundUnit} (hx : Computes x p s)
    (hg : ∀ w, w.Normal → w.exponentOf = s → Computes (g w) q t) :
    Computes (x >>= g) (p ∧ q) t := by
  cases x with
  | none =>
      have hnot : ¬ p := fun hp => absurd (hx.isSome_iff.mpr hp) Bool.false_ne_true
      refine ⟨iff_of_false Bool.false_ne_true fun h => hnot h.1, fun w hw => ?_, fun w hw => ?_⟩
      · cases hw
      · cases hw
  | some u =>
      have hp : p := hx.isSome_iff.mp rfl
      have hnext := hg u (hx.normal u rfl) (hx.exponents u rfl)
      exact hnext.congr (and_iff_right hp).symm rfl

/-- **Results with the same exponents**, defined under the same condition, are the same. -/
theorem Computes.sameOutcome (hx : Computes x p s) (hy : Computes y q t) (hpq : p ↔ q)
    (hst : s = t) : SameOutcome x y := by
  have hdefined : x.isSome = true ↔ y.isSome = true :=
    hx.isSome_iff.trans (hpq.trans hy.isSome_iff.symm)
  cases x with
  | none =>
      cases y with
      | none => exact .none
      | some v => exact absurd (hdefined.mpr rfl) Bool.false_ne_true
  | some u =>
      cases y with
      | none => exact absurd (hdefined.mp rfl) Bool.false_ne_true
      | some v =>
          refine .some ((sameAs_iff (hx.normal u rfl) (hy.normal v rfl)).mpr ?_)
          rw [hx.exponents u rfl, hy.exponents v rfl, hst]

/-! ## Operations -/

/-- An exponent can be brought to the side where it counts, unless it is the lowest one and has to
    be negated. -/
theorem fits_sign_mul_iff {how : Combination} {e : Exponent} :
    Exponent.Fits (how.sign * e.val) ↔ (how = .divide → e ≠ .lowest) := by
  cases how with
  | multiply => simpa [Combination.sign] using e.fits
  | divide =>
      rw [← Exponent.neg?_isSome_iff, Exponent.neg?, Exponent.ofInt?_isSome_iff]
      simp [Combination.sign]

/-- The multiples of all exponents fit when those of the factors do. -/
theorem inRange_smul_iff (hu : u.Normal) {n : Int} :
    InRange (n • u.exponentOf) ↔ ∀ f ∈ u.factors, Exponent.Fits (n * f.exponent.val) := by
  have hzero : ∀ _ : String, Exponent.Fits (n * 0) := by
    intro _
    rw [Int.mul_zero]
    decide
  exact forall_exponentIn_iff hu.1 (p := fun _ m => Exponent.Fits (n * m)) hzero

/-- **Products and quotients** are defined when the right operand can be brought to its side and all
    exponents of the result fit. -/
theorem computes_combine (how : Combination) (hu : u.Normal) (hv : v.Normal) :
    Computes (combine how u v)
      (InRange (how.sign • v.exponentOf) ∧ InRange (u.exponentOf + how.sign • v.exponentOf))
      (u.exponentOf + how.sign • v.exponentOf) := by
  refine ⟨?_, fun w hw => normal_combine hu hv hw, fun w hw => ?_⟩
  · have hzero : ∀ name, Exponent.Fits (u.exponentOf name + how.sign * 0) := by
      intro name
      rw [Int.mul_zero, Int.add_zero]
      exact u.fits_exponentOf name
    -- names without a factor in `v` keep the exponent they have in `u`
    have hsums : InRange (u.exponentOf + how.sign • v.exponentOf) ↔
        ∀ f ∈ v.factors, Exponent.Fits (u.exponentOf f.name + how.sign * f.exponent.val) :=
      forall_exponentIn_iff hv.1
        (p := fun name n => Exponent.Fits (u.exponentOf name + how.sign * n)) hzero
    rw [combine, combine_factors_isSome_iff hv.1 hu, inRange_smul_iff hv, hsums]
    simp only [fits_sign_mul_iff]
    exact forall₂_and
  · funext name
    exact exponentOf_combine hu hv hw name

theorem computes_product (hu : u.Normal) (hv : v.Normal) :
    Computes (combine .multiply u v) (InRange (u.exponentOf + v.exponentOf))
      (u.exponentOf + v.exponentOf) := by
  have hsign : Combination.multiply.sign • v.exponentOf = v.exponentOf := one_zsmul _
  have h := computes_combine .multiply hu hv
  rw [hsign] at h
  exact h.congr (and_iff_right v.inRange_exponentOf) rfl

theorem computes_quotient (hu : u.Normal) (hv : v.Normal) :
    Computes (combine .divide u v)
      ((∀ f ∈ v.factors, f.exponent ≠ .lowest) ∧ InRange (u.exponentOf - v.exponentOf))
      (u.exponentOf - v.exponentOf) := by
  have hsign : u.exponentOf + Combination.divide.sign • v.exponentOf =
      u.exponentOf - v.exponentOf :=
    (congrArg _ (neg_one_zsmul _)).trans (sub_eq_add_neg _ _).symm
  have h := computes_combine .divide hu hv
  rw [hsign, inRange_smul_iff hv] at h
  simpa only [fits_sign_mul_iff, true_implies] using h

/-- Partial results are collected when all of them are there. -/
theorem isSome_mapM_iff {α β : Type} {g : α → Option β} {l : List α} :
    (l.mapM g).isSome = true ↔ ∀ a ∈ l, (g a).isSome = true := by
  induction l with
  | nil => simp
  | cons a l ih =>
      rw [List.mapM_cons, List.forall_mem_cons, ← ih]
      cases g a with
      | none => simp
      | some b => cases l.mapM g <;> simp

/-- **Powers** are defined when all exponents of the result fit. -/
theorem computes_power (hu : u.Normal) (n : Int) :
    Computes (u.power n) (InRange (n • u.exponentOf)) (n • u.exponentOf) := by
  refine ⟨?_, fun w hw => (power_spec hu hw).1, fun w hw => ?_⟩
  · unfold power
    split
    · rename_i hn
      rw [hn, zero_zsmul]
      exact iff_of_true rfl inRange_zero
    · rw [inRange_smul_iff hu, Option.isSome_map, isSome_mapM_iff]
      refine forall₂_congr fun f _ => ?_
      rw [Option.isSome_map, Exponent.mul?, Exponent.ofInt?_isSome_iff, Int.mul_comm]
  · funext name
    exact ((power_spec hu hw).2 name).trans (Int.mul_comm _ _)

/-- The unit of a pure number, multiplied or divided by a unit again and again; undefined as soon as
    one step is. -/
def repeated (how : Combination) (u : CompoundUnit) : Nat → Option CompoundUnit
  | 0 => some dimensionless
  | k + 1 => repeated how u k >>= fun w => combine how w u

/-- **Repetitions** are defined when the last result fits: all results before it lie between it
    and 0. -/
theorem computes_repeated (how : Combination) (hu : u.Normal) (k : Nat) :
    Computes (repeated how u k) (InRange (k • how.sign • u.exponentOf))
      (k • how.sign • u.exponentOf) := by
  induction k with
  | zero =>
      refine (computes_some normal_dimensionless).congr ?_ ?_
      · rw [zero_nsmul]
        exact iff_of_true trivial inRange_zero
      · rw [zero_nsmul, exponentOf_dimensionless]
  | succ k ih =>
      have hstep : ∀ w : CompoundUnit, w.Normal → w.exponentOf = k • how.sign • u.exponentOf →
          Computes (combine how w u)
            (InRange (how.sign • u.exponentOf) ∧ InRange ((k + 1) • how.sign • u.exponentOf))
            ((k + 1) • how.sign • u.exponentOf) := by
        intro w hw hexponents
        have h := computes_combine how hw hu
        rwa [hexponents, ← succ_nsmul] at h
      -- the last sum fits only if the vector itself and the sum before do
      refine (ih.bind hstep).congr ⟨fun h => h.2.2, fun h => ?_⟩ rfl
      have hone : InRange (1 • how.sign • u.exponentOf) := h.nsmul_of_le (by omega)
      rw [one_nsmul] at hone
      exact ⟨h.nsmul_of_le (by omega), hone, h⟩

/-! ## Laws -/

variable {a b c a' b' ab bc q z : CompoundUnit}

theorem multiply_comm (ha : a.Normal) (hb : b.Normal) :
    SameOutcome (combine .multiply a b) (combine .multiply b a) := by
  have hleft := computes_product ha hb
  rw [add_comm] at hleft
  exact hleft.sameOutcome (computes_product hb ha) Iff.rfl rfl

/-- Where the inner products are defined, the outer ones are the same, or both are not defined. -/
theorem multiply_assoc (ha : a.Normal) (hb : b.Normal) (hc : c.Normal)
    (hab : combine .multiply a b = some ab) (hbc : combine .multiply b c = some bc) :
    SameOutcome (combine .multiply ab c) (combine .multiply a bc) := by
  have hab' := computes_product ha hb
  have hbc' := computes_product hb hc
  have hleft := computes_product (hab'.normal ab hab) hc
  have hright := computes_product ha (hbc'.normal bc hbc)
  rw [hab'.exponents ab hab, add_assoc] at hleft
  rw [hbc'.exponents bc hbc] at hright
  exact hleft.sameOutcome hright Iff.rfl rfl

/-- What was multiplied in is divided out, unless it has the lowest exponent. -/
theorem divide_multiplied (ha : a.Normal) (hb : b.Normal)
    (hab : combine .multiply a b = some ab) :
    ((combine .divide ab b).isSome = true ↔ ∀ f ∈ b.factors, f.exponent ≠ .lowest) ∧
      ∀ w, combine .divide ab b = some w → w.sameAs a = true := by
  have hab' := computes_product ha hb
  have hback := computes_quotient (hab'.normal ab hab) hb
  rw [hab'.exponents ab hab, add_sub_cancel_right] at hback
  refine ⟨hback.isSome_iff.trans (and_iff_left a.inRange_exponentOf), fun w hw => ?_⟩
  exact (sameAs_iff (hback.normal w hw) ha).mpr (hback.exponents w hw)

/-- What was divided out can be multiplied in. -/
theorem multiply_divided (ha : a.Normal) (hb : b.Normal) (hq : combine .divide a b = some q) :
    ∃ w, combine .multiply q b = some w ∧ w.sameAs a = true := by
  have hq' := computes_quotient ha hb
  have hback := computes_product (hq'.normal q hq) hb
  rw [hq'.exponents q hq, sub_add_cancel] at hback
  obtain ⟨w, hw, hnormal, hexponents⟩ := hback.exists a.inRange_exponentOf
  exact ⟨w, hw, (sameAs_iff hnormal ha).mpr hexponents⟩

/-- Dividing by a product is dividing twice. -/
theorem divide_product (ha : a.Normal) (hb : b.Normal) (hc : c.Normal)
    (hbc : combine .multiply b c = some bc) (hq : combine .divide a b = some q)
    (hw : combine .divide a bc = some w) (hz : combine .divide q c = some z) :
    w.sameAs z = true := by
  have hbc' := computes_product hb hc
  have hq' := computes_quotient ha hb
  have hleft := computes_quotient ha (hbc'.normal bc hbc)
  have hright := computes_quotient (hq'.normal q hq) hc
  rw [sameAs_iff (hleft.normal w hw) (hright.normal z hz), hleft.exponents w hw,
    hright.exponents z hz, hbc'.exponents bc hbc, hq'.exponents q hq, sub_add_eq_sub_sub]

theorem multiply_dimensionless (ha : a.Normal) :
    SameOutcome (combine .multiply dimensionless a) (some a) := by
  have hleft := computes_product normal_dimensionless ha
  rw [exponentOf_dimensionless, zero_add] at hleft
  exact hleft.sameOutcome (computes_some ha) (iff_true_intro a.inRange_exponentOf) rfl

/-- What compares as the same as a normal unit is normal and has the same exponents. -/
theorem normal_of_sameAs (ha : a.Normal) (h : a.sameAs a' = true) :
    a'.Normal ∧ a'.exponentOf = a.exponentOf :=
  have hperm := perm_of_sameAs ha h
  ⟨normal_of_perm ha hperm, exponentOf_of_perm ha hperm⟩

theorem combine_congr (how : Combination) (ha : a.Normal) (hb : b.Normal)
    (hsame : a.sameAs a' = true) (hsame' : b.sameAs b' = true) :
    SameOutcome (combine how a b) (combine how a' b') := by
  obtain ⟨ha', hexponents⟩ := normal_of_sameAs ha hsame
  obtain ⟨hb', hexponents'⟩ := normal_of_sameAs hb hsame'
  have hother := computes_combine how ha' hb'
  rw [hexponents, hexponents'] at hother
  exact (computes_combine how ha hb).sameOutcome hother Iff.rfl rfl

theorem power_congr (ha : a.Normal) (hsame : a.sameAs a' = true) (n : Int) :
    SameOutcome (a.power n) (a'.power n) := by
  obtain ⟨ha', hexponents⟩ := normal_of_sameAs ha hsame
  have hother := computes_power ha' n
  rw [hexponents] at hother
  exact (computes_power ha n).sameOutcome hother Iff.rfl rfl

/-- **Units are a partial commutative group**, up to the order of factors. Products commute, whether
    or not they are defined, and associate wherever the inner ones are. A factor that was multiplied
    in can be divided out, unless it has the lowest exponent; one that was divided out can always be
    multiplied in; and dividing by a product is dividing twice. The unit of a pure number counts for
    nothing. All operations see their operands only up to the order of factors. -/
theorem partial_group_laws (ha : a.Normal) (hb : b.Normal) (hc : c.Normal) :
    SameOutcome (combine .multiply a b) (combine .multiply b a) ∧
      (∀ ab bc, combine .multiply a b = some ab → combine .multiply b c = some bc →
        SameOutcome (combine .multiply ab c) (combine .multiply a bc)) ∧
      (∀ ab, combine .multiply a b = some ab →
        ((combine .divide ab b).isSome = true ↔ ∀ f ∈ b.factors, f.exponent ≠ .lowest) ∧
          ∀ w, combine .divide ab b = some w → w.sameAs a = true) ∧
      (∀ q, combine .divide a b = some q →
        ∃ w, combine .multiply q b = some w ∧ w.sameAs a = true) ∧
      (∀ bc q w z, combine .multiply b c = some bc → combine .divide a b = some q →
        combine .divide a bc = some w → combine .divide q c = some z → w.sameAs z = true) ∧
      SameOutcome (combine .multiply dimensionless a) (some a) ∧
      (∀ how, combine how a dimensionless = some a) ∧
      (∀ a' b', a.sameAs a' = true → b.sameAs b' = true →
        (∀ how, SameOutcome (combine how a b) (combine how a' b')) ∧
          ∀ n, SameOutcome (a.power n) (a'.power n)) := by
  refine ⟨multiply_comm ha hb, ?_, ?_, ?_, ?_, multiply_dimensionless ha, fun how => rfl, ?_⟩
  · intro ab bc hab hbc
    exact multiply_assoc ha hb hc hab hbc
  · intro ab hab
    exact divide_multiplied ha hb hab
  · intro q hq
    exact multiply_divided ha hb hq
  · intro bc q w z hbc hq hw hz
    exact divide_product ha hb hc hbc hq hw hz
  · intro a' b' hsame hsame'
    exact ⟨fun how => combine_congr how ha hb hsame hsame', power_congr ha hsame⟩

/-- A torque, a compliance and a moment: factors cancel and come back at other places. -/
theorem group_laws_of_torque :
    let a := parse "N m"
    let b := parse "rad/N s"
    let c := parse "s^2/rad"
    let ab := parse "m rad/s"
    let bc := parse "N^-1 s"
    let q := parse "N^2 m rad^-1 s"
    (a.Normal ∧ b.Normal ∧ c.Normal) ∧
      (combine .multiply a b = some ab ∧ combine .multiply b c = some bc ∧
        SameOutcome (combine .multiply ab c) (combine .multiply a bc)) ∧
      (combine .divide ab b = some (parse "m N") ∧ (parse "m N").sameAs a = true) ∧
      (combine .divide a b = some q ∧ ∃ w, combine .multiply q b = some w ∧ w.sameAs a = true) ∧
      (∃ w z, combine .divide a bc = some w ∧ combine .divide q c = some z ∧
        w.sameAs z = true) ∧
      (a.sameAs (parse "m N") = true ∧ b.sameAs (parse "s^-1 N^-1 rad") = true ∧
        SameOutcome (combine .divide a b) (combine .divide (parse "m N") (parse "s^-1 N^-1 rad")) ∧
        SameOutcome (a.power 3) ((parse "m N").power 3)) := by
  intro a b c ab bc q
  have hnormal : a.Normal ∧ b.Normal ∧ c.Normal :=
    ⟨normal_parse _, normal_parse _, normal_parse _⟩
  have hab : combine .multiply a b = some ab := by decide +kernel
  have hbc : combine .multiply b c = some bc := by decide +kernel
  have hq : combine .divide a b = some q := by decide +kernel
  have hback : combine .divide ab b = some (parse "m N") := by decide +kernel
  have hw : combine .divide a bc = some (parse "N^2 m/s") := by decide +kernel
  have hz : combine .divide q c = some (parse "N^2 m/s") := by decide +kernel
  have ha' : a.sameAs (parse "m N") = true := by decide +kernel
  have hb' : b.sameAs (parse "s^-1 N^-1 rad") = true := by decide +kernel
  obtain ⟨-, hassoc, hcancel, hrestore, htwice, -, -, hcongr⟩ :=
    partial_group_laws hnormal.1 hnormal.2.1 hnormal.2.2
  obtain ⟨hcombine, hpower⟩ := hcongr _ _ ha' hb'
  exact ⟨hnormal, ⟨hab, hbc, hassoc ab bc hab hbc⟩, ⟨hback, (hcancel ab hab).2 _ hback⟩,
    ⟨hq, hrestore q hq⟩, ⟨_, _, hw, hz, htwice bc q _ _ hbc hq hw hz⟩,
    ha', hb', hcombine .divide, hpower 3⟩

/-- Where an inner product is not defined, the other way round may be. -/
example :
    combine .multiply (parse "m^2147483647") (parse "m") = none ∧
      (combine .multiply (parse "m") (parse "1/m") >>=
        combine .multiply (parse "m^2147483647")) = some (parse "m^2147483647") := by
  decide +kernel

/-! ## Powers -/

/-- A whole power by steps: as many products as the exponent says, or quotients where it is
    negative. -/
def stepwisePower (u : CompoundUnit) (n : Int) : Option CompoundUnit :=
  repeated (if 0 ≤ n then .multiply else .divide) u n.natAbs

/-- What a power by steps computes is what the power computes. -/
theorem computes_stepwisePower (hu : u.Normal) (n : Int) :
    Computes (u.stepwisePower n) (InRange (n • u.exponentOf)) (n • u.exponentOf) := by
  have hsteps : n.natAbs • (if 0 ≤ n then Combination.multiply else .divide).sign • u.exponentOf =
      n • u.exponentOf := by
    rw [← natCast_zsmul, smul_smul]
    congr 1
    split
    · rw [Combination.sign]
      omega
    · rw [Combination.sign]
      omega
  have h := computes_repeated (if 0 ≤ n then .multiply else .divide) hu n.natAbs
  rwa [hsteps] at h

/-- **Powers are repeated products and quotients.** The power of a normal unit is defined exactly
    when it can be reached step by step from the unit of a pure number, and both are then the same
    normal unit, up to the order of factors. -/
theorem power_agrees_with_steps (hu : u.Normal) (n : Int) :
    (u.power n = none ↔ u.stepwisePower n = none) ∧
      ∀ w z, u.power n = some w → u.stepwisePower n = some z →
        w.sameAs z = true ∧ w.Normal ∧ z.Normal := by
  have hpower := computes_power hu n
  have hsteps := computes_stepwisePower hu n
  refine ⟨?_, fun w z hw hz => ⟨?_, hpower.normal w hw, hsteps.normal z hz⟩⟩
  · rw [← Option.not_isSome_iff_eq_none, ← Option.not_isSome_iff_eq_none, hpower.isSome_iff,
      hsteps.isSome_iff]
  · rw [sameAs_iff (hpower.normal w hw) (hsteps.normal z hz), hpower.exponents w hw,
      hsteps.exponents z hz]

/-- The metre and its lowest power: the last of 2147483648 quotients just fits. -/
theorem metre_reaches_lowest_power :
    let u := parse "m"
    u.Normal ∧ ∃ w z, u.power (-2147483648) = some w ∧ u.stepwisePower (-2147483648) = some z ∧
      w = parse "m^-2147483648" ∧ w.sameAs z = true ∧ z.Normal := by
  intro u
  have hu : u.Normal := normal_parse _
  have hw : u.power (-2147483648) = some (parse "m^-2147483648") := by decide +kernel
  obtain ⟨hdefined, hsame⟩ := power_agrees_with_steps hu (-2147483648)
  cases hz : u.stepwisePower (-2147483648) with
  | none =>
      rw [hdefined.mpr hz] at hw
      exact absurd hw.symm (Option.some_ne_none _)
  | some z =>
      obtain ⟨hwz, -, hnormal⟩ := hsame _ z hw hz
      exact ⟨hu, _, z, hw, rfl, rfl, hwz, hnormal⟩

end Reckoner.CompoundUnit
