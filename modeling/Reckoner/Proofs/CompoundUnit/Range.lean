import Reckoner.Proofs.CompoundUnit.Exponents

/-!
# `Reckoner.Proofs.CompoundUnit.Range` — when products and quotients are defined

A product or quotient of normal units is defined exactly when every exponent of the result fits,
with one exception: a quotient negates each exponent of the divisor before it is added, and the
lowest exponent has no negation. So a quotient by it is refused even where the difference fits.

## Contents
- **Steps.** One exponent, one factor and a list of factors.
- **Results.** `combine_exact`, and `lowest_not_divided` for the exception.
-/

namespace Reckoner

/-! ## Steps -/

/-- The exponent without a negation. -/
def Exponent.lowest : Exponent := ⟨-2147483648, by decide⟩

theorem Exponent.neg?_isSome_iff {e : Exponent} : e.neg?.isSome = true ↔ e ≠ lowest := by
  rw [neg?, ofInt?_isSome_iff]
  constructor
  · rintro hfits rfl
    exact absurd hfits (by decide)
  · intro hne
    have hval : e.val ≠ -2147483648 := fun h => hne (ext h)
    have hfits := e.fits
    unfold Fits at hfits ⊢
    omega

namespace CompoundUnit

variable {u v w : CompoundUnit}

/-- The exponent of a name is that of a factor, or 0. -/
theorem fits_exponentOf (u : CompoundUnit) (name : String) : Exponent.Fits (u.exponentOf name) := by
  obtain ⟨fs⟩ := u
  induction fs with
  | nil => exact (by decide : Exponent.Fits 0)
  | cons f fs ih =>
      rw [exponentOf, exponentIn_cons]
      split
      · exact f.exponent.fits
      · exact ih

/-- A factor enters unless it has to be negated and cannot be. -/
theorem factor?_isSome_iff {how : Combination} {f : Factor} :
    (Combination.factor? how f).isSome = true ↔ (how = .divide → f.exponent ≠ .lowest) := by
  cases how with
  | multiply => simp [Combination.factor?]
  | divide => simp [Combination.factor?, Exponent.neg?_isSome_iff]

theorem addFactorTo_isSome_iff {name : String} {e : Exponent} {fs : List Factor} :
    (addFactorTo name e fs).isSome = true ↔ Exponent.Fits (exponentIn name fs + e.val) := by
  induction fs with
  | nil =>
      have hfits : Exponent.Fits (exponentIn name [] + e.val) := by
        rw [exponentIn, Int.zero_add]
        exact e.fits
      exact iff_of_true rfl hfits
  | cons f fs ih =>
      rw [addFactorTo, exponentIn_cons]
      by_cases hname : f.name = name
      · rw [if_pos hname, if_pos hname, Option.isSome_map, Exponent.add?,
          Exponent.ofInt?_isSome_iff]
      · rw [if_neg hname, if_neg hname, Option.isSome_map, ih]

theorem addFactor_isSome_iff {f : Factor} :
    (u.addFactor f).isSome = true ↔ Exponent.Fits (u.exponentOf f.name + f.exponent.val) := by
  rw [addFactor, Option.isSome_map, addFactorTo_isSome_iff, exponentOf]

/-- One factor enters a unit exactly when it can be negated, where it has to be, and the exponent of
    its name still fits. -/
theorem enter_isSome_iff {how : Combination} {f : Factor} :
    (Combination.factor? how f >>= u.addFactor).isSome = true ↔
      (how = .divide → f.exponent ≠ .lowest) ∧
        Exponent.Fits (u.exponentOf f.name + how.sign * f.exponent.val) := by
  rw [← factor?_isSome_iff]
  cases hg : Combination.factor? how f with
  | none => simp
  | some g =>
      obtain ⟨hname, hexponent⟩ := factor?_eq_some hg
      rw [Option.bind_eq_bind, Option.bind_some, addFactor_isSome_iff, hname, hexponent]
      simp

/-- **Factor by factor.** Distinct names are touched once each, so that each factor enters exactly
    when it would enter the unit at the start. -/
theorem combine_factors_isSome_iff {how : Combination} {fs : List Factor}
    (hnames : (fs.map Factor.name).Nodup) (hu : u.Normal) :
    (fs.foldlM (fun u f => Combination.factor? how f >>= u.addFactor) u).isSome = true ↔
      ∀ f ∈ fs, (how = .divide → f.exponent ≠ .lowest) ∧
        Exponent.Fits (u.exponentOf f.name + how.sign * f.exponent.val) := by
  induction fs generalizing u with
  | nil => simp
  | cons f fs ih =>
      rw [List.map_cons, List.nodup_cons] at hnames
      rw [List.foldlM_cons, List.forall_mem_cons, ← enter_isSome_iff (u := u)]
      cases hstep : Combination.factor? how f >>= u.addFactor with
      | none => simp
      | some u' =>
          obtain ⟨g, hg, hadd⟩ := Option.bind_eq_some_iff.mp hstep
          have hname := (factor?_eq_some hg).1
          have hothers : ∀ h ∈ fs, u'.exponentOf h.name = u.exponentOf h.name := by
            intro h hh
            have hne : f.name ≠ h.name := fun heq => hnames.1 (heq ▸ List.mem_map_of_mem hh)
            rw [exponentOf_addFactor hu hadd, hname, if_neg hne, Int.add_zero]
          rw [Option.bind_eq_bind, Option.bind_some, ih hnames.2 (normal_addFactor hu hadd)]
          simp only [Option.isSome_some, true_and]
          exact forall₂_congr fun h hh => by rw [hothers h hh]

/-! ## Results -/

/-- The exponents of a list, name by name or factor by factor. -/
theorem forall_exponentIn_iff {fs : List Factor} (hnames : (fs.map Factor.name).Nodup)
    {p : String → Int → Prop} (hzero : ∀ name, p name 0) :
    (∀ name, p name (exponentIn name fs)) ↔ ∀ f ∈ fs, p f.name f.exponent.val := by
  induction fs with
  | nil => simpa [exponentIn] using hzero
  | cons f fs ih =>
      rw [List.map_cons, List.nodup_cons] at hnames
      rw [List.forall_mem_cons, ← ih hnames.2]
      constructor
      · intro h
        refine ⟨by simpa [exponentIn_cons] using h f.name, fun name => ?_⟩
        by_cases hname : f.name = name
        · rw [exponentIn_of_notMem (hname ▸ hnames.1)]
          exact hzero name
        · simpa [exponentIn_cons, hname] using h name
      · rintro ⟨hf, hfs⟩ name
        rw [exponentIn_cons]
        split
        · rename_i hname
          exact hname ▸ hf
        · exact hfs name

/-- **Products and quotients are exact.** They are defined exactly when every exponent of the result
    fits and, in a quotient, no exponent of the divisor is the lowest one; the result is normal and
    its exponents are the sums or differences. A unit whose exponents are not the lowest one,
    divided by itself, is dimensionless. -/
theorem combine_exact (how : Combination) (hu : u.Normal) (hv : v.Normal) :
    ((combine how u v).isSome = true ↔
      (∀ name, Exponent.Fits (u.exponentOf name + how.sign * v.exponentOf name)) ∧
        (how = .divide → ∀ f ∈ v.factors, f.exponent ≠ .lowest)) ∧
    (∀ w, combine how u v = some w → w.Normal ∧
      ∀ name, w.exponentOf name = u.exponentOf name + how.sign * v.exponentOf name) ∧
    ((∀ f ∈ u.factors, f.exponent ≠ .lowest) → combine .divide u u = some dimensionless) := by
  have hdefined : ∀ {how : Combination} {v : CompoundUnit}, v.Normal →
      ((combine how u v).isSome = true ↔
        (∀ name, Exponent.Fits (u.exponentOf name + how.sign * v.exponentOf name)) ∧
          (how = .divide → ∀ f ∈ v.factors, f.exponent ≠ .lowest)) := by
    intro how v hv
    have hzero : ∀ name, Exponent.Fits (u.exponentOf name + how.sign * 0) := fun name => by
      rw [Int.mul_zero, Int.add_zero]
      exact u.fits_exponentOf name
    have hsums := forall_exponentIn_iff hv.1
      (p := fun name n => Exponent.Fits (u.exponentOf name + how.sign * n)) hzero
    rw [combine, combine_factors_isSome_iff hv.1 hu]
    simp only [exponentOf] at hsums ⊢
    rw [hsums]
    constructor
    · exact fun h => ⟨fun f hf => (h f hf).2, fun hhow f hf => (h f hf).1 hhow⟩
    · exact fun h f hf => ⟨fun hhow => h.2 hhow f hf, h.1 f hf⟩
  refine ⟨hdefined hv, fun w hw => ⟨normal_combine hu hv hw, exponentOf_combine hu hv hw⟩, ?_⟩
  intro hlowest
  have hcancel : ∀ name, u.exponentOf name + Combination.divide.sign * u.exponentOf name = 0 :=
    fun name => by rw [Combination.sign]; ring
  have hsome : (combine .divide u u).isSome = true :=
    (hdefined hu).mpr ⟨fun name => by rw [hcancel]; decide, fun _ => hlowest⟩
  obtain ⟨w, hw⟩ := Option.isSome_iff_exists.mp hsome
  have hdimensionless : w.isDimensionless = true :=
    (normal_combine hu hu hw).isDimensionless_iff.mpr
      (funext fun name => (exponentOf_combine hu hu hw name).trans (hcancel name))
  rw [hw]
  exact congrArg some (congrArg mk (List.isEmpty_iff.mp hdimensionless))

/-- `1/m^2147483647` by `m`: the difference is the lowest exponent and just fits. -/
theorem quotient_at_lowest :
    let u := parse "1/m^2147483647"
    let v := parse "m"
    u.Normal ∧ v.Normal ∧ (combine .divide u v).isSome = true ∧
      (∀ w, combine .divide u v = some w → w.Normal ∧ w.exponentOf "m" = -2147483648) ∧
      combine .divide u u = some dimensionless := by
  intro u v
  have hu : u.Normal := normal_parse _
  have hv : v.Normal := normal_parse _
  have hm : u.exponentOf "m" + Combination.divide.sign * v.exponentOf "m" = -2147483648 := by
    decide +kernel
  obtain ⟨hdefined, hresult, hself⟩ := combine_exact .divide hu hv
  refine ⟨hu, hv, by decide +kernel, fun w hw => ?_, hself (by decide +kernel)⟩
  exact ⟨(hresult w hw).1, ((hresult w hw).2 "m").trans hm⟩

/-- **The lowest exponent is not divided by.** `m^-2147483648` is a normal unit; every exponent of
    its quotient by itself is 0 and fits, and yet the quotient is refused. -/
theorem lowest_not_divided :
    let u := parse "m^-2147483648"
    u.Normal ∧
      (∀ name, Exponent.Fits (u.exponentOf name + Combination.divide.sign * u.exponentOf name)) ∧
      combine .divide u u = none := by
  intro u
  refine ⟨normal_parse _, fun name => ?_, by decide +kernel⟩
  have hzero : u.exponentOf name + Combination.divide.sign * u.exponentOf name = 0 := by
    rw [Combination.sign]
    ring
  rw [hzero]
  decide

end CompoundUnit

end Reckoner
