import Mathlib.Algebra.Group.Int.Defs
import Mathlib.Tactic.Ring
import Reckoner.CompoundUnit.Label

/-!
# `Reckoner.Proofs.CompoundUnit.Exponents` — units as exponent vectors

A unit is a list in which each name stands once and no exponent is 0. On such lists `exponentOf` is
all there is to a unit: products add exponents, quotients subtract them, powers multiply them, all of
it in whole numbers without bounds. Every operation keeps the form, and every label is read into it.

## Contents
- **Look-ups.** `exponentIn` and the names of a list.
- **One factor.** `addFactorTo`, which cancels.
- **Algebra.** `combine` and `power`.
- **Labels.** `normal_parse`.
-/

namespace Reckoner

/-- What the exponents of the right operand count in a product or a quotient. -/
def Combination.sign : Combination → Int
  | .multiply => 1
  | .divide => -1

namespace CompoundUnit

/-! ## Look-ups -/

theorem exponentIn_cons (f : Factor) (fs : List Factor) (name : String) :
    exponentIn name (f :: fs) = if f.name = name then f.exponent.val else exponentIn name fs := rfl

/-- A name that does not occur has the exponent 0. -/
theorem exponentIn_of_notMem {name : String} {fs : List Factor}
    (h : name ∉ fs.map Factor.name) : exponentIn name fs = 0 := by
  induction fs with
  | nil => rfl
  | cons f fs ih =>
      rw [List.map_cons, List.mem_cons, not_or] at h
      rw [exponentIn_cons, if_neg (Ne.symm h.1), ih h.2]

/-- The names of a list stand once each, and no exponent is 0. -/
def NormalFactors (fs : List Factor) : Prop :=
  (fs.map Factor.name).Nodup ∧ ∀ f ∈ fs, f.exponent.val ≠ 0

theorem normalFactors_cons {f : Factor} {fs : List Factor} :
    NormalFactors (f :: fs) ↔
      f.name ∉ fs.map Factor.name ∧ f.exponent.val ≠ 0 ∧ NormalFactors fs := by
  simp only [NormalFactors, List.map_cons, List.nodup_cons, List.forall_mem_cons]
  tauto

/-- The unit of a pure number. -/
theorem normal_dimensionless : dimensionless.Normal := ⟨List.nodup_nil, by simp [dimensionless]⟩

theorem exponentOf_dimensionless : dimensionless.exponentOf = 0 := rfl

/-- In a normal unit a name that occurs has an exponent. -/
theorem exponentIn_ne_zero {fs : List Factor} (h : NormalFactors fs) {name : String}
    (hname : name ∈ fs.map Factor.name) : exponentIn name fs ≠ 0 := by
  induction fs with
  | nil => exact absurd hname (by simp)
  | cons f fs ih =>
      obtain ⟨-, hf, hfs⟩ := normalFactors_cons.mp h
      rw [exponentIn_cons]
      split
      · exact hf
      · rename_i hne
        rw [List.map_cons, List.mem_cons] at hname
        exact ih hfs (hname.resolve_left (Ne.symm hne))

/-- A normal unit has no factors when all its exponents are 0. -/
theorem Normal.isDimensionless_iff {u : CompoundUnit} (h : u.Normal) :
    u.isDimensionless = true ↔ u.exponentOf = 0 := by
  rw [isDimensionless, List.isEmpty_iff]
  constructor
  · intro hnil
    funext name
    rw [exponentOf, hnil]
    rfl
  · intro hzero
    cases hfs : u.factors with
    | nil => rfl
    | cons f fs =>
        have hne : u.exponentOf f.name ≠ 0 := exponentIn_ne_zero h (by simp [hfs])
        exact absurd (congrFun hzero f.name) hne

/-! ## One factor -/

variable {name : String} {e : Exponent} {fs gs : List Factor}

/-- Adding a factor brings in no other name. -/
theorem names_addFactorTo (h : addFactorTo name e fs = some gs) :
    gs.map Factor.name ⊆ name :: fs.map Factor.name := by
  induction fs generalizing gs with
  | nil =>
      obtain rfl := Option.some.inj h
      split <;> simp
  | cons f fs ih =>
      rw [addFactorTo] at h
      split at h
      · rename_i hname
        obtain ⟨sum, -, rfl⟩ := Option.map_eq_some_iff.mp h
        subst hname
        split
        · simp only [List.map_cons]
          exact fun x hx => List.mem_cons_of_mem _ (List.mem_cons_of_mem _ hx)
        · simp only [List.map_cons]
          exact fun x hx => List.mem_cons_of_mem _ hx
      · obtain ⟨gs', hgs', rfl⟩ := Option.map_eq_some_iff.mp h
        intro x hx
        rw [List.map_cons, List.mem_cons] at hx
        rw [List.map_cons, List.mem_cons, List.mem_cons]
        rcases hx with rfl | hx
        · exact .inr (.inl rfl)
        · exact (List.mem_cons.mp (ih hgs' hx)).imp id .inr

/-- **Adding a factor keeps names distinct and exponents different from 0.** -/
theorem normalFactors_addFactorTo (hfs : NormalFactors fs) (h : addFactorTo name e fs = some gs) :
    NormalFactors gs := by
  induction fs generalizing gs with
  | nil =>
      obtain rfl := Option.some.inj h
      split
      · exact hfs
      · rename_i he
        exact normalFactors_cons.mpr ⟨by simp, he, hfs⟩
  | cons f fs ih =>
      obtain ⟨hnew, hexponent, hrest⟩ := normalFactors_cons.mp hfs
      rw [addFactorTo] at h
      split at h
      · rename_i hname
        obtain ⟨sum, -, rfl⟩ := Option.map_eq_some_iff.mp h
        split
        · exact hrest
        · rename_i hsum
          exact normalFactors_cons.mpr ⟨hname ▸ hnew, hsum, hrest⟩
      · rename_i hname
        obtain ⟨gs', hgs', rfl⟩ := Option.map_eq_some_iff.mp h
        refine normalFactors_cons.mpr ⟨fun hmem => ?_, hexponent, ih hrest hgs'⟩
        exact (List.mem_cons.mp (names_addFactorTo hgs' hmem)).elim hname hnew

/-- **Adding a factor adds its exponent** to that of its name, and to no other. -/
theorem exponentIn_addFactorTo (hfs : NormalFactors fs) (h : addFactorTo name e fs = some gs)
    (other : String) :
    exponentIn other gs = exponentIn other fs + if name = other then e.val else 0 := by
  induction fs generalizing gs with
  | nil =>
      obtain rfl := Option.some.inj h
      by_cases he : e.val = 0
      · simp [he, exponentIn]
      · simp [he, exponentIn]
  | cons f fs ih =>
      obtain ⟨hnew, -, hrest⟩ := normalFactors_cons.mp hfs
      rw [addFactorTo] at h
      split at h
      · rename_i hname
        obtain ⟨sum, hsum, rfl⟩ := Option.map_eq_some_iff.mp h
        have hval : sum.val = f.exponent.val + e.val := Exponent.ofInt?_eq_some_iff.mp hsum
        subst hname
        by_cases hother : f.name = other
        · -- the name is gone when its exponent has become 0
          subst hother
          rw [exponentIn_cons, if_pos rfl, if_pos rfl, ← hval]
          split
          · rename_i hzero
            rw [exponentIn_of_notMem hnew, hzero]
          · rw [exponentIn_cons, if_pos rfl]
        · rw [exponentIn_cons, if_neg hother, if_neg hother, Int.add_zero]
          split
          · rfl
          · rw [exponentIn_cons, if_neg hother]
      · rename_i hname
        obtain ⟨gs', hgs', rfl⟩ := Option.map_eq_some_iff.mp h
        rw [exponentIn_cons, exponentIn_cons]
        by_cases hother : f.name = other
        · rw [if_pos hother, if_pos hother, if_neg (hother ▸ Ne.symm hname), Int.add_zero]
        · rw [if_neg hother, if_neg hother, ih hrest hgs']

variable {u v w : CompoundUnit} {f : Factor}

theorem normal_addFactor (hu : u.Normal) (h : u.addFactor f = some w) : w.Normal := by
  obtain ⟨gs, hgs, rfl⟩ := Option.map_eq_some_iff.mp h
  exact normalFactors_addFactorTo hu hgs

theorem exponentOf_addFactor (hu : u.Normal) (h : u.addFactor f = some w) (other : String) :
    w.exponentOf other = u.exponentOf other + if f.name = other then f.exponent.val else 0 := by
  obtain ⟨gs, hgs, rfl⟩ := Option.map_eq_some_iff.mp h
  exact exponentIn_addFactorTo hu hgs other

/-! ## Algebra -/

/-- A factor enters with the sign of the combination. -/
theorem factor?_eq_some {how : Combination} {f g : Factor}
    (h : Combination.factor? how f = some g) :
    g.name = f.name ∧ g.exponent.val = how.sign * f.exponent.val := by
  cases how with
  | multiply =>
      obtain rfl := Option.some.inj h
      exact ⟨rfl, (Int.one_mul _).symm⟩
  | divide =>
      obtain ⟨e, he, rfl⟩ := Option.map_eq_some_iff.mp h
      have hval : e.val = -f.exponent.val := Exponent.ofInt?_eq_some_iff.mp he
      exact ⟨rfl, by rw [hval, Combination.sign]; ring⟩

/-- **Factor by factor.** Distinct names are touched once each, so every step is exact. -/
theorem combine_factors {how : Combination} {fs : List Factor}
    (hnames : (fs.map Factor.name).Nodup) (hu : u.Normal)
    (h : fs.foldlM (fun u f => Combination.factor? how f >>= u.addFactor) u = some w) :
    w.Normal ∧
      ∀ name, w.exponentOf name = u.exponentOf name + how.sign * exponentIn name fs := by
  induction fs generalizing u with
  | nil =>
      obtain rfl := Option.some.inj h
      exact ⟨hu, fun name => by simp [exponentIn]⟩
  | cons f fs ih =>
      rw [List.foldlM_cons] at h
      obtain ⟨u', hstep, hrest⟩ := Option.bind_eq_some_iff.mp h
      obtain ⟨g, hg, hadd⟩ := Option.bind_eq_some_iff.mp hstep
      obtain ⟨hname, hexponent⟩ := factor?_eq_some hg
      rw [List.map_cons, List.nodup_cons] at hnames
      obtain ⟨hw, hexponents⟩ := ih hnames.2 (normal_addFactor hu hadd) hrest
      refine ⟨hw, fun name => ?_⟩
      rw [hexponents, exponentOf_addFactor hu hadd, hname, hexponent, exponentIn_cons]
      by_cases hf : f.name = name
      · rw [if_pos hf, if_pos hf, exponentIn_of_notMem (hf ▸ hnames.1)]
        ring
      · rw [if_neg hf, if_neg hf]
        ring

/-- A product or quotient of normal units is normal. -/
theorem normal_combine {how : Combination} (hu : u.Normal) (hv : v.Normal)
    (h : combine how u v = some w) : w.Normal :=
  (combine_factors hv.1 hu h).1

/-- **Products add exponents, quotients subtract them.** -/
theorem exponentOf_combine {how : Combination} (hu : u.Normal) (hv : v.Normal)
    (h : combine how u v = some w) (name : String) :
    w.exponentOf name = u.exponentOf name + how.sign * v.exponentOf name :=
  (combine_factors hv.1 hu h).2 name

/-- Raising a list of factors keeps the names and multiplies the exponents. -/
theorem mapM_power {n : Int} {fs gs : List Factor}
    (h : fs.mapM (fun f : Factor => (f.exponent.mul? n).map (⟨f.name, ·⟩)) = some gs) :
    gs.map Factor.name = fs.map Factor.name ∧
      gs.map (·.exponent.val) = fs.map (·.exponent.val * n) := by
  induction fs generalizing gs with
  | nil =>
      obtain rfl := Option.some.inj h
      exact ⟨rfl, rfl⟩
  | cons f fs ih =>
      rw [List.mapM_cons] at h
      obtain ⟨g, hg, hrest⟩ := Option.bind_eq_some_iff.mp h
      obtain ⟨gs', hgs', hcons⟩ := Option.bind_eq_some_iff.mp hrest
      obtain rfl := Option.some.inj hcons
      obtain ⟨e, he, rfl⟩ := Option.map_eq_some_iff.mp hg
      have hval : e.val = f.exponent.val * n := Exponent.ofInt?_eq_some_iff.mp he
      obtain ⟨hnames, hexponents⟩ := ih hgs'
      exact ⟨by simp [hnames], by simp [hval, hexponents]⟩

/-- The exponents of a list depend on its names and exponents only. -/
theorem exponentIn_of_map {n : Int} {fs gs : List Factor}
    (hnames : gs.map Factor.name = fs.map Factor.name)
    (hexponents : gs.map (·.exponent.val) = fs.map (·.exponent.val * n)) (name : String) :
    exponentIn name gs = exponentIn name fs * n := by
  induction fs generalizing gs with
  | nil =>
      obtain rfl := List.map_eq_nil_iff.mp hnames
      simp [exponentIn]
  | cons f fs ih =>
      obtain ⟨g, gs', rfl, hg, hgs'⟩ := List.map_eq_cons_iff.mp hnames
      simp only [List.map_cons, List.cons.injEq] at hexponents
      rw [exponentIn_cons, exponentIn_cons, hg, hexponents.1, ih hgs' hexponents.2]
      split <;> rfl

/-- **Powers multiply exponents**, and keep the form. -/
theorem power_spec {n : Int} (hu : u.Normal) (h : u.power n = some w) :
    w.Normal ∧ ∀ name, w.exponentOf name = u.exponentOf name * n := by
  unfold power at h
  split at h
  · rename_i hn
    obtain rfl := Option.some.inj h
    exact ⟨normal_dimensionless, fun name => by rw [hn, Int.mul_zero]; rfl⟩
  · rename_i hn
    obtain ⟨gs, hgs, rfl⟩ := Option.map_eq_some_iff.mp h
    obtain ⟨hnames, hexponents⟩ := mapM_power hgs
    refine ⟨⟨hnames ▸ hu.1, fun g hg => ?_⟩, exponentIn_of_map hnames hexponents⟩
    have hmem : g.exponent.val ∈ u.factors.map (·.exponent.val * n) :=
      hexponents ▸ List.mem_map_of_mem hg
    obtain ⟨f, hf, hval⟩ := List.mem_map.mp hmem
    exact hval ▸ Int.mul_ne_zero (hu.2 f hf) hn

/-! ## Labels -/

theorem normal_addFragment (hu : u.Normal) (fragment : List Char) (side : Side) :
    (addFragment u fragment side).Normal := by
  unfold addFragment
  by_cases hpure : isPureNumber fragment = true
  · rw [if_pos hpure]
    exact hu
  · rw [if_neg hpure]
    obtain ⟨name, exponent⟩ := splitFragment fragment
    dsimp only
    split
    · exact hu
    · split
      · rename_i v hv
        obtain ⟨e, -, hadd⟩ := Option.bind_eq_some_iff.mp hv
        exact normal_addFactor hu hadd
      · -- the fragment as a whole, if it fits
        cases hwhole : u.addFactor ⟨String.ofList fragment, side.unitExponent⟩ with
        | none => exact hu
        | some v => exact normal_addFactor hu hwhole

/-- **Every label is read into a normal unit.** -/
theorem normal_parse (label : String) : (parse label).Normal := by
  unfold parse
  generalize fragments label.toList = parts
  suffices ∀ u : CompoundUnit, u.Normal →
      (parts.foldl (fun u f => addFragment u f.1 f.2) u).Normal from this _ normal_dimensionless
  induction parts with
  | nil => exact fun u hu => hu
  | cons part parts ih => exact fun u hu => ih _ (normal_addFragment hu part.1 part.2)

end CompoundUnit

end Reckoner
