import Reckoner.Proofs.CompoundUnit.Legible
import Reckoner.Proofs.Formula.Dimension

/-!
# `Reckoner.Proofs.Formula.Expectation` — units that a session claims

A claim is met when it is read into the exponents of the computed unit, and adds one remark
otherwise. The label of the computed unit itself is such a claim as long as its factors are legible;
squaring `V/Hz^0.5` gives a label that is read into something else.

## Contents
- **Units of trees.** `UnitRule`: what constants and operations keep, the units of trees have.
- **Claims.** `evaluate_claiming`: what a claim adds to an answer.
- **The computed unit.** `computed_unit_claimed`, `plain_unit_claimed`, and a unit that is not met
  by its own label.
-/

namespace Reckoner

open CompoundUnit (AllNames Built IsPlain Named)

/-! ## Units of trees -/

/-- A property of units that pure numbers have and that operations keep. -/
structure UnitRule (Q : CompoundUnit → Prop) : Prop where
  pure : Q .dimensionless
  combine : ∀ {how u v w}, Q u → Q v → CompoundUnit.combine how u v = some w → Q w
  power : ∀ {n u w}, Q u → u.power n = some w → Q w

theorem unitRule_built : UnitRule Built := ⟨.dimensionless, .combine, .power⟩

theorem unitRule_allNames (P : String → Prop) : UnitRule (AllNames P) :=
  ⟨CompoundUnit.allNames_dimensionless, CompoundUnit.allNames_combine,
    CompoundUnit.allNames_power⟩

section Trees

variable {Q : CompoundUnit → Prop} {u v : CompoundUnit} {b : Bindings} {table : List Variable}

theorem UnitRule.orOverflow (hQ : UnitRule Q) {unit? : Option CompoundUnit}
    (h : ∀ w, unit? = some w → Q w) : Q (orOverflow u unit?).1 := by
  cases unit? with
  | none => exact hQ.pure
  | some w => exact h w rfl

/-- **One operation.** -/
theorem UnitRule.unit (hQ : UnitRule Q) (op : BinaryOp) (hu : Q u) (hv : Q v) (y : Float) :
    Q (op.unit u v y).1 := by
  cases op with
  | add => exact hu
  | sub => exact hu
  | mul => exact hQ.orOverflow fun w hw => hQ.combine hu hv hw
  | div => exact hQ.orOverflow fun w hw => hQ.combine hu hv hw
  | pow =>
      show Q (powerUnit u v y).1
      unfold powerUnit
      dsimp only
      split
      · exact hQ.pure
      · split
        · exact hQ.orOverflow fun w hw => hQ.power hu hw
        · exact hQ.pure

/-- **Every tree.** The unit of a tree has what the units of the bindings have. -/
theorem UnitRule.measure (hQ : UnitRule Q)
    (hb : ∀ name binding, b.find? name = some binding → Q binding.unit) (e : Expr) :
    Q (e.measure b).unit := by
  induction e with
  | number x => exact hQ.pure
  | symbol name =>
      rw [Expr.measure]
      cases hfound : b.find? name with
      | none => exact hQ.pure
      | some binding => exact hb name binding hfound
  | neg operand ih => exact ih
  | binary op left right ihl ihr => exact hQ.unit op ihl ihr _

/-- The unit of a formula has what the labels of the table are read into. -/
theorem UnitRule.measure_table (hQ : UnitRule Q)
    (htable : ∀ v ∈ table, Q (CompoundUnit.parse v.unit)) (e : Expr) :
    Q (e.measure (.ofVariables table)).unit := by
  apply hQ.measure
  intro name binding hfound
  rw [Bindings.find?_ofVariables] at hfound
  obtain ⟨v, hv, rfl⟩ := Option.map_eq_some_iff.mp hfound
  exact htable v (List.mem_of_find?_eq_some hv)

/-- **The unit of a formula is built** from the labels of its variables. -/
theorem built_measure (table : List Variable) (e : Expr) :
    Built (e.measure (.ofVariables table)).unit :=
  unitRule_built.measure_table (fun v _ => .parse v.unit) e

/-- The units of trees are normal, whatever values the variables were given. -/
theorem Labelled.normal_measure (h : Labelled table b) (e : Expr) : (e.measure b).unit.Normal := by
  apply CompoundUnit.Built.normal
  apply unitRule_built.measure
  intro name binding hfound
  have hunit := h name
  rw [hfound] at hunit
  obtain ⟨v, -, hparse⟩ := Option.map_eq_some_iff.mp hunit.symm
  rw [show binding.unit = _ from hparse.symm]
  exact .parse v.unit

end Trees

/-! ## Claims -/

/-- The session with a claim about its unit. -/
def Session.claiming (s : Session) (claim : String) : Session :=
  { s with expectedUnit := some claim }

/-- The answer with one more remark. -/
def Evaluation.remarking (a : Evaluation) (d : Diagnostic) : Evaluation :=
  { a with warnings := a.warnings ++ [d] }

variable {s : Session} {f : Formula} {claim : String}

/-- A session without a claim and without an error shows what its formula gives. -/
theorem evaluate_unclaimed (hnone : s.expectedUnit = none) (hok : s.evaluate.error = none) :
    ∃ f m, Formula.compile s.formula = .ok f ∧ f.evaluate (.ofVariables s.table) = .ok m ∧
      s.evaluate = ⟨some m.value, m.unit.label, m.remarks, none⟩ := by
  have hexpectation : s.expectation? = none := by
    rw [Session.expectation?, hnone]
    rfl
  unfold Session.evaluate at hok ⊢
  rw [hexpectation] at hok ⊢
  cases hf : Formula.compile s.formula with
  | error e =>
      rw [evaluate_of_error hf] at hok
      exact absurd hok (by simp [Evaluation.failure])
  | ok f =>
      rw [evaluate_of_ok hf] at hok ⊢
      unfold Formula.answer at hok ⊢
      cases hm : f.evaluate (.ofVariables s.table) with
      | error failure =>
          rw [hm] at hok
          exact absurd hok (by simp [Evaluation.failure])
      | ok m => exact ⟨f, m, rfl, hm, by simp⟩

/-- What a claim adds to the answer of a session. -/
theorem evaluate_claiming {m : Measure} (hf : Formula.compile s.formula = .ok f)
    (hm : f.evaluate (.ofVariables s.table) = .ok m) (hclaim : Text.isBlankText claim = false) :
    (s.claiming claim).evaluate =
      ⟨some m.value, m.unit.label,
        m.remarks ++ (if (CompoundUnit.parse claim).sameAs m.unit then []
          else [.unitMismatch (Text.trim claim) m.unit.display]), none⟩ := by
  have hne : Text.trim claim ≠ "" := by
    rw [ne_eq, Text.trim_eq_empty_iff, hclaim]
    decide
  have hexpectation : (s.claiming claim).expectation? = some (Text.trim claim) := by
    simp [Session.expectation?, Session.claiming, hne]
  have hmismatch : unexpectedUnit? (Text.trim claim) m.unit =
      if (CompoundUnit.parse claim).sameAs m.unit then none
      else some (.unitMismatch (Text.trim claim) m.unit.display) := by
    simp [unexpectedUnit?, Text.trim_trim, CompoundUnit.parse_trim, hne]
  have hanswer := evaluate_of_ok hf s.table (some (Text.trim claim))
  rw [Formula.answer, hm] at hanswer
  rw [Session.evaluate, hexpectation]
  show evaluate s.formula s.table (some (Text.trim claim)) = _
  rw [hanswer]
  dsimp only [Option.bind_some]
  rw [hmismatch]
  split <;> rfl

/-- **Claims are compared by exponents.** A claim with the exponents of the computed unit changes
    nothing, and any other adds one remark. -/
theorem evaluate_claiming_cases (hnone : s.expectedUnit = none) (hok : s.evaluate.error = none) :
    ∃ f u, Formula.compile s.formula = .ok f ∧ u = (f.tree.measure (.ofVariables s.table)).unit ∧
      s.evaluate.unit = u.label ∧ ∀ claim, Text.isBlankText claim = false →
        ((CompoundUnit.parse claim).exponentOf = u.exponentOf →
          (s.claiming claim).evaluate = s.evaluate) ∧
        ((CompoundUnit.parse claim).exponentOf ≠ u.exponentOf →
          (s.claiming claim).evaluate =
            s.evaluate.remarking (.unitMismatch (Text.trim claim) u.display)) := by
  obtain ⟨f, m, hf, hm, hanswer⟩ := evaluate_unclaimed hnone hok
  have hunit : m.unit = (f.tree.measure (.ofVariables s.table)).unit := by
    rw [(Formula.evaluate_eq_ok hm).2]
  have hnormal : m.unit.Normal := hunit ▸ (built_measure s.table f.tree).normal
  refine ⟨f, m.unit, hf, hunit, by rw [hanswer], fun claim hclaim => ?_⟩
  have hsame := CompoundUnit.sameAs_iff (CompoundUnit.normal_parse claim) hnormal
  rw [evaluate_claiming hf hm hclaim, hanswer]
  constructor
  · intro h
    rw [if_pos (hsame.mpr h), List.append_nil]
  · intro h
    rw [if_neg fun hequal => h (hsame.mp hequal)]
    rfl

/-! ## The computed unit -/

/-- The label of a built unit with legible factors claims its exponents. -/
theorem exponentOf_own_label {u : CompoundUnit} (hu : Built u) (hlabel : u.label ≠ "")
    (hlegible : ∀ f ∈ u.factors, f.IsLegible) :
    Text.isBlankText u.label = false ∧
      (CompoundUnit.parse u.label).exponentOf = u.exponentOf := by
  refine ⟨?_, CompoundUnit.exponentOf_parse_label hu.normal hu.named hlegible⟩
  rw [CompoundUnit.isBlankText_label hu.normal hu.named, CompoundUnit.isDimensionless,
    List.isEmpty_eq_false_iff]
  intro hnil
  exact hlabel ((CompoundUnit.label_eq_empty_iff hu.normal hu.named).mpr hnil)

/-- Factors from plain labels are legible, as long as no exponent has become the smallest one. -/
theorem legible_of_plain_labels {table : List Variable} {e : Expr}
    (hplain : ∀ v ∈ table, AllNames IsPlain (CompoundUnit.parse v.unit))
    (hbound : ∀ factor ∈ (e.measure (.ofVariables table)).unit.factors,
      factor.exponent.val ≠ -2147483648) :
    ∀ factor ∈ (e.measure (.ofVariables table)).unit.factors, factor.IsLegible := by
  intro factor hfactor
  have hbuilt := built_measure table e
  have hname := List.mem_map_of_mem (f := Factor.name) hfactor
  refine CompoundUnit.isLegible_of_isPlain (hbuilt.named _ hname)
    ((unitRule_allNames IsPlain).measure_table hplain e _ hname) (hbuilt.normal.2 factor hfactor) ?_
  have hfits := factor.exponent.fits
  have hsmallest := hbound factor hfactor
  unfold Exponent.Fits at hfits
  omega

/-- **Plain labels.** Where the labels of the table are read into plain names, the computed unit is
    met by its own label. -/
theorem plain_unit_claimed (hnone : s.expectedUnit = none) (hok : s.evaluate.error = none)
    (hunit : s.evaluate.unit ≠ "")
    (hplain : ∀ v ∈ s.table, AllNames IsPlain (CompoundUnit.parse v.unit))
    (hbound : ∀ f, Formula.compile s.formula = .ok f →
      ∀ factor ∈ (f.tree.measure (.ofVariables s.table)).unit.factors,
        factor.exponent.val ≠ -2147483648) :
    (s.claiming s.evaluate.unit).evaluate = s.evaluate := by
  obtain ⟨f, u, hf, rfl, hlabel, hclaims⟩ := evaluate_claiming_cases hnone hok
  rw [hlabel] at hunit ⊢
  have hlegible := legible_of_plain_labels hplain (hbound f hf)
  obtain ⟨hblank, hexponents⟩ := exponentOf_own_label (built_measure s.table f.tree) hunit hlegible
  exact (hclaims _ hblank).1 hexponents

/-- **A computed unit with legible factors, claimed back, is met.** For other claims it is the
    exponents that count. -/
theorem computed_unit_claimed (hnone : s.expectedUnit = none) (hok : s.evaluate.error = none)
    (hunit : s.evaluate.unit ≠ "") :
    ∃ f u, Formula.compile s.formula = .ok f ∧ u = (f.tree.measure (.ofVariables s.table)).unit ∧
      s.evaluate.unit = u.label ∧
      ((∀ factor ∈ u.factors, factor.IsLegible) →
        (s.claiming s.evaluate.unit).evaluate = s.evaluate) ∧
      (∀ claim, Text.isBlankText claim = false →
        (CompoundUnit.parse claim).exponentOf = u.exponentOf →
          (s.claiming claim).evaluate = s.evaluate) ∧
      ∀ claim, Text.isBlankText claim = false →
        (CompoundUnit.parse claim).exponentOf ≠ u.exponentOf →
          (s.claiming claim).evaluate =
            s.evaluate.remarking (.unitMismatch (Text.trim claim) u.display) := by
  obtain ⟨f, u, hf, hu, hlabel, hclaims⟩ := evaluate_claiming_cases hnone hok
  refine ⟨f, u, hf, hu, hlabel, fun hlegible => ?_, fun claim hclaim => (hclaims claim hclaim).1,
    fun claim hclaim => (hclaims claim hclaim).2⟩
  rw [hlabel] at hunit ⊢
  have hbuilt : Built u := hu ▸ built_measure s.table f.tree
  obtain ⟨hblank, hexponents⟩ := exponentOf_own_label hbuilt hunit hlegible
  exact (hclaims u.label hblank).1 hexponents

/-- A force at a lever, over the square of a time. -/
def lever : Session :=
  { table := [{ id := "F", symbol := "F", value := 3.0, unit := "N" },
      { id := "r", symbol := "r", value := 2.0, unit := "m" },
      { id := "t", symbol := "t", value := 4.0, unit := "s" }]
    formula := "F * r / (t * t)" }

/-- Its unit is met by its label and by the factors in another order, but not by joules. -/
theorem lever_claimed :
    lever.expectedUnit = none ∧ lever.evaluate.error = none ∧
      lever.evaluate.unit = "N m/s^2" ∧
      (lever.claiming "N m/s^2").evaluate = lever.evaluate ∧
      (lever.claiming "m N/s²").evaluate = lever.evaluate ∧
      (lever.claiming " J ").evaluate =
        lever.evaluate.remarking (.unitMismatch "J" "N m/s^2") := by
  have hok : lever.evaluate.error = none := by decide +kernel
  have hlabel : lever.evaluate.unit = "N m/s^2" := by decide +kernel
  obtain ⟨f, u, hf, hu, -, hown, hmet, hother⟩ :=
    computed_unit_claimed (s := lever) rfl hok (by rw [hlabel]; decide)
  have hfactors : (Formula.compile lever.formula).toOption.map
      (fun f => (f.tree.measure (.ofVariables lever.table)).unit) =
        some ⟨[⟨"N", ⟨1, by decide⟩⟩, ⟨"m", ⟨1, by decide⟩⟩, ⟨"s", ⟨-2, by decide⟩⟩]⟩ := by
    decide +kernel
  rw [hf, Except.toOption, Option.map_some, Option.some.injEq, ← hu] at hfactors
  have hnormal : u.Normal := hu ▸ (built_measure lever.table f.tree).normal
  subst hfactors
  rw [hlabel] at hown
  refine ⟨rfl, hok, hlabel, hown (by decide), hmet _ (by decide) ?_,
    hother " J " (by decide) fun h => ?_⟩
  · -- the same factors in another order
    exact CompoundUnit.exponentOf_of_perm hnormal (by decide)
  · exact absurd (congrFun h "N") (by decide)

/-- A noise density per root of a frequency, squared. -/
def noise : Session :=
  { table := [{ id := "n", symbol := "n", value := 2.0, unit := "V/Hz^0.5" }], formula := "n * n" }

/-- **Its unit is not met by its own label**: the square of the opaque `Hz^0.5` is written as
    `Hz^0.5^2`, and read as another opaque name. -/
theorem noise_not_met :
    noise.expectedUnit = none ∧ noise.evaluate.error = none ∧
      noise.evaluate.value = some 4.0 ∧ noise.evaluate.unit = "V^2/Hz^0.5^2" ∧
      noise.evaluate.warnings = [] ∧
      (noise.claiming noise.evaluate.unit).evaluate.warnings =
        [.unitMismatch "V^2/Hz^0.5^2" "V^2/Hz^0.5^2"] := by
  decide +kernel

end Reckoner
