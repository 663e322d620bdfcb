import Reckoner.Proofs.CompoundUnit.Comparison
import Reckoner.Proofs.Text.Words

/-!
# `Reckoner.Proofs.CompoundUnit.Built` — units that come from labels

Every unit starts as a label and is multiplied, divided and raised to powers from there. Whatever
the labels were, names stay distinct and free of blanks and separators, no exponent is 0, and a unit
with factors has a label with something to see.

## Contents
- **Names.** `IsName`: what a label is cut into, and what every operation keeps.
- **Built units.** `Built`, with its normal form and its names.
- **Labels.** `toList_label`: the two sides of a label, and when nothing is written.
- **All together.** `built_unit_laws`.
-/

namespace Reckoner

/-- The side of the line that a factor is written on. -/
def Factor.side (f : Factor) : CompoundUnit.Side :=
  if 0 < f.exponent.val then .numerator else .denominator

namespace CompoundUnit

/-! ## Names -/

/-- Nothing in the text ends a fragment of a label. -/
def Unbroken (cs : List Char) : Prop := ∀ c ∈ cs, c ≠ '/' ∧ isSeparator c = false

/-- The name of a unit: unbroken, and not a number. -/
structure IsName (name : String) : Prop where
  unbroken : Unbroken name.toList
  notNumeric : isNumericName name.toList = false

instance (name : String) : Decidable (IsName name) :=
  decidable_of_iff ((name.toList.all fun c => c != '/' && !isSeparator c) = true ∧
      isNumericName name.toList = false)
    ⟨fun h => ⟨fun c hc => by simpa using List.all_eq_true.mp h.1 c hc, h.2⟩, fun h =>
      ⟨List.all_eq_true.mpr fun c hc => by simpa using h.unbroken c hc, h.notNumeric⟩⟩

theorem IsName.toList_ne_nil {name : String} (h : IsName name) : name.toList ≠ [] := by
  intro hnil
  have hnumeric := h.notNumeric
  rw [hnil] at hnumeric
  exact absurd hnumeric (by decide)

theorem IsName.ne_empty {name : String} (h : IsName name) : name ≠ "" :=
  fun hempty => h.toList_ne_nil (by rw [hempty]; rfl)

/-- All names of a unit have a property. -/
def AllNames (P : String → Prop) (u : CompoundUnit) : Prop :=
  ∀ name ∈ u.factors.map Factor.name, P name

/-- The names of a unit are names. -/
abbrev Named (u : CompoundUnit) : Prop := AllNames IsName u

/-- A fragment is unbroken. -/
theorem mem_fragments {label : List Char} {part : List Char × Side} (h : part ∈ fragments label) :
    Unbroken part.1 := by
  rcases List.mem_append.mp h with habove | hbelow
  · obtain ⟨word, hword, rfl⟩ := List.mem_map.mp habove
    intro c hc
    obtain ⟨hmem, hseparator⟩ := (Text.mem_words hword).2 c hc
    have hslash := List.all_eq_true.mp List.all_takeWhile c hmem
    exact ⟨by simpa using hslash, hseparator⟩
  · obtain ⟨word, hword, rfl⟩ := List.mem_map.mp hbelow
    intro c hc
    have hseparator := ((Text.mem_words hword).2 c hc).2
    simpa using hseparator

/-- The name in a fragment is the front of it. -/
theorem splitFragment_front (fragment : List Char) : (splitFragment fragment).1 <+: fragment := by
  unfold splitFragment
  split
  · split
    · exact List.takeWhile_prefix _
    · exact List.prefix_rfl
  · split
    · split
      · exact List.takeWhile_prefix _
      · exact List.prefix_rfl
    · exact List.prefix_rfl

/-- The name in a fragment, and the fragment as a whole, are names unless the former is a number. -/
theorem isName_of_fragment {fragment : List Char} (h : Unbroken fragment)
    (hnumeric : isNumericName (splitFragment fragment).1 = false) :
    IsName (String.ofList (splitFragment fragment).1) ∧ IsName (String.ofList fragment) := by
  have hsubset := (splitFragment_front fragment).subset
  refine ⟨⟨?_, ?_⟩, ⟨?_, ?_⟩⟩
  · rw [String.toList_ofList]
    exact fun c hc => h c (hsubset hc)
  · rwa [String.toList_ofList]
  · rwa [String.toList_ofList]
  · -- a number throughout would have a number in front
    rw [String.toList_ofList, Bool.eq_false_iff]
    intro hall
    refine Bool.eq_false_iff.mp hnumeric (List.all_eq_true.mpr fun c hc => ?_)
    exact List.all_eq_true.mp hall c (hsubset hc)

variable {u v w : CompoundUnit} {P : String → Prop}

theorem allNames_dimensionless : AllNames P dimensionless :=
  fun _ h => absurd h (by simp [dimensionless])

theorem allNames_addFactor {f : Factor} (hu : AllNames P u) (hf : P f.name)
    (h : u.addFactor f = some w) : AllNames P w := by
  obtain ⟨gs, hgs, rfl⟩ := Option.map_eq_some_iff.mp h
  intro name hname
  rcases List.mem_cons.mp (names_addFactorTo hgs hname) with rfl | hmem
  · exact hf
  · exact hu name hmem

/-- A product or quotient brings in no other names. -/
theorem allNames_combine {how : Combination} (hu : AllNames P u) (hv : AllNames P v)
    (h : combine how u v = some w) : AllNames P w := by
  unfold combine at h
  unfold AllNames at hv
  generalize v.factors = fs at h hv
  induction fs generalizing u with
  | nil =>
      obtain rfl := Option.some.inj h
      exact hu
  | cons f fs ih =>
      rw [List.foldlM_cons] at h
      obtain ⟨u', hstep, hrest⟩ := Option.bind_eq_some_iff.mp h
      obtain ⟨g, hg, hadd⟩ := Option.bind_eq_some_iff.mp hstep
      rw [List.map_cons, List.forall_mem_cons] at hv
      have hgname : P g.name := (factor?_eq_some hg).1 ▸ hv.1
      exact ih (allNames_addFactor hu hgname hadd) hrest hv.2

/-- A power keeps the names, or has none. -/
theorem allNames_power {n : Int} (hu : AllNames P u) (h : u.power n = some w) : AllNames P w := by
  unfold power at h
  split at h
  · obtain rfl := Option.some.inj h
    exact allNames_dimensionless
  · obtain ⟨gs, hgs, rfl⟩ := Option.map_eq_some_iff.mp h
    intro name hname
    exact hu name ((mapM_power hgs).1 ▸ hname)

theorem named_addFragment (hu : Named u) {fragment : List Char} (h : Unbroken fragment)
    (side : Side) : Named (addFragment u fragment side) := by
  have hnames := isName_of_fragment h
  unfold addFragment
  split
  · exact hu
  · generalize splitFragment fragment = parts at hnames ⊢
    dsimp only
    split
    · exact hu
    · rename_i hnumeric
      obtain ⟨hname, hwhole⟩ := hnames (by simpa using hnumeric)
      split
      · rename_i v hv
        obtain ⟨e, -, hadd⟩ := Option.bind_eq_some_iff.mp hv
        exact allNames_addFactor hu hname hadd
      · cases hadd : u.addFactor ⟨String.ofList fragment, side.unitExponent⟩ with
        | none => exact hu
        | some v => exact allNames_addFactor hu hwhole hadd

/-- **Every label is read into names.** -/
theorem named_parse (label : String) : Named (parse label) := by
  unfold parse
  have hparts : ∀ part ∈ fragments label.toList, Unbroken part.1 := fun _ => mem_fragments
  generalize fragments label.toList = parts at hparts
  suffices ∀ u : CompoundUnit, Named u →
      Named (parts.foldl (fun u f => addFragment u f.1 f.2) u) from this _ allNames_dimensionless
  induction parts with
  | nil => exact fun u hu => hu
  | cons part parts ih =>
      rw [List.forall_mem_cons] at hparts
      exact fun u hu => ih hparts.2 _ (named_addFragment hu hparts.1 part.2)

/-! ## Built units -/

/-- The units that labels, products, quotients and whole powers give. -/
inductive Built : CompoundUnit → Prop
  | parse (label : String) : Built (parse label)
  | combine {how : Combination} {u v w : CompoundUnit} (left : Built u) (right : Built v)
      (h : combine how u v = some w) : Built w
  | power {n : Int} {u w : CompoundUnit} (base : Built u) (h : u.power n = some w) : Built w

theorem Built.normal (h : Built u) : u.Normal := by
  induction h with
  | parse label => exact normal_parse label
  | combine _ _ h ihl ihr => exact normal_combine ihl ihr h
  | power _ h ih => exact (power_spec ih h).1

theorem Built.named (h : Built u) : Named u := by
  induction h with
  | parse label => exact named_parse label
  | combine _ _ h ihl ihr => exact allNames_combine ihl ihr h
  | power _ h ih => exact allNames_power ih h

/-- The unit of a pure number is what nothing is read into. -/
theorem Built.dimensionless : Built CompoundUnit.dimensionless := .parse ""

/-! ## Labels -/

/-- The factors on one side of a label. -/
def sideFactors (u : CompoundUnit) : Side → List Factor
  | .numerator => u.factors.filter fun f => 0 < f.exponent.val
  | .denominator => u.factors.filter fun f => f.exponent.val < 0

/-- The texts of the factors on one side of a label. -/
def sideTexts (u : CompoundUnit) (side : Side) : List (List Char) :=
  ((u.sideFactors side).map factorText).map String.toList

/-- **A factor stands on its side** of the label, unless its exponent is 0. -/
theorem mem_sideFactors {f : Factor} {side : Side} (hne : f.exponent.val ≠ 0) :
    f ∈ u.sideFactors side ↔ f ∈ u.factors ∧ f.side = side := by
  have hbelow : f.exponent.val < 0 ↔ ¬ 0 < f.exponent.val := by omega
  cases side with
  | numerator => simp [sideFactors, Factor.side]
  | denominator => simp [sideFactors, Factor.side, hbelow]

/-- **The two sides of a label.** Nothing above the line is written as `1`, nothing below it not at
    all. -/
theorem toList_label (u : CompoundUnit) :
    u.label.toList =
      (if u.sideTexts .numerator = [] ∧ u.sideTexts .denominator ≠ [] then ['1']
        else [' '].intercalate (u.sideTexts .numerator)) ++
      if u.sideTexts .denominator = [] then []
        else '/' :: [' '].intercalate (u.sideTexts .denominator) := by
  have hany : ∀ keep : Factor → Bool,
      u.factors.any keep = !(u.factors.filter keep).isEmpty := by
    intro keep
    rw [Bool.eq_iff_iff, Bool.not_eq_true', List.isEmpty_eq_false_iff, ne_eq,
      List.filter_eq_nil_iff]
    simp
  unfold label sideTexts sideFactors
  dsimp only
  rw [hany, hany]
  generalize u.factors.filter (fun f => decide (0 < f.exponent.val)) = above
  generalize u.factors.filter (fun f => decide (f.exponent.val < 0)) = below
  cases above with
  | nil => cases below <;> simp [String.toList_append]
  | cons f fs => cases below <;> simp [String.toList_append]

/-- A factor's text begins with its name. -/
theorem toList_factorText (f : Factor) :
    (factorText f).toList = f.name.toList ++
      if f.exponent.val.natAbs = 1 then [] else '^' :: Decimal.digitsOf f.exponent.val.natAbs := by
  unfold factorText
  dsimp only
  split <;> simp [String.toList_append]

/-- **All names stand in the label.** -/
theorem name_subset_label {f : Factor} (hf : f ∈ u.factors) (hne : f.exponent.val ≠ 0) :
    f.name.toList ⊆ u.label.toList := by
  have htext : f.name.toList ⊆ (factorText f).toList := by
    rw [toList_factorText]
    exact List.subset_append_left _ _
  have hmem : (factorText f).toList ∈ u.sideTexts f.side :=
    List.mem_map_of_mem (List.mem_map_of_mem ((mem_sideFactors hne).mpr ⟨hf, rfl⟩))
  intro c hc
  rw [toList_label, List.mem_append]
  cases hside : f.side with
  | numerator =>
      rw [hside] at hmem
      rw [if_neg fun h => List.ne_nil_of_mem hmem h.1]
      exact .inl (Text.subset_intercalate hmem (htext hc))
  | denominator =>
      rw [hside] at hmem
      rw [if_neg (List.ne_nil_of_mem hmem)]
      exact .inr (List.mem_cons_of_mem _ (Text.subset_intercalate hmem (htext hc)))

/-- **A label is blank** for a unit without factors only. -/
theorem isBlankText_label (hu : u.Normal) (hnamed : Named u) :
    Text.isBlankText u.label = u.isDimensionless := by
  obtain ⟨factors⟩ := u
  cases factors with
  | nil => rfl
  | cons f fs =>
      have hname := hnamed f.name (by simp)
      obtain ⟨c, hc⟩ := List.exists_mem_of_ne_nil _ hname.toList_ne_nil
      have hblank : Text.isBlank c = false := by
        have hseparator := (hname.unbroken c hc).2
        simp only [isSeparator, Bool.or_eq_false_iff] at hseparator
        exact hseparator.1.1.1.1.1
      have hmem := name_subset_label (u := ⟨f :: fs⟩) List.mem_cons_self
        (hu.2 f List.mem_cons_self) hc
      refine Bool.eq_false_iff.mpr fun hall => ?_
      rw [List.all_eq_true.mp hall c hmem] at hblank
      exact absurd hblank (by decide)

/-- Nothing is written for a unit without factors only. -/
theorem label_eq_empty_iff (hu : u.Normal) (hnamed : Named u) : u.label = "" ↔ u.factors = [] := by
  rw [← List.isEmpty_iff, ← isDimensionless, ← isBlankText_label hu hnamed]
  constructor
  · intro h
    rw [h]
    rfl
  · intro h
    rw [isBlankText_label hu hnamed, isDimensionless, List.isEmpty_iff] at h
    rw [show u = ⟨[]⟩ by cases u; simp_all]
    rfl

/-! ## All together -/

/-- **The laws of built units.** Names are distinct and unbroken, exponents are not 0; the
    comparison is that of exponents, so it is an equivalence and does not see the order of factors;
    and the display of a unit is that of its label. -/
theorem built_unit_laws (hu : Built u) (hv : Built v) (hw : Built w) :
    ((u.factors.map Factor.name).Nodup ∧
      ∀ f ∈ u.factors, f.exponent.val ≠ 0 ∧ f.name ≠ "" ∧
        ∀ c ∈ f.name.toList, Text.isBlank c = false ∧ c ∉ ['/', '*', '·', '⋅', '(', ')']) ∧
      (u.sameAs v = true ↔ ∀ name, u.exponentOf name = v.exponentOf name) ∧
      u.sameAs u = true ∧ (u.sameAs v = true → v.sameAs u = true) ∧
      (u.sameAs v = true → v.sameAs w = true → u.sameAs w = true) ∧
      (∀ u' v' : CompoundUnit, u'.factors.Perm u.factors → v'.factors.Perm v.factors →
        u'.sameAs v' = u.sameAs v) ∧
      (u.label = "" ↔ u.factors = []) ∧ u.display = displayLabel u.label := by
  have huv := sameAs_iff hu.normal hv.normal
  refine ⟨⟨hu.normal.1, fun f hf => ?_⟩, ?_, ?_, ?_, ?_, ?_, ?_, ?_⟩
  · have hname := hu.named f.name (List.mem_map_of_mem hf)
    refine ⟨hu.normal.2 f hf, hname.ne_empty, fun c hc => ?_⟩
    have hunbroken := hname.unbroken c hc
    simp only [isSeparator, Bool.or_eq_false_iff, beq_eq_false_iff_ne] at hunbroken
    simp only [List.mem_cons, List.not_mem_nil, or_false, not_or]
    tauto
  · rw [huv, funext_iff]
  · exact (sameAs_iff hu.normal hu.normal).mpr rfl
  · intro h
    exact (sameAs_iff hv.normal hu.normal).mpr (huv.mp h).symm
  · intro h h'
    have hvw := (sameAs_iff hv.normal hw.normal).mp h'
    exact (sameAs_iff hu.normal hw.normal).mpr ((huv.mp h).trans hvw)
  · intro u' v' hpermu hpermv
    rw [Bool.eq_iff_iff, huv,
      sameAs_iff (normal_of_perm hu.normal hpermu) (normal_of_perm hv.normal hpermv),
      exponentOf_of_perm hu.normal hpermu, exponentOf_of_perm hv.normal hpermv]
  · exact label_eq_empty_iff hu.normal hu.named
  · rw [display, displayLabel, isBlankText_label hu.normal hu.named]

/-- A quotient, a label with a superscript and a power, with the same exponents in three orders. -/
theorem built_units_reordered :
    ∃ u v w : CompoundUnit, combine .divide (parse "N m/s^2") (parse "m²") = some u ∧
      v = parse "N/s² m" ∧ (parse "s^2 m/N").power (-1) = some w ∧
      (u.factors.map Factor.name = ["N", "m", "s"] ∧ w.factors.map Factor.name = ["s", "m", "N"]) ∧
      (∀ name, u.exponentOf name = v.exponentOf name) ∧ u.sameAs w = true ∧
      u.display = displayLabel u.label := by
  let u : CompoundUnit :=
    ⟨[⟨"N", ⟨1, by decide⟩⟩, ⟨"m", ⟨-1, by decide⟩⟩, ⟨"s", ⟨-2, by decide⟩⟩]⟩
  let w : CompoundUnit :=
    ⟨[⟨"s", ⟨-2, by decide⟩⟩, ⟨"m", ⟨-1, by decide⟩⟩, ⟨"N", ⟨1, by decide⟩⟩]⟩
  have hquotient : combine .divide (parse "N m/s^2") (parse "m²") = some u := by decide
  have hpower : (parse "s^2 m/N").power (-1) = some w := by decide
  have hu : Built u := .combine (.parse _) (.parse _) hquotient
  have hw : Built w := .power (.parse _) hpower
  obtain ⟨-, hsame, -, -, htrans, -, -, hdisplay⟩ := built_unit_laws hu (.parse "N/s² m") hw
  refine ⟨u, _, w, hquotient, rfl, hpower, ⟨rfl, rfl⟩, ?_, ?_, hdisplay⟩
  · exact hsame.mp (by decide)
  · exact htrans (by decide) (by decide)

end CompoundUnit

end Reckoner
