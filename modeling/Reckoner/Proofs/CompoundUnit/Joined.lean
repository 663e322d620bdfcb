import Reckoner.Proofs.CompoundUnit.Algebra
import Reckoner.Proofs.CompoundUnit.Legible

/-!
# `Reckoner.Proofs.CompoundUnit.Joined` — labels that are put together

A label is read fragment by fragment, into one unit that grows and cancels on the way. As long as no
exponent leaves its range, each fragment just adds its exponents, so it does not matter whether two
texts are read in one go or apart: a blank between them is a product, a slash a quotient.

## Contents
- **Fragments.** Where a text is cut when texts are joined, and that gaps are all alike.
- **Exact reading.** `parse?`: the unit of a label, unless an exponent leaves its range on the way.
- **Sums.** What reading adds, fragment by fragment.
- **Joined labels.** `joined_labels_combine`.
-/

namespace Reckoner.CompoundUnit

variable {u w : CompoundUnit} {front back gap gap' : List Char}

/-! ## Fragments -/

theorem noSlash_of_seps (hgap : ∀ c ∈ gap, isSeparator c = true) : '/' ∉ gap := by
  intro hslash
  exact absurd (hgap _ hslash) (by decide)

/-- Behind the line, slashes separate like the other separators. -/
theorem fragments_append_of_slash (hslash : '/' ∈ front) (hne : gap ≠ [])
    (hgap : ∀ c ∈ gap, (c == '/' || isSeparator c) = true) (back : List Char) :
    fragments (front ++ gap ++ back) = fragments front ++
      (Text.words (fun c => c == '/' || isSeparator c) back).map (·, .denominator) := by
  obtain ⟨above, below, rfl, habove⟩ := List.eq_append_cons_of_mem hslash
  rw [List.append_assoc, List.append_assoc, List.cons_append, ← List.append_assoc below,
    fragments_slash habove, fragments_slash habove, Text.words_append_gap hne hgap,
    List.map_append, List.append_assoc]

/-- In front of the line, a gap cuts the fragments in two. -/
theorem fragments_append_of_noSlash (hslash : '/' ∉ front) (hne : gap ≠ [])
    (hgap : ∀ c ∈ gap, isSeparator c = true) (back : List Char) :
    fragments (front ++ gap ++ back) = fragments front ++ fragments back := by
  have hnoSlash := noSlash_of_seps hgap
  -- the line, if there is one, stands in the text behind
  by_cases hback : '/' ∈ back
  · obtain ⟨above, below, rfl, habove⟩ := List.eq_append_cons_of_mem hback
    rw [← List.append_assoc, fragments_slash (by simp [hslash, hnoSlash, habove]),
      fragments_slash habove, fragments_of_noSlash hslash, Text.words_append_gap hne hgap,
      List.map_append, List.append_assoc]
  · rw [fragments_of_noSlash (by simp [hslash, hnoSlash, hback]), fragments_of_noSlash hslash,
      fragments_of_noSlash hback, Text.words_append_gap hne hgap, List.map_append]

/-- What stands behind a slash is below the line. -/
theorem fragments_append_slash (hback : '/' ∉ back) (front : List Char) :
    fragments (front ++ ['/'] ++ back) =
      fragments front ++ (Text.words isSeparator back).map (·, .denominator) := by
  have hwords : Text.words (fun c => c == '/' || isSeparator c) back =
      Text.words isSeparator back := by
    refine Text.words_congr fun c hc => ?_
    have hc' : (c == '/') = false := by
      rw [beq_eq_false_iff_ne]
      rintro rfl
      exact hback hc
    rw [hc', Bool.false_or]
  -- the slash is a separator behind the line, or it is the line
  by_cases hfront : '/' ∈ front
  · rw [fragments_append_of_slash hfront (List.cons_ne_nil _ _) (by simp), hwords]
  · rw [List.append_assoc, List.singleton_append, fragments_slash hfront,
      fragments_of_noSlash hfront, hwords]

/-- **All gaps are alike**: only that there is a separator counts. -/
theorem fragments_gap (hne : gap ≠ []) (hgap : ∀ c ∈ gap, isSeparator c = true)
    (hne' : gap' ≠ []) (hgap' : ∀ c ∈ gap', isSeparator c = true) (front back : List Char) :
    fragments (front ++ gap ++ back) = fragments (front ++ gap' ++ back) := by
  by_cases hfront : '/' ∈ front
  · rw [fragments_append_of_slash hfront hne fun c hc => by rw [hgap c hc, Bool.or_true],
      fragments_append_of_slash hfront hne' fun c hc => by rw [hgap' c hc, Bool.or_true]]
  · rw [fragments_append_of_noSlash hfront hne hgap, fragments_append_of_noSlash hfront hne' hgap']

/-! ## Exact reading -/

/-- How a fragment on that side enters a unit. -/
def Side.combination : Side → Combination
  | .numerator => .multiply
  | .denominator => .divide

/-- The factor that a fragment stands for, whatever its side; a number stands for none. -/
def factorOf? (fragment : List Char) : Option Factor :=
  if isPureNumber fragment then none
  else
    let (name, exponent) := splitFragment fragment
    if isNumericName name then none else some ⟨String.ofList name, exponent⟩

/-- Adds a fragment to a unit, unless an exponent leaves its range. -/
def addFragment? (u : CompoundUnit) (fragment : List Char) (side : Side) : Option CompoundUnit :=
  match factorOf? fragment with
  | none => some u
  | some f => Combination.factor? side.combination f >>= u.addFactor

/-- Adds fragments one after the other, unless an exponent leaves its range. -/
def addFragments? (u : CompoundUnit) (parts : List (List Char × Side)) : Option CompoundUnit :=
  parts.foldlM (fun u part => addFragment? u part.1 part.2) u

/-- The unit of a label, unless an exponent leaves its range on the way. -/
def parse? (label : String) : Option CompoundUnit :=
  addFragments? dimensionless (fragments label.toList)

theorem addFragments?_append {parts more : List (List Char × Side)} :
    addFragments? u (parts ++ more) = addFragments? u parts >>= (addFragments? · more) :=
  List.foldlM_append

/-- **Where no exponent leaves its range**, no fragment is taken for an opaque name. -/
theorem addFragment_of_addFragment? {fragment : List Char} {side : Side}
    (h : addFragment? u fragment side = some w) : addFragment u fragment side = w := by
  have henter : ∀ (name : String) (e : Exponent),
      Combination.factor? side.combination ⟨name, e⟩ >>= u.addFactor =
        side.exponent? e >>= fun e => u.addFactor ⟨name, e⟩ := by
    intro name e
    cases side with
    | numerator => rfl
    | denominator =>
        rw [Side.combination, Combination.factor?, Side.exponent?]
        cases e.neg? <;> rfl
  -- both readers take the same branches, up to the step that can fail
  unfold addFragment? factorOf? at h
  unfold addFragment
  by_cases hpure : isPureNumber fragment = true
  · rw [if_pos hpure] at h ⊢
    exact Option.some.inj h
  · rw [if_neg hpure] at h ⊢
    generalize splitFragment fragment = parts at h ⊢
    obtain ⟨name, e⟩ := parts
    dsimp only at h ⊢
    by_cases hnumeric : isNumericName name = true
    · rw [if_pos hnumeric] at h ⊢
      exact Option.some.inj h
    · rw [if_neg hnumeric] at h ⊢
      dsimp only at h
      rw [henter] at h
      rw [h]

theorem parse_of_parse? {label : String} (h : parse? label = some w) : parse label = w := by
  unfold parse? addFragments? at h
  unfold parse
  generalize fragments label.toList = parts at h ⊢
  generalize dimensionless = u at h ⊢
  induction parts generalizing u with
  | nil => exact Option.some.inj h
  | cons part parts ih =>
      rw [List.foldlM_cons] at h
      obtain ⟨v, hv, hrest⟩ := Option.bind_eq_some_iff.mp h
      rw [List.foldl_cons, addFragment_of_addFragment? hv]
      exact ih v hrest

/-! ## Sums -/

/-- What a fragment adds to the exponents of a unit. -/
def fragmentExponents (part : List Char × Side) : String → Int :=
  match factorOf? part.1 with
  | none => 0
  | some f => part.2.combination.sign • exponentOf ⟨[f]⟩

/-- Below the line, a fragment takes away what it adds above. -/
theorem fragmentExponents_denominator (fragment : List Char) :
    fragmentExponents (fragment, .denominator) = -fragmentExponents (fragment, .numerator) := by
  unfold fragmentExponents
  cases factorOf? fragment with
  | none => exact neg_zero.symm
  | some f => exact neg_one_zsmul _ |>.trans (congrArg _ (one_zsmul _).symm)

theorem sum_denominator (texts : List (List Char)) :
    ((texts.map (·, Side.denominator)).map fragmentExponents).sum =
      -((texts.map (·, Side.numerator)).map fragmentExponents).sum := by
  induction texts with
  | nil => exact neg_zero.symm
  | cons text texts ih =>
      rw [List.map_cons, List.map_cons, List.sum_cons, List.map_cons, List.map_cons, List.sum_cons,
        ih, fragmentExponents_denominator, neg_add]

theorem addFragment?_spec {part : List Char × Side} (hu : u.Normal)
    (h : addFragment? u part.1 part.2 = some w) :
    w.Normal ∧ w.exponentOf = u.exponentOf + fragmentExponents part := by
  unfold addFragment? at h
  unfold fragmentExponents
  cases hfactor : factorOf? part.1 with
  | none =>
      rw [hfactor] at h
      obtain rfl := Option.some.inj h
      exact ⟨hu, (add_zero _).symm⟩
  | some f =>
      rw [hfactor] at h
      obtain ⟨g, hg, hadd⟩ := Option.bind_eq_some_iff.mp h
      obtain ⟨hname, hexponent⟩ := factor?_eq_some hg
      refine ⟨normal_addFactor hu hadd, funext fun name => ?_⟩
      show w.exponentOf name =
        u.exponentOf name + part.2.combination.sign * exponentIn name [f]
      rw [exponentOf_addFactor hu hadd, hname, hexponent, exponentIn_cons, exponentIn]
      split
      · rfl
      · rw [Int.mul_zero]

/-- **Reading adds up.** Where no exponent leaves its range, the exponents of a unit grow by those
    of the fragments, in whatever order they come. -/
theorem addFragments?_spec {parts : List (List Char × Side)} (hu : u.Normal)
    (h : addFragments? u parts = some w) :
    w.Normal ∧ w.exponentOf = u.exponentOf + (parts.map fragmentExponents).sum := by
  induction parts generalizing u with
  | nil =>
      obtain rfl := Option.some.inj h
      exact ⟨hu, (add_zero _).symm⟩
  | cons part parts ih =>
      rw [addFragments?, List.foldlM_cons] at h
      obtain ⟨v, hv, hrest⟩ := Option.bind_eq_some_iff.mp h
      obtain ⟨hnormal, hexponents⟩ := addFragment?_spec hu hv
      obtain ⟨hw, hsum⟩ := ih hnormal hrest
      exact ⟨hw, by rw [hsum, hexponents, List.map_cons, List.sum_cons, add_assoc]⟩

/-- The exponents of a label are the sum over its fragments. -/
theorem exponentOf_parse {label : String} (h : (parse? label).isSome = true) :
    (parse label).exponentOf = ((fragments label.toList).map fragmentExponents).sum := by
  obtain ⟨w, hw⟩ := Option.isSome_iff_exists.mp h
  rw [parse_of_parse? hw, (addFragments?_spec normal_dimensionless hw).2, exponentOf_dimensionless,
    zero_add]

/-- A front of the fragments is read exactly if all of them are. -/
theorem isSome_parse?_of_append {label front : String} {more : List (List Char × Side)}
    (hparts : fragments label.toList = fragments front.toList ++ more)
    (h : (parse? label).isSome = true) : (parse? front).isSome = true := by
  rw [parse?, hparts, addFragments?_append] at h
  cases hfront : addFragments? dimensionless (fragments front.toList) with
  | none =>
      rw [hfront] at h
      cases h
  | some u => rw [parse?, hfront, Option.isSome_some]

/-! ## Joined labels -/

variable {x y : String}

theorem exponentOf_parse_blank (hx : '/' ∉ x.toList)
    (hexact : (parse? (x ++ " " ++ y)).isSome = true) (hy : (parse? y).isSome = true) :
    (parse (x ++ " " ++ y)).exponentOf = (parse x).exponentOf + (parse y).exponentOf := by
  have hparts : fragments (x ++ " " ++ y).toList = fragments x.toList ++ fragments y.toList := by
    rw [String.toList_append, String.toList_append]
    exact fragments_append_of_noSlash hx (List.cons_ne_nil _ _)
      (List.forall_mem_singleton.mpr (by decide)) _
  have hx' := isSome_parse?_of_append hparts hexact
  rw [exponentOf_parse hexact, exponentOf_parse hx', exponentOf_parse hy, hparts, List.map_append,
    List.sum_append]

theorem exponentOf_parse_slash (hy : '/' ∉ y.toList)
    (hexact : (parse? (x ++ "/" ++ y)).isSome = true) (hy' : (parse? y).isSome = true) :
    (parse (x ++ "/" ++ y)).exponentOf = (parse x).exponentOf - (parse y).exponentOf := by
  have hparts : fragments (x ++ "/" ++ y).toList =
      fragments x.toList ++ (Text.words isSeparator y.toList).map (·, .denominator) := by
    rw [String.toList_append, String.toList_append]
    exact fragments_append_slash hy _
  have hx' := isSome_parse?_of_append hparts hexact
  rw [exponentOf_parse hexact, exponentOf_parse hx', exponentOf_parse hy', hparts,
    fragments_of_noSlash hy, List.map_append, List.sum_append, sum_denominator, sub_eq_add_neg]

/-- Behind a slash, another one is a blank. -/
theorem parse_second_slash (hx : '/' ∈ x.toList) (y : String) :
    parse (x ++ "/" ++ y) = parse (x ++ " " ++ y) := by
  have hcut : ∀ c, (c == '/' || isSeparator c) = true → fragments (x.toList ++ [c] ++ y.toList) =
      fragments x.toList ++
        (Text.words (fun c => c == '/' || isSeparator c) y.toList).map (·, .denominator) := by
    intro c hc
    exact fragments_append_of_slash hx (List.cons_ne_nil _ _) (List.forall_mem_singleton.mpr hc) _
  rw [parse, parse, String.toList_append, String.toList_append, String.toList_append,
    String.toList_append]
  exact congrArg _ ((hcut '/' (by decide)).trans (hcut ' ' (by decide)).symm)

/-- A gap between fragments: separators, one at least. -/
structure IsGap (gap : String) : Prop where
  nonempty : gap.toList ≠ []
  separators : ∀ c ∈ gap.toList, isSeparator c = true

instance (gap : String) : Decidable (IsGap gap) :=
  decidable_of_iff (gap.toList ≠ [] ∧ gap.toList.all isSeparator = true)
    ⟨fun h => ⟨h.1, List.all_eq_true.mp h.2⟩, fun h =>
      ⟨h.nonempty, List.all_eq_true.mpr h.separators⟩⟩

/-- **Joined labels are combined units.** Where no exponent leaves its range on either way, a label
    put together with a blank is the product of its parts and one put together with a slash is their
    quotient. A second slash is a blank. Gaps are all alike, whichever separators they are made of
    and however many. -/
theorem joined_labels_combine (x y z : String) :
    ('/' ∉ x.toList → (parse? (x ++ " " ++ y)).isSome = true → (parse? y).isSome = true →
      ∃ w, combine .multiply (parse x) (parse y) = some w ∧
        (parse (x ++ " " ++ y)).sameAs w = true) ∧
      ('/' ∉ y.toList → (parse? (x ++ "/" ++ y)).isSome = true → (parse? y).isSome = true →
        (∀ f ∈ (parse y).factors, f.exponent ≠ .lowest) →
        ∃ w, combine .divide (parse x) (parse y) = some w ∧
          (parse (x ++ "/" ++ y)).sameAs w = true) ∧
      parse (x ++ "/" ++ y ++ "/" ++ z) = parse (x ++ "/" ++ y ++ " " ++ z) ∧
      ∀ front back gap gap' : String, IsGap gap → IsGap gap' →
        parse (front ++ gap ++ back) = parse (front ++ gap' ++ back) := by
  have hproduct := computes_product (normal_parse x) (normal_parse y)
  have hquotient := computes_quotient (normal_parse x) (normal_parse y)
  refine ⟨fun hx hexact hy => ?_, fun hy hexact hy' hlowest => ?_, ?_, ?_⟩
  · have hsum := exponentOf_parse_blank hx hexact hy
    obtain ⟨w, hw, hnormal, hexponents⟩ := hproduct.exists (hsum ▸ inRange_exponentOf _)
    exact ⟨w, hw, (sameAs_iff (normal_parse _) hnormal).mpr (hsum.trans hexponents.symm)⟩
  · have hdifference := exponentOf_parse_slash hy hexact hy'
    obtain ⟨w, hw, hnormal, hexponents⟩ :=
      hquotient.exists ⟨hlowest, hdifference ▸ inRange_exponentOf _⟩
    exact ⟨w, hw, (sameAs_iff (normal_parse _) hnormal).mpr (hdifference.trans hexponents.symm)⟩
  · exact parse_second_slash (by simp [String.toList_append]) z
  · intro front back gap gap' hgap hgap'
    rw [parse, parse, String.toList_append, String.toList_append, String.toList_append,
      String.toList_append,
      fragments_gap hgap.nonempty hgap.separators hgap'.nonempty hgap'.separators]

/-- Factors that cancel between the parts, inside one part only, and not at all. -/
theorem joined_labels_of_momentum :
    let x := "kg m"
    let y := "s^2 m s^-1"
    let z := "(A K)"
    ('/' ∉ x.toList ∧ '/' ∉ y.toList ∧ (parse? (x ++ " " ++ y)).isSome = true ∧
      (parse? (x ++ "/" ++ y)).isSome = true ∧ (parse? y).isSome = true ∧
      ∀ f ∈ (parse y).factors, f.exponent ≠ .lowest) ∧
      (combine .multiply (parse x) (parse y) = some (parse "kg m^2 s") ∧
        (parse (x ++ " " ++ y)).sameAs (parse "kg m^2 s") = true) ∧
      (combine .divide (parse x) (parse y) = some (parse "kg/s") ∧
        (parse (x ++ "/" ++ y)).sameAs (parse "kg/s") = true) ∧
      parse (x ++ "/" ++ y ++ "/" ++ z) = parse (x ++ "/" ++ y ++ " " ++ z) ∧
      (IsGap " " ∧ IsGap "·(" ∧ parse ("kg" ++ " " ++ "m/s") = parse ("kg" ++ "·(" ++ "m/s")) := by
  intro x y z
  have hx : '/' ∉ x.toList := by decide
  have hy : '/' ∉ y.toList := by decide
  have hblank : (parse? (x ++ " " ++ y)).isSome = true := by decide +kernel
  have hslash : (parse? (x ++ "/" ++ y)).isSome = true := by decide +kernel
  have hexact : (parse? y).isSome = true := by decide +kernel
  have hlowest : ∀ f ∈ (parse y).factors, f.exponent ≠ .lowest := by decide +kernel
  have hgap : IsGap " " := by decide
  have hgap' : IsGap "·(" := by decide
  obtain ⟨hproduct, hquotient, hsecond, hgaps⟩ := joined_labels_combine x y z
  obtain ⟨w, hw, hsame⟩ := hproduct hx hblank hexact
  obtain ⟨q, hq, hsame'⟩ := hquotient hy hslash hexact hlowest
  have hw' : combine .multiply (parse x) (parse y) = some (parse "kg m^2 s") := by decide +kernel
  have hq' : combine .divide (parse x) (parse y) = some (parse "kg/s") := by decide +kernel
  obtain rfl : w = parse "kg m^2 s" := Option.some.inj (hw.symm.trans hw')
  obtain rfl : q = parse "kg/s" := Option.some.inj (hq.symm.trans hq')
  exact ⟨⟨hx, hy, hblank, hslash, hexact, hlowest⟩, ⟨hw, hsame⟩, ⟨hq, hsame'⟩, hsecond,
    hgap, hgap', hgaps "kg" "m/s" " " "·(" hgap hgap'⟩

/-- Where the sum does not fit, neither is the label read exactly nor the product defined. -/
example : parse? "m^2147483647 m" = none ∧
    combine .multiply (parse "m^2147483647") (parse "m") = none := by
  decide +kernel

end Reckoner.CompoundUnit
