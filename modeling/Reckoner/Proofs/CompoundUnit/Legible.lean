import Reckoner.Proofs.CompoundUnit.Built
import Reckoner.Proofs.Decimal.Digits

/-!
# `Reckoner.Proofs.CompoundUnit.Legible` — labels that are read back

A label is cut into the texts of the factors it was written from. Whether reading gives the unit
back is then a matter of single factors: `m^2` is read as the square of `m`, but `m^x^2`, the square
of the opaque `m^x`, is read as something opaque again.

## Contents
- **Cutting.** `parse_trim`: blanks around a label do not count. `fragments_label`: the fragments of
  a label are the texts of the factors.
- **Legible factors.** `Factor.IsLegible`, and `exponentOf_parse_label` for units made of them.
- **Which factors are legible.** `isLegible_power_iff` for powers, `isLegible_of_isPlain` for names
  without marks of an exponent.
- **Canonical labels.** `canonical_label_round_trip`: labels of plain names are read and written
  again without a change.
-/

namespace Reckoner

open CompoundUnit

/-- **A legible factor** is read back from its own label. -/
def Factor.IsLegible (f : Factor) : Prop := parse (label ⟨[f]⟩) = ⟨[f]⟩

instance (f : Factor) : Decidable f.IsLegible := inferInstanceAs (Decidable (_ = _))

namespace CompoundUnit

variable {u : CompoundUnit} {f : Factor}

/-! ## Cutting -/

/-- A character that does not occur differs from every one that does. -/
theorem bne_of_notMem {d : Char} {cs : List Char} (h : d ∉ cs) : ∀ c ∈ cs, (c != d) = true := by
  intro c hc
  rw [bne_iff_ne]
  rintro rfl
  exact h hc

/-- A label without a slash is all above the line. -/
theorem fragments_of_noSlash {cs : List Char} (h : '/' ∉ cs) :
    fragments cs = (Text.words isSeparator cs).map (·, .numerator) := by
  have hall := bne_of_notMem h
  rw [fragments, ← List.append_nil cs, List.takeWhile_append_of_pos hall,
    List.dropWhile_append_of_pos hall]
  simp

/-- The first slash is the line; those behind it only separate. -/
theorem fragments_slash {above below : List Char} (h : '/' ∉ above) :
    fragments (above ++ '/' :: below) =
      (Text.words isSeparator above).map (·, .numerator) ++
        (Text.words (fun c => c == '/' || isSeparator c) below).map (·, .denominator) := by
  have hfront := bne_of_notMem h
  have hback : ∀ c ∈ ('/' :: below).head?, (c != '/') = false := by simp
  rw [fragments, Decimal.takeWhile_of_boundary hfront hback,
    Decimal.dropWhile_of_boundary hfront hback, Text.words_cons_sep (by decide)]

theorem of_isBlank {c : Char} (h : Text.isBlank c = true) : c ≠ '/' ∧ isSeparator c = true := by
  refine ⟨?_, by simp [isSeparator, h]⟩
  rintro rfl
  exact absurd h (by decide)

theorem fragments_of_blanks_append {front cs : List Char}
    (hfront : ∀ c ∈ front, Text.isBlank c = true) : fragments (front ++ cs) = fragments cs := by
  have hseparator : ∀ c ∈ front, isSeparator c = true := fun c hc => (of_isBlank (hfront c hc)).2
  have hnoSlash : '/' ∉ front := fun hc => (of_isBlank (hfront _ hc)).1 rfl
  by_cases hslash : '/' ∈ cs
  · obtain ⟨above, below, rfl, habove⟩ := List.eq_append_cons_of_mem hslash
    rw [← List.append_assoc, fragments_slash (by simp [hnoSlash, habove]), fragments_slash habove,
      Text.words_append_of_seps hseparator]
  · rw [fragments_of_noSlash (by simp [hnoSlash, hslash]), fragments_of_noSlash hslash,
      Text.words_append_of_seps hseparator]

theorem fragments_append_blanks {cs back : List Char}
    (hback : ∀ c ∈ back, Text.isBlank c = true) : fragments (cs ++ back) = fragments cs := by
  have hseparator : ∀ c ∈ back, isSeparator c = true := fun c hc => (of_isBlank (hback c hc)).2
  have hnoSlash : '/' ∉ back := fun hc => (of_isBlank (hback _ hc)).1 rfl
  by_cases hslash : '/' ∈ cs
  · obtain ⟨above, below, rfl, habove⟩ := List.eq_append_cons_of_mem hslash
    rw [List.append_assoc, List.cons_append, fragments_slash habove, fragments_slash habove,
      Text.words_append_seps fun c hc => by simp [hseparator c hc]]
  · rw [fragments_of_noSlash (by simp [hnoSlash, hslash]), fragments_of_noSlash hslash,
      Text.words_append_seps hseparator]

/-- **Blanks around a label** do not count. -/
theorem parse_trim (label : String) : parse (Text.trim label) = parse label := by
  obtain ⟨front, back, hlabel, hfront, hback⟩ := Text.exists_blanks label.toList
  have hfragments : fragments label.toList = fragments (Text.trimChars label.toList) := by
    rw [hlabel, fragments_append_blanks hback, fragments_of_blanks_append hfront, ← hlabel]
  rw [parse, parse, hfragments, Text.trim, String.toList_ofList]

theorem unbroken_digit {c : Char} (h : c.isDigit = true) : c ≠ '/' ∧ isSeparator c = false := by
  have hne : ∀ d : Char, d.isDigit = false → c ≠ d := fun d hd heq => by simp [heq, hd] at h
  have hbounds : 48 ≤ c.toNat ∧ c.toNat ≤ 57 := by
    simpa [Char.isDigit, UInt32.le_iff_toNat_le] using h
  have hblank : Text.isBlank c = false := by
    simp only [Text.isBlank, Bool.or_eq_false_iff, Bool.and_eq_false_iff, decide_eq_false_iff_not,
      beq_eq_false_iff_ne]
    omega
  refine ⟨hne '/' (by decide), ?_⟩
  simp [isSeparator, hblank, hne '*' (by decide), hne '·' (by decide), hne '⋅' (by decide),
    hne '(' (by decide), hne ')' (by decide)]

/-- The text of a factor is a fragment. -/
theorem unbroken_factorText (h : IsName f.name) :
    (factorText f).toList ≠ [] ∧ Unbroken (factorText f).toList := by
  rw [toList_factorText]
  refine ⟨fun hnil => h.toList_ne_nil (List.append_eq_nil_iff.mp hnil).1, fun c hc => ?_⟩
  rcases List.mem_append.mp hc with hname | hpower
  · exact h.unbroken c hname
  · split at hpower
    · exact absurd hpower (by simp)
    · rcases List.mem_cons.mp hpower with rfl | hdigit
      · decide
      · exact unbroken_digit (Decimal.isDigit_of_mem_digitsOf hdigit)

theorem mem_sideTexts (hu : Named u) {side : Side} {text : List Char}
    (h : text ∈ u.sideTexts side) : text ≠ [] ∧ Unbroken text := by
  unfold sideTexts at h
  rw [List.map_map] at h
  obtain ⟨f, hf, rfl⟩ := List.mem_map.mp h
  have hmem : f ∈ u.factors := by
    cases side <;> exact List.mem_of_mem_filter hf
  exact unbroken_factorText (hu f.name (List.mem_map_of_mem hmem))

theorem noSlash_intercalate {texts : List (List Char)} (h : ∀ text ∈ texts, Unbroken text) :
    '/' ∉ [' '].intercalate texts := by
  intro hslash
  obtain heq | ⟨text, htext, hmem⟩ := Text.mem_intercalate hslash
  · exact absurd heq (by decide)
  · exact (h text htext _ hmem).1 rfl

/-- **The fragments of a label** are the texts of the factors, on the sides they are written on; a
    `1` stands above the line when nothing else does. -/
theorem fragments_label (hu : Named u) :
    fragments u.label.toList =
      (if u.sideTexts .numerator = [] ∧ u.sideTexts .denominator ≠ [] then [(['1'], .numerator)]
        else (u.sideTexts .numerator).map (·, .numerator)) ++
      (u.sideTexts .denominator).map (·, .denominator) := by
  have habove : ∀ text ∈ u.sideTexts .numerator, text ≠ [] ∧ Unbroken text :=
    fun _ => mem_sideTexts hu
  have hbelow : ∀ text ∈ u.sideTexts .denominator, text ≠ [] ∧ Unbroken text :=
    fun _ => mem_sideTexts hu
  rw [toList_label]
  generalize u.sideTexts .numerator = above at habove
  generalize u.sideTexts .denominator = below at hbelow
  have hnoSlash := noSlash_intercalate fun text htext => (habove text htext).2
  have hwords : Text.words isSeparator ([' '].intercalate above) = above :=
    Text.words_intercalate (by decide) fun text htext =>
      ⟨(habove text htext).1, fun c hc => ((habove text htext).2 c hc).2⟩
  by_cases hnone : below = []
  · simp [hnone, fragments_of_noSlash hnoSlash, hwords]
  · have hwords' :
        Text.words (fun c => c == '/' || isSeparator c) ([' '].intercalate below) = below :=
      Text.words_intercalate (by decide) fun text htext => by
        refine ⟨(hbelow text htext).1, fun c hc => ?_⟩
        obtain ⟨hslash, hseparator⟩ := (hbelow text htext).2 c hc
        simp [hslash, hseparator]
    rw [if_neg hnone]
    split
    · rw [fragments_slash (by decide), hwords']
      rfl
    · rw [fragments_slash hnoSlash, hwords, hwords']

/-- Reads texts on one side of the line into a unit, one after the other. -/
def addTexts (u : CompoundUnit) (side : Side) (texts : List (List Char)) : CompoundUnit :=
  texts.foldl (fun u text => addFragment u text side) u

/-- **Reading a label** is reading the texts of its factors, side by side: a `1` counts for
    nothing. -/
theorem parse_label_eq (hu : Named u) :
    parse u.label =
      (dimensionless.addTexts .numerator (u.sideTexts .numerator)).addTexts .denominator
        (u.sideTexts .denominator) := by
  rw [parse, fragments_label hu, List.foldl_append, List.foldl_map, addTexts, addTexts]
  split
  · rename_i h
    rw [h.1]
    rfl
  · rw [List.foldl_map]

/-! ## Legible factors -/

/-- A factor with a new name is appended. -/
theorem addFactorTo_of_notMem {name : String} {e : Exponent} {fs : List Factor}
    (hnew : name ∉ fs.map Factor.name) :
    addFactorTo name e fs = some (fs ++ if e.val = 0 then [] else [⟨name, e⟩]) := by
  induction fs with
  | nil => rfl
  | cons f fs ih =>
      rw [List.map_cons, List.mem_cons, not_or] at hnew
      rw [addFactorTo, if_neg (Ne.symm hnew.1), ih hnew.2]
      rfl

theorem addFactor_of_notMem (hnew : f.name ∉ u.factors.map Factor.name) :
    u.addFactor f = some ⟨u.factors ++ if f.exponent.val = 0 then [] else [f]⟩ := by
  rw [addFactor, addFactorTo_of_notMem hnew]
  rfl

/-- The unit of a factor: none where the exponent is 0. -/
def single (f : Factor) : CompoundUnit := ⟨if f.exponent.val = 0 then [] else [f]⟩

theorem addFactor_dimensionless (f : Factor) : dimensionless.addFactor f = some (single f) := rfl

theorem single_of_ne_zero (h : f.exponent.val ≠ 0) : single f = ⟨[f]⟩ := by
  rw [single, if_neg h]

/-- **A fragment that gives a factor on its own** appends it to every unit without its name. -/
theorem addFragment_append {fragment : List Char} {side : Side}
    (halone : addFragment dimensionless fragment side = ⟨[f]⟩)
    (hnew : f.name ∉ u.factors.map Factor.name) :
    addFragment u fragment side = ⟨u.factors ++ [f]⟩ := by
  have hnothing : (dimensionless : CompoundUnit) ≠ ⟨[f]⟩ := by simp [dimensionless]
  -- what is appended to nothing is appended to the unit as well
  have hsame : ∀ g : Factor, single g = ⟨[f]⟩ → u.addFactor g = some ⟨u.factors ++ [f]⟩ := by
    intro g hg
    unfold single at hg
    split at hg
    · exact absurd hg (by simp)
    · rename_i hne
      obtain rfl : g = f := by simpa using hg
      rw [addFactor_of_notMem hnew, if_neg hne]
  unfold addFragment at halone ⊢
  split at halone
  · exact absurd halone hnothing
  · rename_i hpure
    rw [if_neg hpure]
    generalize splitFragment fragment = parts at halone ⊢
    obtain ⟨name, exponent⟩ := parts
    dsimp only at halone ⊢
    split at halone
    · exact absurd halone hnothing
    · rename_i hnumeric
      rw [if_neg hnumeric]
      cases hexponent : side.exponent? exponent with
      | none =>
          simp only [hexponent, Option.bind_eq_bind, Option.bind_none, addFactor_dimensionless,
            Option.getD_some] at halone ⊢
          rw [hsame _ halone, Option.getD_some]
      | some e =>
          simp only [hexponent, Option.bind_eq_bind, Option.bind_some, addFactor_dimensionless]
            at halone ⊢
          rw [hsame _ halone]

/-- The label of a single factor. -/
theorem parse_label_singleton (hname : IsName f.name) (hne : f.exponent.val ≠ 0) :
    parse (label ⟨[f]⟩) = addFragment dimensionless (factorText f).toList f.side := by
  have hnamed : Named ⟨[f]⟩ := by
    intro name hmem
    obtain rfl : name = f.name := by simpa using hmem
    exact hname
  rw [parse_label_eq hnamed]
  rcases Int.lt_or_gt_of_ne hne with hneg | hpos
  · have habove : ¬ 0 < f.exponent.val := by omega
    simp [sideTexts, sideFactors, addTexts, hneg, habove, Factor.side]
  · have hbelow : ¬ f.exponent.val < 0 := by omega
    simp [sideTexts, sideFactors, addTexts, hpos, hbelow, Factor.side]

/-- Factors that are read back are appended one after the other. -/
theorem addTexts_append {fs : List Factor} {side : Side}
    (hfs : ∀ f ∈ fs, addFragment dimensionless (factorText f).toList side = ⟨[f]⟩)
    (hnames : ((u.factors ++ fs).map Factor.name).Nodup) :
    u.addTexts side ((fs.map factorText).map String.toList) = ⟨u.factors ++ fs⟩ := by
  induction fs generalizing u with
  | nil => simp [addTexts]
  | cons f fs ih =>
      rw [List.forall_mem_cons] at hfs
      have hnew : f.name ∉ u.factors.map Factor.name := by
        rw [List.map_append, List.nodup_append] at hnames
        exact fun hmem => hnames.2.2 _ hmem _ (by simp) rfl
      have hrest := @ih ⟨u.factors ++ [f]⟩ hfs.2 (by simpa using hnames)
      rw [List.append_assoc, List.singleton_append] at hrest
      rw [← hrest, ← addFragment_append hfs.1 hnew]
      rfl

/-- The factors above the line, then those below it. -/
theorem sides_perm (hu : u.Normal) :
    (u.sideFactors .numerator ++ u.sideFactors .denominator).Perm u.factors := by
  have hbelow : u.sideFactors .denominator =
      u.factors.filter fun f => !decide (0 < f.exponent.val) := by
    refine List.filter_congr fun f hf => ?_
    have hne := hu.2 f hf
    rw [decide_eq_decide.mpr (show f.exponent.val < 0 ↔ ¬ 0 < f.exponent.val by omega), decide_not]
  rw [hbelow]
  exact List.filter_append_perm _ _

/-- **A label of legible factors** is read into these factors, side by side. -/
theorem parse_label (hu : u.Normal) (hnamed : Named u) (hlegible : ∀ f ∈ u.factors, f.IsLegible) :
    parse u.label = ⟨u.sideFactors .numerator ++ u.sideFactors .denominator⟩ := by
  have halone : ∀ side, ∀ f ∈ u.sideFactors side,
      addFragment dimensionless (factorText f).toList side = ⟨[f]⟩ := by
    intro side f hf
    have hmem : f ∈ u.factors := by
      cases side <;> exact List.mem_of_mem_filter hf
    have hne := hu.2 f hmem
    have hside := ((mem_sideFactors hne).mp hf).2
    rw [← hside, ← parse_label_singleton (hnamed f.name (List.mem_map_of_mem hmem)) hne]
    exact hlegible f hmem
  have hnames := ((sides_perm hu).map Factor.name).nodup_iff.mpr hu.1
  have hfirst : ((u.sideFactors .numerator).map Factor.name).Nodup := by
    rw [List.map_append] at hnames
    exact (List.nodup_append.mp hnames).1
  have habove : dimensionless.addTexts .numerator (u.sideTexts .numerator) =
      ⟨u.sideFactors .numerator⟩ :=
    addTexts_append (halone .numerator) hfirst
  rw [parse_label_eq hnamed, habove]
  exact addTexts_append (halone .denominator) hnames

/-- **A label of legible factors is read back.** -/
theorem exponentOf_parse_label (hu : u.Normal) (hnamed : Named u)
    (hlegible : ∀ f ∈ u.factors, f.IsLegible) : (parse u.label).exponentOf = u.exponentOf := by
  rw [parse_label hu hnamed hlegible]
  exact exponentOf_of_perm hu (sides_perm hu)

/-! ## Which factors are legible -/

theorem mapM_digit? {cs : List Char} (h : ∀ c ∈ cs, c.isDigit = true) :
    cs.mapM digit? = some (cs.map fun c => c.toNat - '0'.toNat) := by
  induction cs with
  | nil => rfl
  | cons c cs ih =>
      rw [List.forall_mem_cons] at h
      simp [List.mapM_cons, digit?, h.1, ih h.2]

/-- Without a sign in front, an exponent is all digits. -/
theorem caretExponent?_unsigned {c : Char} (hplus : c ≠ '+') (hminus : c ≠ '-') (cs : List Char) :
    caretExponent? (c :: cs) =
      ((c :: cs).mapM digit?).bind fun ds => Exponent.ofInt? (digitsValue ds) := by
  have hdrop : (c :: cs).dropWhile (· == '+') = c :: cs :=
    List.dropWhile_cons_of_neg (by simp [hplus])
  unfold caretExponent?
  rw [hdrop]
  split
  · rename_i heq
    exact absurd heq (List.cons_ne_nil _ _)
  · rename_i heq
    exact absurd (List.cons.inj heq).1 hminus
  · rename_i heq
    exact absurd (List.cons.inj heq).1 hminus
  · rfl

/-- The magnitude of an exponent is read from its digits. -/
theorem caretExponent?_digits (n : Nat) :
    caretExponent? (Decimal.digitsOf n) = Exponent.ofInt? n := by
  have hdigits : ∀ c ∈ Decimal.digitsOf n, c.isDigit = true := fun c =>
    Decimal.isDigit_of_mem_digitsOf
  have hvalue : digitsValue ((Decimal.digitsOf n).map fun c => c.toNat - '0'.toNat) = n := by
    rw [digitsValue, List.foldl_map]
    exact Decimal.natOfDigits_digitsOf n
  have hne := Decimal.digitsOf_ne_nil n
  have hmapM := mapM_digit? hdigits
  generalize Decimal.digitsOf n = cs at hdigits hvalue hne hmapM
  cases cs with
  | nil => exact absurd rfl hne
  | cons c cs =>
      have hc := hdigits c List.mem_cons_self
      have hplus : c ≠ '+' := by
        rintro rfl
        exact absurd hc (by decide)
      have hminus : c ≠ '-' := by
        rintro rfl
        exact absurd hc (by decide)
      rw [caretExponent?_unsigned hplus hminus, hmapM, Option.bind_some, hvalue]

/-- A second caret spoils an exponent. -/
theorem caretExponent?_of_caret {cs : List Char} (h : '^' ∈ cs) : caretExponent? cs = none := by
  have hdigits : ∀ {ds : List Char}, '^' ∈ ds → ds.mapM digit? = none := by
    intro ds hds
    induction ds with
    | nil => exact absurd hds (by simp)
    | cons d ds ih =>
        rw [List.mapM_cons]
        rcases List.mem_cons.mp hds with rfl | hmem
        · rfl
        · rw [ih hmem]
          cases digit? d <;> rfl
  have hrest : '^' ∈ cs.dropWhile (· == '+') := by
    rw [← List.takeWhile_append_dropWhile (p := (· == '+')) (l := cs), List.mem_append] at h
    refine h.resolve_left fun hplus => ?_
    exact absurd (List.all_eq_true.mp List.all_takeWhile _ hplus) (by decide)
  unfold caretExponent?
  split
  · rfl
  · rfl
  · rename_i ds _ heq
    rw [heq] at hrest
    have hmem : '^' ∈ ds := (List.mem_cons.mp hrest).resolve_left (by decide)
    rw [hdigits hmem, Option.bind_none]
  · rw [hdigits hrest, Option.bind_none]

/-- A fragment is split at its first caret. -/
theorem splitFragment_caret {cs ds : List Char} (h : '^' ∉ cs) :
    splitFragment (cs ++ '^' :: ds) =
      match caretExponent? ds with
      | some e => (cs, e)
      | none => (cs ++ '^' :: ds, .one) := by
  have hfront := bne_of_notMem h
  have hback : ∀ c ∈ ('^' :: ds).head?, (c != '^') = false := by simp
  have hcontains : (cs ++ '^' :: ds).contains '^' = true := by simp
  rw [splitFragment, if_pos hcontains, Decimal.takeWhile_of_boundary hfront hback,
    Decimal.dropWhile_of_boundary hfront hback]
  rfl

/-- A magnitude is the exponent on the side that the factor is written on. -/
theorem side_exponent? {e : Exponent} (h : e.val = f.exponent.val.natAbs) :
    f.side.exponent? e = some f.exponent := by
  unfold Factor.side
  split
  · have heq : e = f.exponent := Exponent.ext (by omega)
    rw [heq]
    rfl
  · exact Exponent.ofInt?_eq_some_iff.mpr (by omega)

/-- A character that stands neither in a number nor in the word for no unit tells a fragment from
    both. -/
theorem isPureNumber_of_mem {c : Char} {cs : List Char} (hone : c ∉ ['1'])
    (hword : c.toLower ∉ dimensionlessLabel.toList) (h : c ∈ cs) : isPureNumber cs = false := by
  rw [isPureNumber, Bool.or_eq_false_iff, beq_eq_false_iff_ne, beq_eq_false_iff_ne]
  refine ⟨fun heq => hone (heq ▸ h), fun heq => hword ?_⟩
  rw [← heq]
  exact List.mem_map_of_mem h

theorem isPureNumber_of_caret {cs : List Char} (h : '^' ∈ cs) : isPureNumber cs = false :=
  isPureNumber_of_mem (by decide) (by decide) h

/-- A fragment that is split becomes a factor, or an opaque name if the exponent cannot be brought
    to its side. -/
theorem addFragment_split {fragment cs : List Char} {side : Side} {e : Exponent}
    (hpure : isPureNumber fragment = false) (hnumeric : isNumericName cs = false)
    (hsplit : splitFragment fragment = (cs, e)) :
    addFragment dimensionless fragment side =
      match side.exponent? e with
      | some e' => single ⟨String.ofList cs, e'⟩
      | none => single ⟨String.ofList fragment, side.unitExponent⟩ := by
  simp only [addFragment, hpure, hsplit, hnumeric, Bool.false_eq_true, if_false,
    addFactor_dimensionless]
  cases side.exponent? e <;> rfl

/-- A fragment that is split into the name and the magnitude of a factor is read as that factor. -/
theorem addFragment_of_split {fragment : List Char} {e : Exponent} (hname : IsName f.name)
    (hne : f.exponent.val ≠ 0) (hpure : isPureNumber fragment = false)
    (hsplit : splitFragment fragment = (f.name.toList, e)) (he : e.val = f.exponent.val.natAbs) :
    addFragment dimensionless fragment f.side = ⟨[f]⟩ := by
  rw [addFragment_split hpure hname.notNumeric hsplit, side_exponent? he]
  dsimp only
  rw [String.ofList_toList, single_of_ne_zero hne]

theorem Side.unitExponent_ne_zero (side : Side) : side.unitExponent.val ≠ 0 := by
  cases side <;> decide

/-- A fragment that is not split is read as an opaque name. -/
theorem addFragment_of_whole {fragment : List Char} {side : Side}
    (hnumeric : isNumericName fragment = false) (hpure : isPureNumber fragment = false)
    (hsplit : splitFragment fragment = (fragment, .one)) :
    addFragment dimensionless fragment side =
      ⟨[⟨String.ofList fragment, side.unitExponent⟩]⟩ := by
  have hone : side.exponent? .one = some side.unitExponent := by
    cases side <;> rfl
  rw [addFragment_split hpure hnumeric hsplit, hone]
  exact single_of_ne_zero side.unitExponent_ne_zero

theorem factorText_power (hpower : 1 < f.exponent.val.natAbs) :
    (factorText f).toList = f.name.toList ++ '^' :: Decimal.digitsOf f.exponent.val.natAbs := by
  rw [toList_factorText, if_neg (by omega)]

theorem caret_mem_factorText (hpower : 1 < f.exponent.val.natAbs) :
    '^' ∈ (factorText f).toList := by
  simp [factorText_power hpower]

/-- A power that is not split becomes a name, which is longer than the name of the factor. -/
theorem not_isLegible_of_whole (hname : IsName f.name) (hpower : 1 < f.exponent.val.natAbs)
    (hsplit : splitFragment (factorText f).toList = ((factorText f).toList, .one)) :
    ¬ f.IsLegible := by
  intro hlegible
  have hcaret := caret_mem_factorText hpower
  have hnumeric : isNumericName (factorText f).toList = false := by
    refine Bool.eq_false_iff.mpr fun h => ?_
    exact absurd (List.all_eq_true.mp h _ hcaret) (by decide)
  rw [Factor.IsLegible, parse_label_singleton hname (by omega),
    addFragment_of_whole hnumeric (isPureNumber_of_caret hcaret) hsplit] at hlegible
  have hsame : String.ofList (factorText f).toList = f.name := by
    injection hlegible with hfactors
    injection hfactors with hfactor
    exact congrArg Factor.name hfactor
  have htext := factorText_power hpower
  rw [String.ofList_toList] at hsame
  rw [hsame] at htext
  simp at htext

/-- A caret in the name spoils the exponent, and so does a magnitude that is too large. -/
theorem splitFragment_whole (hpower : 1 < f.exponent.val.natAbs)
    (h : ¬ ('^' ∉ f.name.toList ∧ f.exponent.val.natAbs ≤ 2147483647)) :
    splitFragment (factorText f).toList = ((factorText f).toList, .one) := by
  rw [factorText_power hpower]
  by_cases hmem : '^' ∈ f.name.toList
  · -- the fragment is cut at the first caret, and another one stands among its digits
    obtain ⟨cs, ds, hcut, hfirst⟩ := List.eq_append_cons_of_mem hmem
    have hspoiled : caretExponent? (ds ++ '^' :: Decimal.digitsOf f.exponent.val.natAbs) = none :=
      caretExponent?_of_caret (by simp)
    rw [hcut, List.append_assoc, List.cons_append, splitFragment_caret hfirst, hspoiled]
  · have hlarge : Exponent.ofInt? f.exponent.val.natAbs = none := by
      refine dif_neg fun hfits => h ⟨hmem, ?_⟩
      have hlast := hfits.2
      omega
    rw [splitFragment_caret hmem, caretExponent?_digits, hlarge]

/-- **Powers.** A factor with another exponent than 1 and -1 is legible when its name has no caret
    and the magnitude of the exponent is an exponent itself. -/
theorem isLegible_power_iff (hname : IsName f.name) (hpower : 1 < f.exponent.val.natAbs) :
    f.IsLegible ↔ '^' ∉ f.name.toList ∧ f.exponent.val.natAbs ≤ 2147483647 := by
  have hne : f.exponent.val ≠ 0 := by omega
  constructor
  · intro hlegible
    by_contra hnot
    exact not_isLegible_of_whole hname hpower (splitFragment_whole hpower hnot) hlegible
  · rintro ⟨hplain, hbound⟩
    have hfits : Exponent.Fits f.exponent.val.natAbs := by
      unfold Exponent.Fits
      omega
    have hpure := isPureNumber_of_caret (caret_mem_factorText hpower)
    rw [Factor.IsLegible, parse_label_singleton hname hne]
    refine addFragment_of_split (e := ⟨f.exponent.val.natAbs, hfits⟩) hname hne hpure ?_ rfl
    rw [factorText_power hpower, splitFragment_caret hplain, caretExponent?_digits,
      Exponent.ofInt?_eq_some_iff (e := ⟨f.exponent.val.natAbs, hfits⟩) |>.mpr rfl]

/-- A plain name has no mark of an exponent and is not the word for no unit. -/
structure IsPlain (name : String) : Prop where
  unmarked : ∀ c ∈ name.toList, c ≠ '^' ∧ isSuperscript c = false
  notWord : name.toList.map Char.toLower ≠ dimensionlessLabel.toList

instance (name : String) : Decidable (IsPlain name) :=
  decidable_of_iff ((name.toList.all fun c => c != '^' && !isSuperscript c) = true ∧
      name.toList.map Char.toLower ≠ dimensionlessLabel.toList)
    ⟨fun h => ⟨fun c hc => by simpa using List.all_eq_true.mp h.1 c hc, h.2⟩, fun h =>
      ⟨List.all_eq_true.mpr fun c hc => by simpa using h.unmarked c hc, h.notWord⟩⟩

/-- **Plain names.** A factor with a plain name is legible, unless its exponent is the smallest
    one. -/
theorem isLegible_of_isPlain (hname : IsName f.name) (hplain : IsPlain f.name)
    (hne : f.exponent.val ≠ 0) (hbound : f.exponent.val.natAbs ≤ 2147483647) : f.IsLegible := by
  have hcaret : '^' ∉ f.name.toList := fun h => (hplain.unmarked _ h).1 rfl
  rcases Nat.lt_or_ge 1 f.exponent.val.natAbs with hpower | hone
  · exact (isLegible_power_iff hname hpower).mpr ⟨hcaret, hbound⟩
  · have htext : (factorText f).toList = f.name.toList := by
      rw [toList_factorText, if_pos (by omega), List.append_nil]
    have hpure : isPureNumber f.name.toList = false := by
      rw [isPureNumber, Bool.or_eq_false_iff, beq_eq_false_iff_ne, beq_eq_false_iff_ne]
      refine ⟨fun hnumber => ?_, hplain.notWord⟩
      have hnumeric := hname.notNumeric
      rw [hnumber] at hnumeric
      exact absurd hnumeric (by decide)
    have hsplit : splitFragment f.name.toList = (f.name.toList, .one) := by
      have hsuperscript : f.name.toList.any isSuperscript = false :=
        List.any_eq_false.mpr fun c hc => by simp [(hplain.unmarked c hc).2]
      rw [splitFragment, if_neg (by simpa using hcaret), if_neg (by simp [hsuperscript])]
    rw [Factor.IsLegible, parse_label_singleton hname hne, htext]
    refine addFragment_of_split (e := .one) hname hne hpure hsplit ?_
    show (1 : Int) = f.exponent.val.natAbs
    omega

/-! ## Canonical labels -/

/-- A label is decided by its two sides. -/
theorem label_congr {v : CompoundUnit} (h : ∀ side, u.sideFactors side = v.sideFactors side) :
    u.label = v.label := by
  have htexts : ∀ side, u.sideTexts side = v.sideTexts side := by
    intro side
    rw [sideTexts, sideTexts, h side]
  rw [← String.toList_inj, toList_label, toList_label, htexts, htexts]

/-- Sorting the factors by sides keeps what stands on each side. -/
theorem sideFactors_sides (u : CompoundUnit) (side : Side) :
    sideFactors ⟨u.sideFactors .numerator ++ u.sideFactors .denominator⟩ side =
      u.sideFactors side := by
  cases side with
  | numerator =>
      have hapart : ∀ f : Factor, ¬ (0 < f.exponent.val ∧ f.exponent.val < 0) := fun f h => by omega
      simp [sideFactors, List.filter_filter, hapart]
  | denominator =>
      have hapart : ∀ f : Factor, ¬ (f.exponent.val < 0 ∧ 0 < f.exponent.val) := fun f h => by omega
      simp [sideFactors, List.filter_filter, hapart]

/-- **Canonical labels make the round trip.** The label of a unit with distinct plain names, none of
    its exponents 0 or the lowest one, is read into the same factors: those above the line first,
    then those below it, each in the order they had. So the unit is read back up to the order of its
    factors, and what was read has the same label. -/
theorem canonical_label_round_trip (hnames : (u.factors.map Factor.name).Nodup)
    (hplain : ∀ f ∈ u.factors, IsName f.name ∧ IsPlain f.name)
    (hexponents : ∀ f ∈ u.factors, f.exponent.val ≠ 0 ∧ f.exponent.val ≠ -2147483648) :
    parse u.label = ⟨u.factors.filter (0 < ·.exponent.val) ++
        u.factors.filter (·.exponent.val < 0)⟩ ∧
      (parse u.label).sameAs u = true ∧ (parse u.label).label = u.label := by
  have hu : u.Normal := ⟨hnames, fun f hf => (hexponents f hf).1⟩
  have hnamed : Named u := by
    intro name hname
    obtain ⟨f, hf, rfl⟩ := List.mem_map.mp hname
    exact (hplain f hf).1
  have hlegible : ∀ f ∈ u.factors, f.IsLegible := by
    intro f hf
    obtain ⟨hne, hlowest⟩ := hexponents f hf
    have hfits := f.exponent.fits
    unfold Exponent.Fits at hfits
    -- only the lowest exponent has a magnitude that is no exponent
    exact isLegible_of_isPlain (hplain f hf).1 (hplain f hf).2 hne (by omega)
  have hparse := parse_label hu hnamed hlegible
  refine ⟨hparse, (sameAs_iff (normal_parse _) hu).mpr ?_, ?_⟩
  · exact exponentOf_parse_label hu hnamed hlegible
  · rw [hparse]
    exact label_congr fun side => sideFactors_sides u side

/-- Both sides of the line, mixed, with the largest exponent and a name that only looks like a
    number. -/
theorem ohms_round_trip :
    let u : CompoundUnit := ⟨[⟨"s", ⟨-2, by decide⟩⟩, ⟨"kg", ⟨1, by decide⟩⟩,
      ⟨"Ω", .largest⟩, ⟨"1.5x", ⟨-1, by decide⟩⟩]⟩
    (u.factors.map Factor.name).Nodup ∧ (∀ f ∈ u.factors, IsName f.name ∧ IsPlain f.name) ∧
      (∀ f ∈ u.factors, f.exponent.val ≠ 0 ∧ f.exponent.val ≠ -2147483648) ∧
      u.label = "kg Ω^2147483647/s^2 1.5x" ∧
      (parse u.label).factors.map Factor.name = ["kg", "Ω", "s", "1.5x"] ∧
      (parse u.label).sameAs u = true ∧ (parse u.label).label = u.label := by
  intro u
  have hnames : (u.factors.map Factor.name).Nodup := by decide
  have hplain : ∀ f ∈ u.factors, IsName f.name ∧ IsPlain f.name := by decide +kernel
  have hexponents : ∀ f ∈ u.factors, f.exponent.val ≠ 0 ∧ f.exponent.val ≠ -2147483648 := by
    decide +kernel
  obtain ⟨hparse, hsame, hlabel⟩ := canonical_label_round_trip hnames hplain hexponents
  refine ⟨hnames, hplain, hexponents, by decide +kernel, ?_, hsame, hlabel⟩
  rw [hparse]
  rfl

end CompoundUnit

end Reckoner
