import Mathlib.Data.Nat.Digits.Defs
import Reckoner.Proofs.CompoundUnit.Joined

/-!
# `Reckoner.Proofs.CompoundUnit.ExponentText` — the exponent behind a name

An exponent stands behind a caret or in superscripts. Either it is read as the number that it spells,
or the fragment is kept whole, as a name of its own. Four kinds of texts fall between: a superscript
minus without digits counts as 0, superscripts beyond the range stop at its end, signs in front of a
signed numeral are dropped, and the lowest exponent is not read where its magnitude is written below
the line.

## Contents
- **Spelling.** Numerals in two alphabets, and the whole number that an exponent spells.
- **Readers.** What the reader behind a caret and the one for superscripts make of a spelling.
- **Fragments.** A name with an exponent behind it, on either side of the line.
- **Faithful reading.** `exponent_text_read`: the texts that are misread, and only these.
-/

namespace Reckoner.CompoundUnit

variable {name : String} {side : Side} {cs k : List Char} {n : Int} {plus : Nat} {negative : Bool}
  {ds : List (Fin 10)}

/-! ## Spelling -/

/-- The number that a numeral stands for, the leading digit first. -/
def numeralValue (ds : List (Fin 10)) : Nat := Nat.ofDigits 10 (ds.reverse.map Fin.val)

/-- The number that a numeral with or without a minus sign stands for. -/
def signedValue (negative : Bool) (ds : List (Fin 10)) : Int :=
  if negative then -(numeralValue ds : Int) else numeralValue ds

def asciiDigit (d : Fin 10) : Char := Nat.digitChar d

def superscriptDigit (d : Fin 10) : Char :=
  ['⁰', '¹', '²', '³', '⁴', '⁵', '⁶', '⁷', '⁸', '⁹'].get d

/-- Plus signs, a minus sign or none, then digits. -/
def signedDigits (plus : Nat) (negative : Bool) (ds : List (Fin 10)) : List Char :=
  List.replicate plus '+' ++ ((if negative then ['-'] else []) ++ ds.map asciiDigit)

/-- A superscript minus or none, then superscript digits. -/
def superscripts (negative : Bool) (ds : List (Fin 10)) : List Char :=
  (if negative then ['⁻'] else []) ++ ds.map superscriptDigit

/-- What may stand behind a name as its exponent: a caret and anything up to the end of the
    fragment, or superscripts. -/
inductive IsExponentText : List Char → Prop
  | caret {cs : List Char} : Unbroken cs → IsExponentText ('^' :: cs)
  | superscript {negative : Bool} {ds : List (Fin 10)} :
      negative = true ∨ ds ≠ [] → IsExponentText (superscripts negative ds)

/-- An exponent that spells a whole number has one sign at most, and one digit at least. -/
inductive Spells : List Char → Int → Prop
  | caret {plus : Nat} {negative : Bool} {ds : List (Fin 10)} :
      plus + negative.toNat ≤ 1 → ds ≠ [] →
        Spells ('^' :: signedDigits plus negative ds) (signedValue negative ds)
  | superscript {negative : Bool} {ds : List (Fin 10)} :
      ds ≠ [] → Spells (superscripts negative ds) (signedValue negative ds)

theorem digitsValue_map_val (ds : List (Fin 10)) :
    digitsValue (ds.map Fin.val) = numeralValue ds := by
  rw [numeralValue, Nat.ofDigits_eq_foldr, List.map_reverse, List.foldr_reverse, digitsValue]
  simp only [Nat.cast_id, Nat.add_comm]

theorem natAbs_signedValue (negative : Bool) (ds : List (Fin 10)) :
    (signedValue negative ds).natAbs = numeralValue ds := by
  unfold signedValue
  split <;> omega

theorem ne_nil_of_numeralValue_pos (h : 0 < numeralValue ds) : ds ≠ [] := by
  rintro rfl
  exact absurd h (Nat.lt_irrefl 0)

theorem asciiDigit_ne (d : Fin 10) : asciiDigit d ≠ '+' ∧ asciiDigit d ≠ '-' := by
  decide +revert

theorem superscriptDigit_ne_minus (d : Fin 10) : superscriptDigit d ≠ '⁻' := by
  decide +revert

theorem superscriptDigit_injective : Function.Injective superscriptDigit := by
  unfold Function.Injective
  decide

/-- Superscripts are made of the minus and the digits. -/
theorem forall_mem_superscripts {P : Char → Prop} (hminus : P '⁻')
    (hdigits : ∀ d, P (superscriptDigit d)) : ∀ c ∈ superscripts negative ds, P c := by
  intro c hc
  rcases List.mem_append.mp hc with hfront | hback
  · split at hfront
    · obtain rfl := List.mem_singleton.mp hfront
      exact hminus
    · exact absurd hfront List.not_mem_nil
  · obtain ⟨d, -, rfl⟩ := List.mem_map.mp hback
    exact hdigits d

theorem minus_mem_superscripts : '⁻' ∈ superscripts negative ds ↔ negative = true := by
  have hdigits : '⁻' ∉ ds.map superscriptDigit := by
    intro hmem
    obtain ⟨d, -, hd⟩ := List.mem_map.mp hmem
    exact superscriptDigit_ne_minus d hd
  cases negative <;> simp [superscripts, hdigits]

/-- The minus and the digits are told from the superscripts. -/
theorem superscripts_inj {negative' : Bool} {ds' : List (Fin 10)}
    (h : superscripts negative ds = superscripts negative' ds') :
    negative = negative' ∧ ds = ds' := by
  have hnegative : negative = negative' := by
    rw [Bool.eq_iff_iff, ← minus_mem_superscripts, h, minus_mem_superscripts]
  subst hnegative
  exact ⟨rfl, List.map_injective_iff.mpr superscriptDigit_injective (List.append_cancel_left h)⟩

theorem caret_ne_superscripts : '^' :: cs ≠ superscripts negative ds := by
  intro h
  have hmem : '^' ∈ superscripts negative ds := h ▸ List.mem_cons_self
  exact forall_mem_superscripts (P := (· ≠ '^')) (by decide) (by decide) _ hmem rfl

/-- Superscripts spell one number, and only if there are digits. -/
theorem Spells.superscripts_inv (h : Spells (superscripts negative ds) n) :
    ds ≠ [] ∧ n = signedValue negative ds := by
  generalize hk : superscripts negative ds = k at h
  cases h with
  | caret hsigns hds => exact absurd hk.symm caret_ne_superscripts
  | superscript hds =>
      obtain ⟨rfl, rfl⟩ := superscripts_inj hk
      exact ⟨hds, rfl⟩

/-- The number of signs in a text. -/
def signCount (cs : List Char) : Nat := cs.countP fun c => c == '+' || c == '-'

theorem signCount_signedDigits (plus : Nat) (negative : Bool) (ds : List (Fin 10)) :
    signCount (signedDigits plus negative ds) = plus + negative.toNat := by
  have hdigits : (ds.map asciiDigit).countP (fun c => c == '+' || c == '-') = 0 := by
    rw [List.countP_eq_zero]
    intro c hc
    obtain ⟨d, -, rfl⟩ := List.mem_map.mp hc
    simp [asciiDigit_ne d]
  rw [signCount, signedDigits, List.countP_append, List.countP_append, hdigits,
    List.countP_replicate]
  cases negative <;> rfl

/-- A spelling behind a caret has one sign at most. -/
theorem Spells.signCount_le (h : Spells ('^' :: cs) n) : signCount cs ≤ 1 := by
  generalize hk : '^' :: cs = k at h
  cases h with
  | caret hsigns hds =>
      obtain ⟨-, rfl⟩ := List.cons.inj hk
      rw [signCount_signedDigits]
      exact hsigns
  | superscript hds => exact absurd hk caret_ne_superscripts

/-! ## Readers -/

/-- The exponent that is read from what stands behind a name. -/
def written? : List Char → Option Exponent
  | '^' :: cs => caretExponent? cs
  | cs => superscriptExponent? cs

/-- A numeral is read digit by digit, in either alphabet. -/
theorem mapM_numeral {read : Char → Option Nat} {write : Fin 10 → Char}
    (h : ∀ d, read (write d) = some d.val) (ds : List (Fin 10)) :
    (ds.map write).mapM read = some (ds.map Fin.val) := by
  induction ds with
  | nil => rfl
  | cons d ds ih =>
      rw [List.map_cons, List.mapM_cons, h, ih]
      rfl

theorem digit?_asciiDigit (d : Fin 10) : digit? (asciiDigit d) = some d.val := by
  decide +revert

theorem superscriptDigit?_superscriptDigit (d : Fin 10) :
    superscriptDigit? (superscriptDigit d) = some d.val := by
  decide +revert

theorem caretExponent?_plus (cs : List Char) : caretExponent? ('+' :: cs) = caretExponent? cs := rfl

theorem caretExponent?_minus (hne : cs ≠ []) :
    caretExponent? ('-' :: cs) =
      (cs.mapM digit?).bind fun ds => Exponent.ofInt? (-(digitsValue ds : Int)) := by
  cases cs with
  | nil => exact absurd rfl hne
  | cons c cs => rfl

/-- **Behind a caret**, a signed numeral is its number, if that fits; plus signs in front of it are
    passed over, however many they are. -/
theorem caretExponent?_signedDigits (hds : ds ≠ []) :
    caretExponent? (signedDigits plus negative ds) = Exponent.ofInt? (signedValue negative ds) := by
  have hread := mapM_numeral digit?_asciiDigit ds
  -- plus signs are dropped one by one, then a minus sign or a digit stands in front
  induction plus with
  | succ plus ih => exact (caretExponent?_plus _).trans ih
  | zero =>
      cases negative with
      | true =>
          have hne : ds.map asciiDigit ≠ [] := fun hnil => hds (List.map_eq_nil_iff.mp hnil)
          show caretExponent? ('-' :: ds.map asciiDigit) = _
          rw [caretExponent?_minus hne, hread, Option.bind_some, digitsValue_map_val]
          rfl
      | false =>
          obtain ⟨d, es, rfl⟩ := List.exists_cons_of_ne_nil hds
          obtain ⟨hplus, hminus⟩ := asciiDigit_ne d
          show caretExponent? (asciiDigit d :: es.map asciiDigit) = _
          rw [caretExponent?_unsigned hplus hminus, ← List.map_cons, hread, Option.bind_some,
            digitsValue_map_val]
          rfl

theorem exists_asciiDigit {c : Char} {v : Nat} (h : digit? c = some v) : ∃ d, c = asciiDigit d := by
  unfold digit? at h
  split at h
  · rename_i hdigit
    have hbounds : 48 ≤ c.toNat ∧ c.toNat ≤ 57 := by
      simpa [Char.isDigit, UInt32.le_iff_toNat_le] using hdigit
    refine ⟨⟨c.toNat - 48, by omega⟩, Char.toNat_inj.mp ?_⟩
    show c.toNat = (Nat.digitChar (c.toNat - 48)).toNat
    rw [Nat.toNat_digitChar_of_lt_ten (by omega)]
    omega
  · exact absurd h (Option.some_ne_none _).symm

theorem exists_numeral {vs : List Nat} (h : cs.mapM digit? = some vs) :
    ∃ ds : List (Fin 10), cs = ds.map asciiDigit := by
  induction cs generalizing vs with
  | nil => exact ⟨[], rfl⟩
  | cons c cs ih =>
      rw [List.mapM_cons] at h
      obtain ⟨v, hv, hrest⟩ := Option.bind_eq_some_iff.mp h
      obtain ⟨vs', hvs', -⟩ := Option.bind_eq_some_iff.mp hrest
      obtain ⟨d, rfl⟩ := exists_asciiDigit hv
      obtain ⟨ds, rfl⟩ := ih hvs'
      exact ⟨d :: ds, rfl⟩

/-- **Nothing else is read behind a caret.** -/
theorem exists_signedDigits {e : Exponent} (h : caretExponent? cs = some e) :
    ∃ plus negative ds, ds ≠ [] ∧ cs = signedDigits plus negative ds := by
  induction cs with
  | nil => exact absurd h (Option.some_ne_none _).symm
  | cons c cs ih =>
      -- only plus signs may be repeated: behind another character there are digits
      by_cases hplus : c = '+'
      · subst hplus
        obtain ⟨plus, negative, ds, hds, rfl⟩ := ih h
        exact ⟨plus + 1, negative, ds, hds, rfl⟩
      · by_cases hminus : c = '-'
        · subst hminus
          have hne : cs ≠ [] := by
            rintro rfl
            exact absurd h (Option.some_ne_none _).symm
          rw [caretExponent?_minus hne] at h
          obtain ⟨vs, hvs, -⟩ := Option.bind_eq_some_iff.mp h
          obtain ⟨ds, rfl⟩ := exists_numeral hvs
          exact ⟨0, true, ds, fun hnil => hne (by rw [hnil]; rfl), rfl⟩
        · rw [caretExponent?_unsigned hplus hminus] at h
          obtain ⟨vs, hvs, -⟩ := Option.bind_eq_some_iff.mp h
          obtain ⟨ds, hds⟩ := exists_numeral hvs
          exact ⟨0, false, ds, fun hnil => List.cons_ne_nil c cs (by rw [hds, hnil]; rfl), hds⟩

theorem val_clampedExponent (negative : Bool) (m : Nat) :
    (clampedExponent negative m).val =
      if negative then -((min m 2147483647 : Nat) : Int) else (min m 2147483647 : Nat) := by
  cases negative <;> rfl

/-- **Superscripts** are always read, up to the ends of the range. -/
theorem superscriptExponent?_superscripts (negative : Bool) (ds : List (Fin 10)) :
    superscriptExponent? (superscripts negative ds) =
      some (clampedExponent negative (numeralValue ds)) := by
  have hread := mapM_numeral superscriptDigit?_superscriptDigit ds
  cases negative with
  | true =>
      show ((ds.map superscriptDigit).mapM superscriptDigit?).map _ = _
      rw [hread, Option.map_some, digitsValue_map_val]
  | false =>
      unfold superscriptExponent?
      split
      · -- no digit is the minus
        rename_i heq
        have hminus : '⁻' ∈ superscripts false ds := heq ▸ List.mem_cons_self
        exact absurd (minus_mem_superscripts.mp hminus) Bool.false_ne_true
      · show ((ds.map superscriptDigit).mapM superscriptDigit?).map _ = _
        rw [hread, Option.map_some, digitsValue_map_val]

/-! ## Fragments -/

/-- What stands in front of a fragment to bring it to a side. -/
def Side.opening : Side → String
  | .numerator => ""
  | .denominator => "1/"

theorem Side.exponent?_eq_some_iff {e e' : Exponent} :
    side.exponent? e = some e' ↔ e'.val = side.combination.sign * e.val := by
  cases side with
  | numerator =>
      show some e = some e' ↔ e'.val = 1 * e.val
      rw [Option.some.injEq, Int.one_mul]
      exact ⟨fun h => congrArg Exponent.val h.symm, fun h => (Exponent.ext h).symm⟩
  | denominator =>
      show Exponent.ofInt? (-e.val) = some e' ↔ e'.val = -1 * e.val
      rw [Exponent.ofInt?_eq_some_iff, Int.neg_one_mul]

/-- A single fragment is read on its side of the line: the `1` in front counts for nothing. -/
theorem parse_opening {text : String} (hne : text.toList ≠ []) (h : Unbroken text.toList)
    (side : Side) : parse (side.opening ++ text) = addFragment dimensionless text.toList side := by
  cases side with
  | numerator =>
      have hnoSlash : '/' ∉ text.toList := fun hslash => (h _ hslash).1 rfl
      have hword := Text.words_of_run (fun c hc => (h c hc).2) hne
      rw [Side.opening, String.empty_append, parse, fragments_of_noSlash hnoSlash, hword]
      rfl
  | denominator =>
      have hword : Text.words (fun c => c == '/' || isSeparator c) text.toList = [text.toList] :=
        Text.words_of_run (fun c hc => by simp [h c hc]) hne
      have hparts : fragments ("1/" ++ text).toList =
          [(['1'], .numerator), (text.toList, .denominator)] := by
        rw [String.toList_append]
        show fragments (['1'] ++ '/' :: text.toList) = _
        rw [fragments_slash (by decide), hword]
        rfl
      rw [Side.opening, parse, hparts]
      rfl

theorem isSuperscript_of_mem {c : Char} (h : c ∈ superscripts negative ds) :
    isSuperscript c = true :=
  forall_mem_superscripts (P := (isSuperscript · = true)) (by decide) (by decide) c h

theorem superscripts_ne_nil (h : negative = true ∨ ds ≠ []) : superscripts negative ds ≠ [] := by
  intro hnil
  obtain ⟨hminus, hdigits⟩ := List.append_eq_nil_iff.mp hnil
  rcases h with rfl | hds
  · exact absurd hminus (List.cons_ne_nil _ _)
  · exact hds (List.map_eq_nil_iff.mp hdigits)

/-- Superscripts are split off where the first of them stands. -/
theorem splitFragment_superscripts (hplain : ∀ c ∈ cs, c ≠ '^' ∧ isSuperscript c = false)
    (hsome : negative = true ∨ ds ≠ []) :
    splitFragment (cs ++ superscripts negative ds) =
      (cs, clampedExponent negative (numeralValue ds)) := by
  have hcaret : '^' ∉ cs ++ superscripts negative ds := by
    intro hmem
    rcases List.mem_append.mp hmem with hfront | hback
    · exact (hplain _ hfront).1 rfl
    · exact absurd (isSuperscript_of_mem hback) (by decide)
  have hany : (cs ++ superscripts negative ds).any isSuperscript = true := by
    obtain ⟨c, rest, hcons⟩ := List.exists_cons_of_ne_nil (superscripts_ne_nil hsome)
    have hmem : c ∈ superscripts negative ds := hcons ▸ List.mem_cons_self
    exact List.any_eq_true.mpr ⟨c, List.mem_append_right _ hmem, isSuperscript_of_mem hmem⟩
  have hfront : ∀ c ∈ cs, (!isSuperscript c) = true := fun c hc => by simp [hplain c hc]
  have hback : ∀ c ∈ (superscripts negative ds).head?, (!isSuperscript c) = false := by
    intro c hc
    simp [isSuperscript_of_mem (List.mem_of_mem_head? hc)]
  rw [splitFragment, if_neg (by simpa using hcaret), if_pos hany,
    Decimal.dropWhile_of_boundary hfront hback, Decimal.takeWhile_of_boundary hfront hback,
    superscriptExponent?_superscripts]

theorem written?_superscripts (negative : Bool) (ds : List (Fin 10)) :
    written? (superscripts negative ds) = some (clampedExponent negative (numeralValue ds)) := by
  unfold written?
  split
  · rename_i heq
    exact absurd heq.symm caret_ne_superscripts
  · exact superscriptExponent?_superscripts negative ds

theorem written?_signedDigits (hds : ds ≠ []) {e : Exponent} :
    written? ('^' :: signedDigits plus negative ds) = some e ↔ e.val = signedValue negative ds := by
  rw [written?, caretExponent?_signedDigits hds, Exponent.ofInt?_eq_some_iff]

/-- An exponent behind a plain name is split off, unless it cannot be read. -/
theorem splitFragment_written (hplain : ∀ c ∈ cs, c ≠ '^' ∧ isSuperscript c = false)
    (hk : IsExponentText k) :
    splitFragment (cs ++ k) =
      match written? k with
      | some e => (cs, e)
      | none => (cs ++ k, .one) := by
  cases hk with
  | caret hunbroken => exact splitFragment_caret fun hmem => (hplain _ hmem).1 rfl
  | superscript hsome => rw [splitFragment_superscripts hplain hsome, written?_superscripts]

theorem IsExponentText.ne_nil (hk : IsExponentText k) : k ≠ [] := by
  cases hk with
  | caret hunbroken => exact List.cons_ne_nil _ _
  | superscript hsome => exact superscripts_ne_nil hsome

theorem IsExponentText.unbroken (hk : IsExponentText k) : Unbroken k := by
  cases hk with
  | caret hunbroken =>
      intro c hc
      rcases List.mem_cons.mp hc with rfl | hmem
      · decide
      · exact hunbroken c hmem
  | superscript hsome =>
      have hdigits : ∀ d, superscriptDigit d ≠ '/' ∧ isSeparator (superscriptDigit d) = false := by
        decide
      exact forall_mem_superscripts (by decide) hdigits

/-- Whatever spells a number may stand behind a name. -/
theorem Spells.isExponentText (h : Spells k n) : IsExponentText k := by
  cases h with
  | @caret plus negative ds hsigns hds =>
      have hdigits : ∀ d, asciiDigit d ≠ '/' ∧ isSeparator (asciiDigit d) = false := by
        decide
      refine .caret fun c hc => ?_
      rcases List.mem_append.mp hc with hplus | hrest
      · rw [List.eq_of_mem_replicate hplus]
        decide
      · rcases List.mem_append.mp hrest with hminus | hdigit
        · split at hminus
          · rw [List.mem_singleton.mp hminus]
            decide
          · exact absurd hminus List.not_mem_nil
        · obtain ⟨d, -, rfl⟩ := List.mem_map.mp hdigit
          exact hdigits d
  | superscript hds => exact .superscript (.inr hds)

theorem IsExponentText.isPureNumber (hk : IsExponentText k) (cs : List Char) :
    isPureNumber (cs ++ k) = false := by
  cases hk with
  | caret hunbroken => exact isPureNumber_of_caret (by simp)
  | superscript hsome =>
      obtain ⟨c, rest, hcons⟩ := List.exists_cons_of_ne_nil (superscripts_ne_nil hsome)
      have hmem : c ∈ superscripts _ _ := hcons ▸ List.mem_cons_self
      have hmarked : c ∉ ['1'] ∧ c.toLower ∉ dimensionlessLabel.toList :=
        forall_mem_superscripts (P := fun c => c ∉ ['1'] ∧ c.toLower ∉ dimensionlessLabel.toList)
          (by decide) (by decide) c hmem
      exact isPureNumber_of_mem hmarked.1 hmarked.2 (List.mem_append_right _ hmem)

/-- **A plain name with an exponent behind it** becomes a factor, if the exponent is read and can be
    brought to its side, and an opaque name otherwise. -/
theorem parse_written (hname : IsName name) (hplain : IsPlain name) (hk : IsExponentText k)
    (side : Side) :
    parse (side.opening ++ name ++ String.ofList k) =
      match (written? k).bind side.exponent? with
      | some e => single ⟨name, e⟩
      | none => single ⟨name ++ String.ofList k, side.unitExponent⟩ := by
  have htext : (name ++ String.ofList k).toList = name.toList ++ k := by
    rw [String.toList_append, String.toList_ofList]
  have hne : (name ++ String.ofList k).toList ≠ [] := by
    rw [htext]
    exact fun hnil => hname.toList_ne_nil (List.append_eq_nil_iff.mp hnil).1
  have hunbroken : Unbroken (name ++ String.ofList k).toList := by
    intro c hc
    rw [htext, List.mem_append] at hc
    exact hc.elim (hname.unbroken c) (hk.unbroken c)
  have hpure := hk.isPureNumber name.toList
  have hsplit := splitFragment_written hplain.unmarked hk
  rw [String.append_assoc, parse_opening hne hunbroken, htext]
  cases hread : written? k with
  | some e =>
      rw [hread] at hsplit
      rw [addFragment_split hpure hname.notNumeric hsplit, String.ofList_append,
        String.ofList_toList]
      rfl
  | none =>
      have hnumeric : isNumericName (name.toList ++ k) = false := by
        rw [isNumericName, List.all_append, Bool.and_eq_false_iff]
        exact .inl hname.notNumeric
      rw [hread] at hsplit
      rw [addFragment_of_whole hnumeric hpure hsplit, String.ofList_append, String.ofList_toList]
      exact (single_of_ne_zero side.unitExponent_ne_zero).symm

/-! ## Faithful reading -/

/-- **Faithful reading** of a name with an exponent behind it: an exponent that spells a number is
    that number on its side, if this is an exponent at all, and otherwise all is kept as one opaque
    name. -/
structure IsFaithful (name : String) (k : List Char) (side : Side) : Prop where
  exact : ∀ n, Spells k n → ∀ e : Exponent, e.val = side.combination.sign * n →
    parse (side.opening ++ name ++ String.ofList k) = single ⟨name, e⟩
  intact : (∀ n, Spells k n → ¬ Exponent.Fits (side.combination.sign * n)) →
    parse (side.opening ++ name ++ String.ofList k) =
      single ⟨name ++ String.ofList k, side.unitExponent⟩

/-- The texts that are not read faithfully, each with the unit that it becomes. -/
inductive Misread (name : String) (side : Side) : List Char → CompoundUnit → Prop
  /-- A minus without digits counts as 0. -/
  | minus : Misread name side (superscripts true []) dimensionless
  /-- Superscripts stop at the ends of the range. -/
  | beyond {negative : Bool} {ds : List (Fin 10)} {e : Exponent} :
      2147483647 < numeralValue ds →
      e.val = side.combination.sign * (if negative then -2147483647 else 2147483647) →
        Misread name side (superscripts negative ds) (single ⟨name, e⟩)
  /-- Signs in front of a signed numeral are passed over. -/
  | signs {plus : Nat} {negative : Bool} {ds : List (Fin 10)} {e : Exponent} :
      ds ≠ [] → 1 < plus + negative.toNat → Exponent.Fits (signedValue negative ds) →
      e.val = side.combination.sign * signedValue negative ds →
        Misread name side ('^' :: signedDigits plus negative ds) (single ⟨name, e⟩)
  /-- The magnitude of the lowest exponent is no exponent, not even below the line. -/
  | lowest {plus : Nat} {ds : List (Fin 10)} :
      side = .denominator → plus ≤ 1 → numeralValue ds = 2147483648 →
        Misread name side ('^' :: signedDigits plus false ds)
          (single ⟨name ++ String.ofList ('^' :: signedDigits plus false ds), side.unitExponent⟩)

theorem single_inj {e e' : Exponent} (h : single ⟨name, e⟩ = single ⟨name, e'⟩) : e = e' := by
  simp only [single, CompoundUnit.mk.injEq] at h
  split at h <;> split at h
  · rename_i hzero hzero'
    exact Exponent.ext (hzero.trans hzero'.symm)
  · exact absurd h.symm (List.cons_ne_nil _ _)
  · exact absurd h (List.cons_ne_nil _ _)
  · exact congrArg Factor.exponent (List.cons.inj h).1

/-- What is kept whole has another name. -/
theorem single_whole_ne (hk : k ≠ []) (e : Exponent) :
    single ⟨name ++ String.ofList k, side.unitExponent⟩ ≠ single ⟨name, e⟩ := by
  intro h
  rw [single_of_ne_zero side.unitExponent_ne_zero, single, CompoundUnit.mk.injEq] at h
  split at h
  · exact absurd h (List.cons_ne_nil _ _)
  · have hsame : name ++ String.ofList k = name := congrArg Factor.name (List.cons.inj h).1
    have hlist := congrArg String.toList hsame
    rw [String.toList_append, String.toList_ofList] at hlist
    exact hk (List.append_right_eq_self.mp hlist)

theorem Side.sign_eq (side : Side) :
    side.combination.sign = 1 ∨ side.combination.sign = -1 := by
  cases side with
  | numerator => exact .inl rfl
  | denominator => exact .inr rfl

/-- A magnitude that is an exponent can be brought to either side. -/
theorem fits_sign_mul (h : n.natAbs ≤ 2147483647) (side : Side) :
    Exponent.Fits (side.combination.sign * n) := by
  unfold Exponent.Fits
  rcases side.sign_eq with hsign | hsign <;> rw [hsign] <;> omega

/-- **Both readers agree** on what spells a number whose magnitude is an exponent. -/
theorem written?_of_spells (h : Spells k n) (hbound : n.natAbs ≤ 2147483647) :
    ∃ e, written? k = some e ∧ e.val = n := by
  have hfits : Exponent.Fits n := by
    unfold Exponent.Fits
    omega
  cases h with
  | caret hsigns hds => exact ⟨⟨_, hfits⟩, (written?_signedDigits hds).mpr rfl, rfl⟩
  | superscript hds =>
      rw [natAbs_signedValue] at hbound
      refine ⟨_, written?_superscripts _ _, ?_⟩
      rw [val_clampedExponent, Nat.min_eq_left hbound]
      rfl

theorem Misread.exists_beyond (h : 2147483647 < numeralValue ds) :
    ∃ u, Misread name side (superscripts negative ds) u := by
  have hfits : Exponent.Fits
      (side.combination.sign * (if negative then -2147483647 else 2147483647)) := by
    refine fits_sign_mul ?_ side
    cases negative <;> decide
  exact ⟨_, .beyond (e := ⟨_, hfits⟩) h rfl⟩

section Reading

variable (hname : IsName name) (hplain : IsPlain name) (hk : IsExponentText k)
include hname hplain hk

theorem parse_of_written? {e e' : Exponent} (hread : written? k = some e)
    (hside : e'.val = side.combination.sign * e.val) :
    parse (side.opening ++ name ++ String.ofList k) = single ⟨name, e'⟩ := by
  rw [parse_written hname hplain hk, hread, Option.bind_some,
    Side.exponent?_eq_some_iff.mpr hside]

theorem parse_of_unwritten (hread : (written? k).bind side.exponent? = none) :
    parse (side.opening ++ name ++ String.ofList k) =
      single ⟨name ++ String.ofList k, side.unitExponent⟩ := by
  rw [parse_written hname hplain hk, hread]

theorem parse_of_spells {e : Exponent} (h : Spells k n) (hbound : n.natAbs ≤ 2147483647)
    (he : e.val = side.combination.sign * n) :
    parse (side.opening ++ name ++ String.ofList k) = single ⟨name, e⟩ := by
  obtain ⟨e', hread, rfl⟩ := written?_of_spells h hbound
  exact parse_of_written? hname hplain hk hread he

theorem parse_of_misread {u : CompoundUnit} (h : Misread name side k u) :
    parse (side.opening ++ name ++ String.ofList k) = u := by
  cases h with
  | minus =>
      have hzero : (⟨0, by decide⟩ : Exponent).val = side.combination.sign * 0 :=
        (Int.mul_zero _).symm
      exact parse_of_written? hname hplain hk (written?_superscripts true []) hzero
  | @beyond negative ds e hlarge he =>
      refine parse_of_written? hname hplain hk (written?_superscripts negative ds) ?_
      rw [he, val_clampedExponent, Nat.min_eq_right (Nat.le_of_lt hlarge)]
      rfl
  | @signs plus negative ds e hds hmany hfits he =>
      have hread : written? ('^' :: signedDigits plus negative ds) = some ⟨_, hfits⟩ :=
        (written?_signedDigits hds).mpr rfl
      exact parse_of_written? hname hplain hk hread he
  | @lowest plus ds hside hplus hvalue =>
      have hds : ds ≠ [] := ne_nil_of_numeralValue_pos (by omega)
      have hread : written? ('^' :: signedDigits plus false ds) = none := by
        refine Option.eq_none_iff_forall_ne_some.mpr fun e he => ?_
        have hval : e.val = numeralValue ds := (written?_signedDigits hds).mp he
        have hlast := e.fits.2
        omega
      refine parse_of_unwritten hname hplain hk ?_
      rw [hread, Option.bind_none]

/-- What spells a number is read as that number, unless it is misread. -/
theorem parse_exact (h : ∀ u, ¬ Misread name side k u) {e : Exponent} (hspells : Spells k n)
    (he : e.val = side.combination.sign * n) :
    parse (side.opening ++ name ++ String.ofList k) = single ⟨name, e⟩ := by
  by_cases hbound : n.natAbs ≤ 2147483647
  · exact parse_of_spells hname hplain hk hspells hbound he
  · -- only the lowest exponent is left: above the line the caret reads it, below the line its
    -- magnitude has to be read first
    have hfits := e.fits
    cases hspells with
    | superscript hds =>
        rw [natAbs_signedValue] at hbound
        obtain ⟨u, hu⟩ := Misread.exists_beyond (Nat.lt_of_not_le hbound)
        exact absurd hu (h u)
    | @caret plus negative ds hsigns hds =>
        cases side with
        | numerator =>
            have hval : e.val = signedValue negative ds := he.trans (Int.one_mul _)
            exact parse_of_written? hname hplain hk ((written?_signedDigits hds).mpr hval)
              (Int.one_mul _).symm
        | denominator =>
            have hval : e.val = -signedValue negative ds := he.trans (Int.neg_one_mul _)
            rw [natAbs_signedValue] at hbound
            rw [hval, Exponent.Fits] at hfits
            cases negative with
            | true =>
                have hlarge : (numeralValue ds : Int) ≤ 2147483647 :=
                  (Int.neg_neg (numeralValue ds : Int)) ▸ hfits.2
                omega
            | false =>
                have hsmall : -2147483648 ≤ -(numeralValue ds : Int) := hfits.1
                exact absurd (.lowest rfl hsigns (by omega)) (h _)

/-- What spells no exponent is kept whole, unless it is misread. -/
theorem parse_intact (h : ∀ u, ¬ Misread name side k u)
    (hnone : ∀ n, Spells k n → ¬ Exponent.Fits (side.combination.sign * n)) :
    parse (side.opening ++ name ++ String.ofList k) =
      single ⟨name ++ String.ofList k, side.unitExponent⟩ := by
  have hform := hk
  cases hform with
  | @caret cs hunbroken =>
      cases hread : (written? ('^' :: cs)).bind side.exponent? with
      | none => exact parse_of_unwritten hname hplain hk hread
      | some e' =>
          obtain ⟨e, he, hside⟩ := Option.bind_eq_some_iff.mp hread
          obtain ⟨plus, negative, ds, hds, rfl⟩ := exists_signedDigits he
          have hval : e.val = signedValue negative ds := (written?_signedDigits hds).mp he
          have hval' : e'.val = side.combination.sign * signedValue negative ds :=
            hval ▸ Side.exponent?_eq_some_iff.mp hside
          -- what was read spells a number, or has too many signs
          by_cases hsigns : plus + negative.toNat ≤ 1
          · exact absurd (hval' ▸ e'.fits) (hnone _ (.caret hsigns hds))
          · exact absurd (.signs hds (Nat.lt_of_not_le hsigns) (hval ▸ e.fits) hval') (h _)
  | @superscript negative ds hsome =>
      -- superscripts are never kept whole: without digits, and beyond the range, they are misread
      by_cases hds : ds = []
      · subst hds
        obtain rfl : negative = true := hsome.resolve_right fun hne => hne rfl
        exact absurd .minus (h _)
      · have hlarge : 2147483647 < numeralValue ds := by
          refine Nat.lt_of_not_le fun hsmall => hnone _ (.superscript hds) ?_
          exact fits_sign_mul (natAbs_signedValue negative ds ▸ hsmall) side
        obtain ⟨u, hu⟩ := Misread.exists_beyond hlarge
        exact absurd hu (h u)

/-- A text that is misread is not read faithfully: the unit that it becomes is not the one it should
    become. -/
theorem not_isFaithful_of_misread {u : CompoundUnit} (h : Misread name side k u) :
    ¬ IsFaithful name k side := by
  intro hfaithful
  have hparse := parse_of_misread hname hplain hk h
  have hne := hk.ne_nil
  cases h with
  | minus =>
      -- a sign alone spells no exponent, and is read as the exponent 0
      have hwhole := hfaithful.intact fun n hspells => absurd rfl hspells.superscripts_inv.1
      exact single_whole_ne hne ⟨0, by decide⟩ (hwhole.symm.trans hparse)
  | @beyond negative ds e hlarge he =>
      -- either another exponent is spelled, or none that its side can take
      by_cases hfits : Exponent.Fits (side.combination.sign * signedValue negative ds)
      · have hds : ds ≠ [] := ne_nil_of_numeralValue_pos (by omega)
        have hexact := hfaithful.exact _ (.superscript hds) ⟨_, hfits⟩ rfl
        have hval : side.combination.sign * signedValue negative ds = e.val :=
          congrArg Exponent.val (single_inj (hexact.symm.trans hparse))
        have hmagnitude := natAbs_signedValue negative ds
        rw [he] at hval
        rcases side.sign_eq with hsign | hsign <;> rw [hsign] at hval <;> split at hval <;> omega
      · have hwhole := hfaithful.intact fun n hspells => hspells.superscripts_inv.2 ▸ hfits
        exact single_whole_ne hne e (hwhole.symm.trans hparse)
  | @signs plus negative ds e hds hmany hfits he =>
      -- no exponent is spelled with more than one sign
      have hwhole := hfaithful.intact fun n hspells => by
        have hsigns := hspells.signCount_le
        rw [signCount_signedDigits] at hsigns
        omega
      exact single_whole_ne hne e (hwhole.symm.trans hparse)
  | @lowest plus ds hside hplus hvalue =>
      -- below the line the lowest exponent is spelled, but not read
      have hds : ds ≠ [] := ne_nil_of_numeralValue_pos (by omega)
      have hexact := hfaithful.exact _ (.caret hplus hds) ⟨-2147483648, by decide⟩ (by
        subst hside
        show (-2147483648 : Int) = -1 * (numeralValue ds : Int)
        omega)
      exact single_whole_ne hne _ (hparse.symm.trans hexact)

end Reading

/-- What spells a number whose magnitude is an exponent is not misread. -/
theorem not_misread_of_spells (h : Spells k n) (hbound : n.natAbs ≤ 2147483647)
    (u : CompoundUnit) : ¬ Misread name side k u := by
  intro hmisread
  cases hmisread with
  | minus => exact h.superscripts_inv.1 rfl
  | @beyond negative ds e hlarge he =>
      rw [h.superscripts_inv.2, natAbs_signedValue] at hbound
      omega
  | signs hds hmany hfits he =>
      have hsigns := h.signCount_le
      rw [signCount_signedDigits] at hsigns
      omega
  | @lowest plus ds hside hplus hvalue =>
      have hds : ds ≠ [] := ne_nil_of_numeralValue_pos (by omega)
      obtain ⟨e, hread, rfl⟩ := written?_of_spells h hbound
      have hval : e.val = numeralValue ds := (written?_signedDigits hds).mp hread
      omega

/-- **Exponents are read faithfully, but for four kinds of texts.** A plain name with an exponent
    behind it, alone or behind `1/`, is read faithfully exactly if the text is none that is misread.
    One that is misread becomes the unit listed there. And a number whose magnitude is an exponent
    gives the same unit however it is spelled, behind a caret or in superscripts. -/
theorem exponent_text_read (hname : IsName name) (hplain : IsPlain name) (hk : IsExponentText k)
    (side : Side) :
    (IsFaithful name k side ↔ ∀ u, ¬ Misread name side k u) ∧
      (∀ u, Misread name side k u → parse (side.opening ++ name ++ String.ofList k) = u) ∧
      ∀ k' n, Spells k n → Spells k' n → n.natAbs ≤ 2147483647 →
        parse (side.opening ++ name ++ String.ofList k) =
          parse (side.opening ++ name ++ String.ofList k') := by
  refine ⟨⟨fun hfaithful u hu => ?_, fun h => ⟨fun n hspells e he => ?_, fun hnone => ?_⟩⟩,
    fun u => parse_of_misread hname hplain hk, ?_⟩
  · exact not_isFaithful_of_misread hname hplain hk hu hfaithful
  · exact parse_exact hname hplain hk h hspells he
  · exact parse_intact hname hplain hk h hnone
  · intro k' n hspells hspells' hbound
    have hfits := fits_sign_mul hbound side
    rw [parse_of_spells hname hplain hk (e := ⟨_, hfits⟩) hspells hbound rfl,
      parse_of_spells hname hplain hspells'.isExponentText (e := ⟨_, hfits⟩) hspells' hbound rfl]

/-- Read faithfully below the line, in both spellings, and beyond the range. -/
theorem henry_exponents :
    let k := '^' :: signedDigits 1 false [1, 2]
    let large := superscripts false [2, 1, 4, 7, 4, 8, 3, 6, 4, 8]
    (IsName "H" ∧ IsPlain "H" ∧ IsExponentText k ∧ IsExponentText large) ∧
      (IsFaithful "H" k .denominator ∧ parse "1/H^+12" = parse "1/H¹²" ∧
        parse "1/H^+12" = single ⟨"H", ⟨-12, by decide⟩⟩) ∧
      parse "H²¹⁴⁷⁴⁸³⁶⁴⁸" = single ⟨"H", .largest⟩ := by
  intro k large
  have hname : IsName "H" := by decide +kernel
  have hplain : IsPlain "H" := by decide +kernel
  have hspells : Spells k 12 := .caret (by decide) (by decide)
  have hspells' : Spells (superscripts false [1, 2]) 12 := .superscript (by decide)
  have hlarge : IsExponentText large := .superscript (.inr (by decide))
  have hbound : (12 : Int).natAbs ≤ 2147483647 := by decide
  obtain ⟨hiff, -, hsame⟩ :=
    exponent_text_read hname hplain hspells.isExponentText .denominator
  obtain ⟨-, hmisread, -⟩ := exponent_text_read hname hplain hlarge .numerator
  have hfaithful : IsFaithful "H" k .denominator :=
    hiff.mpr (not_misread_of_spells hspells hbound)
  have hbeyond : Misread "H" .numerator large (single ⟨"H", .largest⟩) :=
    .beyond (by decide +kernel) rfl
  have hk : Side.denominator.opening ++ "H" ++ String.ofList k = "1/H^+12" := by decide +kernel
  have hk' : Side.denominator.opening ++ "H" ++ String.ofList (superscripts false [1, 2]) =
      "1/H¹²" := by
    decide +kernel
  have hlarge' : Side.numerator.opening ++ "H" ++ String.ofList large = "H²¹⁴⁷⁴⁸³⁶⁴⁸" := by
    decide +kernel
  have hexact := hfaithful.exact _ hspells ⟨-12, by decide⟩ (by decide)
  have hagree := hsame _ _ hspells hspells' hbound
  have hclamped := hmisread _ hbeyond
  rw [hk] at hexact hagree
  rw [hk'] at hagree
  rw [hlarge'] at hclamped
  exact ⟨⟨hname, hplain, hspells.isExponentText, hlarge⟩, ⟨hfaithful, hagree, hexact⟩, hclamped⟩

/-- **A lone minus vanishes**, and its name with it: it spells no number, so the fragment should be
    kept whole. -/
theorem lone_minus_vanishes :
    (IsName "m" ∧ IsPlain "m" ∧ IsExponentText ['⁻'] ∧ ∀ n, ¬ Spells ['⁻'] n) ∧
      parse "m⁻" = dimensionless ∧ ¬ IsFaithful "m" ['⁻'] .numerator := by
  have hname : IsName "m" := by decide +kernel
  have hplain : IsPlain "m" := by decide +kernel
  have hk : IsExponentText (superscripts true []) := .superscript (.inl rfl)
  have hnone : ∀ n, ¬ Spells (superscripts true []) n := fun n h => h.superscripts_inv.1 rfl
  have hminus : Misread "m" .numerator (superscripts true []) dimensionless := .minus
  exact ⟨⟨hname, hplain, hk, hnone⟩, by decide +kernel,
    not_isFaithful_of_misread hname hplain hk hminus⟩

/-- The other three: too large, too many signs, and the lowest exponent below the line. -/
example : parse "m⁹⁹⁹⁹⁹⁹⁹⁹⁹⁹" = single ⟨"m", .largest⟩ ∧ parse "m^+-5" = parse "m^-5" ∧
    parse "1/m^2147483648" = single ⟨"m^2147483648", ⟨-1, by decide⟩⟩ := by
  decide +kernel

end Reckoner.CompoundUnit
