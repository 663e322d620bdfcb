import Reckoner.Proofs.Yaml.Plain

/-!
# `Reckoner.Proofs.Yaml.Quoted` — quoted scalars are read character by character

Between quotes each character is spelled in its own way, spaces as they are, and nothing is lost.

## Contents
- **Digits.** Hexadecimal digits and the escape of two of them.
- **Characters.** `Spells`: how a character is spelled between quotes.
- **Texts.** Words and the whole text between the quotes.
- **Scalars.** `content_quoted`.
-/

namespace Reckoner.Yaml

/-! ## Digits -/

theorem digit_hexDigit : ∀ n < 16, digit? 16 (hexDigit n) = some n := by decide

theorem hexDigit_ne_underscore : ∀ n < 16, (hexDigit n != '_') = true := by decide

theorem character?_toNat (c : Char) : character? c.toNat = some c := by
  have hvalid : c.toNat.isValidChar := c.valid
  rw [character?, if_pos hvalid, Char.ofNat_toNat]

/-- The number of two digits in front of a text. -/
theorem hexNumber?_hexDigits {high low : Nat} (hhigh : high < 16) (hlow : low < 16)
    (tail : List Char) :
    hexNumber? 2 (hexDigit high :: hexDigit low :: tail) = some (16 * high + low) := by
  have hfilter :
      [hexDigit high, hexDigit low].filter (· != '_') = [hexDigit high, hexDigit low] := by
    simp only [List.filter_cons, hexDigit_ne_underscore _ hhigh, hexDigit_ne_underscore _ hlow,
      if_true, List.filter_nil]
  have hvalue : digitsValue? 16 [hexDigit high, hexDigit low] = some (16 * high + low) := by
    rw [digitsValue?, hfilter]
    simp [digit_hexDigit _ hhigh, digit_hexDigit _ hlow]
  simp [hexNumber?, digit_hexDigit _ hhigh, digit_hexDigit _ hlow, hvalue]

/-- The escape of a control character. -/
theorem escaped?_control {c : Char} (h : isControl c = true) (tail : List Char) :
    escaped? ('x' :: hexDigit (c.toNat / 16) :: hexDigit (c.toNat % 16) :: tail) = some (c, 3) := by
  have hless : c.toNat < 160 := by
    simp only [isControl, Bool.or_eq_true, Bool.and_eq_true, decide_eq_true_eq] at h
    omega
  have hhigh : c.toNat / 16 < 16 := by omega
  have hlow : c.toNat % 16 < 16 := by omega
  have hvalue : 16 * (c.toNat / 16) + c.toNat % 16 = c.toNat := by omega
  have hnumber := hexNumber?_hexDigits hhigh hlow tail
  rw [hvalue] at hnumber
  change hexCharacter? 2 (hexDigit (c.toNat / 16) :: hexDigit (c.toNat % 16) :: tail) = _
  rw [hexCharacter?, hnumber, Option.bind_some, character?_toNat]
  rfl

/-! ## Characters -/

section Characters

variable {c : Cursor} {quote ch : Char} {code tail text : List Char} {fuel : Nat}

/-- A character is spelled by a code between quotes. -/
structure Spells (quote ch : Char) (code : List Char) : Prop where
  begins : ∃ d more, code = d :: more ∧ isSpace d = false ∧ d ≠ '\n'
  step : ∀ {c : Cursor} {tail text : List Char} {fuel : Nat}, c.rest = code ++ tail →
    (quotedWord quote text (fuel + 1)).run c =
      (quotedWord quote (ch :: text) fuel).run (c.behind code.length)

/-- Most characters stand for themselves. -/
theorem spells_self (hspace : isSpace ch = false) (hbreak : ch ≠ '\n') (hquote : ch ≠ quote)
    (hescape : quote = '"' → ch ≠ '\\') : Spells quote ch [ch] := by
  refine ⟨⟨ch, [], rfl, hspace, hbreak⟩, fun {c tail text fuel} hrest => ?_⟩
  have hcode : (quote == '"' && ch == '\\') = false := by
    rw [Bool.and_eq_false_imp]
    simpa using hescape
  rw [List.singleton_append] at hrest
  rw [quotedWord]
  simp only [StateT.run_bind, StateT.run_get, Option.pure_def, Option.bind_eq_bind,
    Option.bind_some, hrest, hspace, beq_eq_false_iff_ne.mpr hbreak,
    beq_eq_false_iff_ne.mpr hquote, Bool.or_self, hcode, Bool.false_eq_true, if_false, run_pass,
    List.length_singleton]

/-- The others are spelled behind a backslash. -/
theorem spells_escaped {d : Char} {code : List Char} (hbreak : (d == '\n') = false)
    (h : ∀ tail, escaped? (d :: (code ++ tail)) = some (ch, code.length + 1)) :
    Spells '"' ch ('\\' :: d :: code) := by
  refine ⟨⟨'\\', d :: code, rfl, rfl, by decide⟩, fun {c tail text fuel} hrest => ?_⟩
  have hnext : ((d :: (code ++ tail)).head? == some '\n') = false := hbreak
  rw [List.cons_append, List.cons_append] at hrest
  rw [quotedWord]
  simp only [StateT.run_bind, StateT.run_get, Option.pure_def, Option.bind_eq_bind,
    Option.bind_some, hrest, hnext, h, List.length_cons]
  rfl

theorem spells_escape (hspace : ch ≠ ' ') : Spells '"' ch (escape ch) := by
  unfold escape
  split
  case h_15 => exact spells_escaped (by decide) fun tail => rfl
  case h_16 hback hquote _ _ _ htab hbreak _ _ _ _ _ _ _ _ =>
    split
    · rename_i hcontrol
      exact spells_escaped (by decide) (escaped?_control hcontrol)
    · refine spells_self ?_ hbreak hquote fun _ => hback
      simp only [isSpace, beq_eq_false_iff_ne.mpr hspace, beq_eq_false_iff_ne.mpr htab,
        Bool.or_self]
  all_goals exact spells_escaped (by decide) fun tail => rfl

end Characters

/-! ## Texts -/

section Texts

variable {c : Cursor} {quote : Char} {spell : Char → List Char} {cs word tail text : List Char}
  {fuel : Nat}

/-- A word between quotes ends where a space or the closing quote follows. -/
def EndsWord (quote : Char) (tail : List Char) : Prop :=
  tail.head? = some ' ' ∨ ∃ after, tail = quote :: after ∧ after.head? ≠ some quote

theorem run_quotedWord_end (hrest : c.rest = tail) (htail : EndsWord quote tail) :
    (quotedWord quote text (fuel + 1)).run c = some ((text, false), c) := by
  rw [quotedWord]
  simp only [StateT.run_bind, StateT.run_get, Option.pure_def, Option.bind_eq_bind,
    Option.bind_some, hrest]
  rcases htail with hspace | ⟨after, rfl, hafter⟩
  · cases tail with
    | nil => exact absurd hspace nofun
    | cons d tail =>
        obtain rfl := Option.some.inj hspace
        simp [isSpace]
  · have hdouble : (quote == '\'' && after.head? == some quote) = false := by
      rw [Bool.and_eq_false_imp]
      simpa using fun _ => hafter
    simp only [hdouble, beq_self_eq_true, if_true, Bool.false_eq_true, if_false]
    split
    · rfl
    · rfl

theorem run_quotedWord (text : List Char) (hspells : ∀ ch ∈ word, Spells quote ch (spell ch))
    (hfresh : c.fresh = false) (hrest : c.rest = word.flatMap spell ++ tail)
    (hfuel : word.length < fuel) (htail : EndsWord quote tail) :
    (quotedWord quote text fuel).run c =
      some ((word.reverse ++ text, false), c.behind (word.flatMap spell).length) := by
  induction word generalizing c text fuel with
  | nil =>
      cases fuel with
      | zero => exact absurd hfuel (Nat.not_lt_zero _)
      | succ fuel =>
          rw [run_quotedWord_end hrest htail, List.flatMap_nil, List.length_nil,
            Cursor.behind_zero hfresh]
          rfl
  | cons ch word ih =>
      cases fuel with
      | zero => exact absurd hfuel (Nat.not_lt_zero _)
      | succ fuel =>
          rw [List.forall_mem_cons] at hspells
          rw [List.flatMap_cons, List.append_assoc] at hrest
          have hless : word.length < fuel := by simpa using hfuel
          have hword := ih (ch :: text) hspells.2 rfl (Cursor.rest_behind hrest) hless
          rw [hspells.1.step hrest, hword, Cursor.behind_behind]
          simp

/-- The spaces between two words. -/
theorem skipQuotedGap_spaces (c : Cursor) (n : Nat)
    (htail : ∀ ch ∈ tail.head?, isSpace ch = false ∧ ch ≠ '\n') :
    c.skipQuotedGap false 0 (spaces n ++ tail) = some (0, c.behindBlanks n) := by
  induction n generalizing c with
  | zero =>
      change c.skipQuotedGap false 0 tail = some (0, c)
      cases tail with
      | nil => rfl
      | cons ch tail =>
          obtain ⟨hspace, hbreak⟩ := htail ch rfl
          simp [Cursor.skipQuotedGap, hspace, hbreak]
  | succ n ih =>
      have hstep : c.skipQuotedGap false 0 (spaces (n + 1) ++ tail) =
          (c.behindBlanks 1).skipQuotedGap false 0 (spaces n ++ tail) := by
        simp [spaces, List.replicate_succ, Cursor.skipQuotedGap, isSpace]
      rw [hstep, ih, Cursor.behindBlanks_behindBlanks, Nat.add_comm]

theorem flatMap_spaces (hspace : spell ' ' = [' ']) (n : Nat) :
    (spaces n).flatMap spell = spaces n := by
  induction n with
  | zero => rfl
  | succ n ih =>
      rw [spaces, List.replicate_succ, List.flatMap_cons, hspace]
      exact congrArg (' ' :: ·) ih

section Steps

variable {c₁ : Cursor} {known : List Char}

theorem isInside_quoted (hcolumn : 0 < c.column) (hne : c.rest ≠ []) :
    (!(c.rest.isEmpty || c.column == 0 && opensAnyBoundary c.rest)) = true := by
  rw [Bool.not_eq_true', Bool.or_eq_false_iff, Bool.and_eq_false_imp]
  exact ⟨by simpa using hne, fun h => absurd (beq_iff_eq.mp h) hcolumn.ne'⟩

/-- Behind its last word the text ends with the closing quote. -/
theorem run_quotedText_last (hcolumn : 0 < c.column) (hne : c.rest ≠ [])
    (hword : (quotedWord quote text (fuel + 1)).run c = some ((known, false), c₁))
    (hend : c₁.rest.head? = some quote) :
    (quotedText quote text (fuel + 1)).run c = some (known, c₁.behind 1) := by
  rw [quotedText]
  simp only [StateT.run_bind, StateT.run_get, Option.pure_def, Option.bind_eq_bind,
    Option.bind_some, run_guard (isInside_quoted hcolumn hne), hword]
  simp [hend, run_pass]

/-- Behind another word the text goes on. -/
theorem run_quotedText_more {c₂ : Cursor} (hcolumn : 0 < c.column) (hne : c.rest ≠ [])
    (hword : (quotedWord quote text (fuel + 1)).run c = some ((known, false), c₁))
    (hopen : c₁.rest.head? ≠ some quote)
    (hgap : c₁.skipQuotedGap false 0 c₁.rest = some (0, c₂)) :
    (quotedText quote text (fuel + 1)).run c =
      (quotedText quote ((c₁.rest.takeWhile isSpace).reverse ++ known) fuel).run c₂ := by
  rw [quotedText]
  simp only [StateT.run_bind, StateT.run_get, Option.pure_def, Option.bind_eq_bind,
    Option.bind_some, run_guard (isInside_quoted hcolumn hne), hword]
  simp [hopen, hgap, quotedGapText, Gap.text]

end Steps

/-- What is spelled begins with no blank, unless it is one. -/
theorem head?_spelled (hspells : ∀ ch ∈ cs, ch ≠ ' ' → Spells quote ch (spell ch))
    (hcs : ∀ ch ∈ cs.head?, ch ≠ ' ') (hquote : isSpace quote = false ∧ quote ≠ '\n') :
    ∀ ch ∈ (cs.flatMap spell ++ quote :: tail).head?, isSpace ch = false ∧ ch ≠ '\n' := by
  cases cs with
  | nil => exact fun ch hch => Option.some.inj hch ▸ hquote
  | cons d cs =>
      obtain ⟨e, more, hcode, hbegins⟩ := (hspells d List.mem_cons_self (hcs d rfl)).begins
      intro ch hch
      rw [List.flatMap_cons, hcode] at hch
      obtain rfl := Option.some.inj hch
      exact hbegins

/-- **A text is read up to its closing quote.** -/
theorem run_quotedText (text : List Char) (hquote : isSpace quote = false ∧ quote ≠ '\n')
    (hspells : ∀ ch ∈ cs, ch ≠ ' ' → Spells quote ch (spell ch)) (hspace : spell ' ' = [' '])
    (hcolumn : 0 < c.column) (hfresh : c.fresh = false)
    (hrest : c.rest = cs.flatMap spell ++ quote :: tail) (htail : tail.head? ≠ some quote)
    (hfuel : cs.length < fuel) :
    (quotedText quote text fuel).run c =
      some (cs.reverse ++ text, c.behind ((cs.flatMap spell).length + 1)) := by
  induction fuel generalizing c cs text with
  | zero => exact absurd hfuel (Nat.not_lt_zero _)
  | succ fuel ih =>
      obtain ⟨word, n, more, rfl, hword, hmore, hn⟩ := exists_word cs
      have hne : c.rest ≠ [] := by simp [hrest]
      have hfront : c.rest = word.flatMap spell ++
          (spaces n ++ (more.flatMap spell ++ quote :: tail)) := by
        simp [hrest, List.flatMap_append, flatMap_spaces hspace]
      have hwordspells : ∀ ch ∈ word, Spells quote ch (spell ch) := fun ch hch =>
        hspells ch (List.mem_append_left _ hch) (hword ch hch)
      have hless : word.length < fuel + 1 := by
        rw [List.length_append] at hfuel
        omega
      let c₁ := c.behind (word.flatMap spell).length
      have hbehind : c₁.rest = spaces n ++ (more.flatMap spell ++ quote :: tail) :=
        Cursor.rest_behind hfront
      cases n with
      | zero =>
          -- the word is the last one, and the closing quote stands behind it
          obtain rfl := hn rfl
          have hrun := run_quotedWord text hwordspells hfresh hfront hless
            (.inr ⟨tail, rfl, htail⟩)
          rw [run_quotedText_last hcolumn hne hrun (by rw [hbehind]; rfl), Cursor.behind_behind]
          simp [spaces]
      | succ n =>
          -- the spaces behind the word belong to the text, in front of the closing quote too
          have hrun := run_quotedWord text hwordspells hfresh hfront hless (.inl rfl)
          have hmorespells : ∀ ch ∈ more, ch ≠ ' ' → Spells quote ch (spell ch) := fun ch hch =>
            hspells ch (List.mem_append_right _ (List.mem_append_right _ hch))
          have hbegins : ∀ ch ∈ (more.flatMap spell ++ quote :: tail).head?,
              isSpace ch = false ∧ ch ≠ '\n' := head?_spelled hmorespells hmore hquote
          have hgap : c₁.skipQuotedGap false 0 c₁.rest = some (0, c₁.behindBlanks (n + 1)) := by
            rw [hbehind]
            exact skipQuotedGap_spaces c₁ (n + 1) hbegins
          have hopen : c₁.rest.head? ≠ some quote := by
            rw [hbehind]
            intro heq
            rw [← Option.some.inj heq] at hquote
            exact absurd hquote.1 (by decide)
          have hinside : 0 < (c₁.behindBlanks (n + 1)).column := Nat.add_pos_right _ n.succ_pos
          have hnext : (c₁.behindBlanks (n + 1)).rest = more.flatMap spell ++ quote :: tail := by
            simp [Cursor.behindBlanks, Cursor.behind, hbehind]
          rw [run_quotedText_more hcolumn hne hrun hopen hgap, hbehind,
            takeWhile_spaces fun ch hch => (hbegins ch hch).1,
            ih _ hmorespells hinside rfl hnext (by simp at hfuel; omega)]
          simp [c₁, Cursor.behind_behindBlanks, Cursor.behind_behind, List.flatMap_append,
            flatMap_spaces hspace, Nat.add_assoc]

end Texts

/-! ## Scalars -/

section Scalars

variable {c : Cursor} {quote : Char} {spell : Char → List Char} {cs text : List Char} {s : Nest}
  {m : Nat}

theorem length_le_spelled (hspells : ∀ ch ∈ cs, ch ≠ ' ' → Spells quote ch (spell ch))
    (hspace : spell ' ' = [' ']) : cs.length ≤ (cs.flatMap spell).length := by
  induction cs with
  | nil => exact Nat.le_refl _
  | cons ch cs ih =>
      rw [List.forall_mem_cons] at hspells
      have hcode : 1 ≤ (spell ch).length := by
        by_cases hch : ch = ' '
        · rw [hch, hspace]
          exact Nat.le_refl _
        · obtain ⟨d, more, hcode, -⟩ := (hspells.1 hch).begins
          simp [hcode]
      have hmore := ih hspells.2
      rw [List.flatMap_cons, List.length_append, List.length_cons]
      omega

/-- Behind the closing quote the line ends. -/
theorem run_quoted {c₁ : Cursor} {behind : List Char}
    (hrun : (quotedText quote [] (c.rest.length + 1)).run (c.behind 1) = some (cs.reverse, c₁))
    (hrest : c₁.rest = '\n' :: behind) : (quoted quote).run c = some (.scalar .quoted cs, c₁) := by
  have hremark : Cursor.remarkLength? c₁.rest = some 0 := by rw [hrest]; rfl
  have hends : endsQuoted (c.line == c₁.line) c₁ = true := by simp [endsQuoted, hrest]
  rw [quoted]
  simp only [StateT.run_bind, StateT.run_get, Option.pure_def, Option.bind_eq_bind,
    Option.bind_some, run_pass, hrun, run_passRemark_zero hremark, hends, run_guard trivial,
    List.reverse_reverse]
  rfl

/-- A spelled text is read with both of its quotes. -/
theorem run_quoted_spelled (hquote : isSpace quote = false ∧ quote ≠ '\n')
    (hspells : ∀ ch ∈ cs, ch ≠ ' ' → Spells quote ch (spell ch)) (hspace : spell ' ' = [' '])
    {behind : List Char} (hrest : c.rest = quote :: (cs.flatMap spell ++ quote :: '\n' :: behind)) :
    let c₁ := c.behind (1 + ((cs.flatMap spell).length + 1))
    c₁.rest = '\n' :: behind ∧ (quoted quote).run c = some (.scalar .quoted cs, c₁) := by
  intro c₁
  have hbehind : c₁.rest = '\n' :: behind := by
    have hfront : c.rest = (quote :: cs.flatMap spell ++ [quote]) ++ '\n' :: behind := by
      simp [hrest]
    have hlength : (quote :: cs.flatMap spell ++ [quote]).length =
        1 + ((cs.flatMap spell).length + 1) := by
      simp
      omega
    have hall := Cursor.rest_behind hfront
    rwa [hlength] at hall
  have hfirst : (c.behind 1).rest = cs.flatMap spell ++ quote :: '\n' :: behind := by
    simp [Cursor.behind, hrest]
  have hends : ('\n' :: behind).head? ≠ some quote := fun h => hquote.2 (Option.some.inj h).symm
  have hfuel : cs.length < c.rest.length + 1 := by
    have hlength := length_le_spelled hspells hspace
    rw [hrest, List.length_cons, List.length_append]
    omega
  have hrun := run_quotedText [] hquote hspells hspace (Nat.succ_pos _) rfl hfirst hends hfuel
  rw [Cursor.behind_behind, List.append_nil] at hrun
  exact ⟨hbehind, run_quoted hrun hbehind⟩

/-- Behind a colon a quoted text is pushed, and the place behind it is kept in mind. -/
theorem run_quotedKey {c₁ c₂ : Cursor} {t : Token} (hc : c.Behind text s)
    (hread : (quoted quote).run c = some (t, c₁)) (hskip : c₁.skip false c₁.rest = some c₂) :
    (quotedKey quote).run c =
      some ((), { c₂ with adjacentAt := some c₂.index }.push t) := by
  rw [quotedKey]
  simp only [StateT.run_bind, run_modify, hc.saveKey, hc.allowKey, Option.bind_eq_bind,
    Option.bind_some, hread, run_skip, hskip, Option.map_some, run_push]

/-- **A quoted value is read as it is.** -/
theorem content_quoted (hquote : isSpace quote = false ∧ quote ≠ '\n')
    (hspells : ∀ ch ∈ cs, ch ≠ ' ' → Spells quote ch (spell ch)) (hspace : spell ' ' = [' '])
    (hc : c.Behind (quote :: cs.flatMap spell ++ quote :: '\n' :: (spaces m ++ text)) s)
    (htext : Cursor.Begins text) (hm : (m : Int) ≤ s.indent) :
    ∃ c₁, (quotedKey quote).run c = some ((), c₁) ∧ c₁.rest = text ∧
      c₁.Arrives m text (s.add [.scalar .quoted cs]) := by
  obtain ⟨hrest, hrun⟩ := run_quoted_spelled hquote hspells hspace hc.rest
  generalize hc₁ : c.behind (1 + ((cs.flatMap spell).length + 1)) = c₁ at hrest hrun
  have hcalm : c₁.Calm := hc₁ ▸ hc.calm.behind _
  have hnest : c₁.nest = s.demanding := by
    rw [← hc₁]
    exact hc.nest
  -- the next entry is looked for at once, from the end of this line on
  have hskip := Cursor.skip_line hcalm hrest htext
  let c₂ := (c₁.nextLine.allowKey true).behindBlanks m
  have hrest₂ : c₂.rest = text := by
    simp [c₂, Cursor.behindBlanks, Cursor.behind, Cursor.allowKey, Cursor.nextLine, hrest]
  have hcolumn₂ : c₂.column = m := by
    simp [c₂, Cursor.behindBlanks, Cursor.behind, Cursor.allowKey, Cursor.nextLine]
  let c₃ := { c₂ with adjacentAt := some c₂.index }.push (.scalar .quoted cs)
  have hcalm₃ : c₃.Calm :=
    ⟨hcalm.brackets, hcalm.pairs, hcalm.candidate, congrArg (· + 1) hcalm.count⟩
  have hnest₃ : c₃.nest = (s.add [.scalar .quoted cs]).demanding :=
    congrArg (Nest.add [.scalar .quoted cs]) hnest
  have hbegins : Cursor.Begins c₃.rest := hrest₂ ▸ htext
  refine ⟨c₃, run_quotedKey hc hrun hskip, hrest₂, ?_⟩
  refine Cursor.arrives_of_skip (Cursor.skip_begins hbegins _) hcalm₃ rfl hrest₂ hcolumn₂ ?_
  rw [hnest₃]
  exact Nest.upTo_demanding (s := s.add _) hm

end Scalars

end Reckoner.Yaml
