import Mathlib.Data.List.DropRight
import Reckoner.Proofs.Decimal.Digits
import Reckoner.Proofs.Yaml.Cursor

/-!
# `Reckoner.Proofs.Yaml.Plain` — plain scalars are read word by word

A plain scalar on one line ends with the line. The blanks between its words belong to it, and those
at its end do not.

## Contents
- **Words.** `exists_word`: a text is a word, spaces and a further text.
- **Lines.** `IsPlainLine`: what a plain scalar may hold.
- **Gaps.** What `skipGap` passes over.
- **Scalars.** `run_plainText`, word by word, and `content_plain`.
-/

namespace Reckoner.Yaml

/-! ## Words -/

theorem mem_spaces {n : Nat} {c : Char} (h : c ∈ spaces n) : c = ' ' := List.eq_of_mem_replicate h

@[simp] theorem length_spaces (n : Nat) : (spaces n).length = n := List.length_replicate

/-- A text is a word, spaces behind it, and a text that begins with another word. -/
theorem exists_word (cs : List Char) :
    ∃ word n more, cs = word ++ (spaces n ++ more) ∧ (∀ c ∈ word, c ≠ ' ') ∧
      (∀ c ∈ more.head?, c ≠ ' ') ∧ (n = 0 → more = []) := by
  induction cs with
  | nil => exact ⟨[], 0, [], rfl, nofun, nofun, fun _ => rfl⟩
  | cons c cs ih =>
      obtain ⟨word, n, more, rfl, hword, hmore, hn⟩ := ih
      by_cases hc : c = ' '
      · subst hc
        cases word with
        | nil => exact ⟨[], n + 1, more, rfl, nofun, hmore, nofun⟩
        | cons d word =>
            refine ⟨[], 1, d :: word ++ (spaces n ++ more), rfl, nofun, ?_, nofun⟩
            intro c hc
            obtain rfl := Option.some.inj hc
            exact hword _ List.mem_cons_self
      · exact ⟨c :: word, n, more, rfl, List.forall_mem_cons.mpr ⟨hc, hword⟩, hmore, hn⟩

/-- A text without the spaces at its end. -/
def heard (cs : List Char) : List Char := cs.rdropWhile (· == ' ')

theorem heard_word {word more : List Char} {n : Nat} (hword : ∀ c ∈ word, c ≠ ' ')
    (hmore : ∀ c ∈ more.head?, c ≠ ' ') :
    heard (word ++ (spaces n ++ more)) =
      if more = [] then word else word ++ (spaces n ++ heard more) := by
  have hspaces : (spaces n).reverse.dropWhile (· == ' ') = [] :=
    List.dropWhile_eq_nil_iff.mpr fun c hc => by simp [mem_spaces (List.mem_reverse.mp hc)]
  have hkept : word.reverse.dropWhile (· == ' ') = word.reverse := by
    rw [List.dropWhile_eq_self_iff]
    intro hlength
    simpa using hword _ (List.mem_reverse.mp (List.getElem_mem hlength))
  unfold heard List.rdropWhile
  split
  · rename_i hnil
    rw [hnil, List.append_nil, List.reverse_append, List.dropWhile_append, hspaces]
    simp [hkept]
  · rename_i hne
    obtain ⟨c, tail, rfl⟩ := List.exists_cons_of_ne_nil hne
    have hc : c ≠ ' ' := hmore c rfl
    have hrest : ((c :: tail).reverse.dropWhile (· == ' ')).isEmpty = false := by
      rw [List.isEmpty_eq_false_iff, ne_eq, List.dropWhile_eq_nil_iff]
      exact fun hall => hc (beq_iff_eq.mp (hall c (List.mem_reverse.mpr List.mem_cons_self)))
    rw [← List.append_assoc, List.reverse_append, List.dropWhile_append, hrest]
    simp

theorem heard_ne_nil {cs : List Char} (hne : cs ≠ []) (hhead : ∀ c ∈ cs.head?, c ≠ ' ') :
    heard cs ≠ [] := by
  rw [heard, ne_eq, List.rdropWhile_eq_nil_iff]
  obtain ⟨c, tail, rfl⟩ := List.exists_cons_of_ne_nil hne
  exact fun hall => hhead c rfl (beq_iff_eq.mp (hall c List.mem_cons_self))

/-! ## Lines -/

/-- A text that a plain scalar may hold: no breaks, tabs or comments, and no colon that would end a
    key. -/
def IsPlainLine : List Char → Prop
  | [] => True
  | c :: cs => c ≠ '\n' ∧ c ≠ '\t' ∧ c ≠ '#' ∧ (c = ':' → opensBlank cs = false) ∧ IsPlainLine cs

theorem isPlainLine_append {cs ds : List Char} (h : IsPlainLine (cs ++ ds)) : IsPlainLine ds := by
  induction cs with
  | nil => exact h
  | cons c cs ih => exact ih h.2.2.2.2

theorem head_ne_comment {word more : List Char} (h : IsPlainLine (word ++ more)) :
    ∀ c ∈ word.head?, c ≠ '#' := by
  cases word with
  | nil => exact nofun
  | cons c word => exact fun d hd => Option.some.inj hd ▸ h.2.2.1

theorem begins_isPlainLine {c : Char} {cs tail : List Char} (h : IsPlainLine (c :: cs))
    (hc : c ≠ ' ') : Cursor.Begins (c :: cs ++ tail) := by
  obtain ⟨hbreak, htab, hcomment, -⟩ := h
  exact Cursor.begins_cons ⟨by simp [isSpace, hc, htab], hbreak, hcomment⟩ _

/-- A word of a line ends at the first blank. -/
theorem plainWord_line {word more tail : List Char} (hline : IsPlainLine (word ++ more))
    (hword : ∀ c ∈ word, c ≠ ' ') (htail : opensBlank (more ++ tail) = true) :
    plainWord false (word ++ (more ++ tail)) = word := by
  induction word with
  | nil =>
      rw [List.nil_append]
      cases hfront : more ++ tail with
      | nil => rfl
      | cons c cs =>
          rw [hfront] at htail
          have hblank : (isSpace c || c == '\n') = true := htail
          simp [plainWord, hblank]
  | cons c word ih =>
      obtain ⟨hbreak, htab, -, hcolon, hline⟩ := hline
      rw [List.forall_mem_cons] at hword
      -- a colon ends the text only in front of a blank, and the line has none there
      have hend : (c == ':' && endsPlain false (word ++ (more ++ tail))) = false := by
        rw [Bool.and_eq_false_imp, beq_iff_eq]
        intro hc
        have hopen : opensBlank (word ++ more) = false := hcolon hc
        cases hfront : word ++ more with
        | nil => exact absurd hopen (by rw [hfront]; decide)
        | cons d ds =>
            rw [hfront] at hopen
            rw [← List.append_assoc, hfront]
            simp only [endsPlain, Bool.false_and, Bool.or_false]
            exact hopen
      rw [List.cons_append, plainWord, ih hline hword.2]
      simp [isSpace, hword.1, htab, hbreak, hend]

/-! ## Gaps -/

section Gaps

variable {c : Cursor} {indent : Int} {breaks n m : Nat} {cs text : List Char}

theorem skipGap_begins (h : Cursor.Begins text) (c : Cursor) :
    c.skipGap indent false breaks text = some (breaks, c) := by
  cases text with
  | nil => rfl
  | cons ch cs =>
      obtain ⟨hspace, hbreak, -⟩ := h ch rfl
      simp [Cursor.skipGap, hspace, hbreak]

theorem skipGap_spaces (c : Cursor) (n : Nat) (text : List Char) :
    c.skipGap indent false breaks (spaces n ++ text) =
      (c.behindBlanks n).skipGap indent false breaks text := by
  induction n generalizing c with
  | zero => rfl
  | succ n ih =>
      have hstep : c.skipGap indent false breaks (spaces (n + 1) ++ text) =
          (c.behindBlanks 1).skipGap indent false breaks (spaces n ++ text) := by
        simp [spaces, List.replicate_succ, Cursor.skipGap, isSpace]
      rw [hstep, ih, Cursor.behindBlanks_behindBlanks, Nat.add_comm]

theorem skipGap_break (c : Cursor) (cs : List Char) :
    c.skipGap indent false breaks ('\n' :: cs) =
      c.nextLine.skipGap indent false (breaks + 1) cs := rfl

/-- The gap at the end of a line goes on to the text of the next one. -/
theorem skipGap_line (indent : Int) (hrest : c.rest = spaces n ++ '\n' :: (spaces m ++ text))
    (htext : Cursor.Begins text) :
    ∃ index line, c.skipGap indent false 0 c.rest =
      some (1, c.movedTo text index line m true) := by
  refine ⟨c.index + n + 1 + m, c.line + 1, ?_⟩
  have hdrop : c.rest.drop (n + 1 + m) = text := by
    have hfront : c.rest = (spaces n ++ '\n' :: spaces m) ++ text := by simp [hrest]
    rw [hfront]
    exact List.drop_left' (by simp; omega)
  have hlands : (((c.behindBlanks n).nextLine).behindBlanks m) =
      c.movedTo text (c.index + n + 1 + m) (c.line + 1) m true := by
    simp [Cursor.behindBlanks, Cursor.behind, Cursor.nextLine, Cursor.movedTo, List.drop_drop,
      hdrop]
  rw [hrest, skipGap_spaces, skipGap_break, skipGap_spaces, skipGap_begins htext, hlands]

/-- A gap between two words takes the spaces. -/
theorem takeWhile_spaces (h : ∀ ch ∈ text.head?, isSpace ch = false) :
    (spaces n ++ text).takeWhile isSpace = spaces n :=
  Decimal.takeWhile_of_boundary (fun ch hch => by rw [mem_spaces hch]; rfl) h

end Gaps

/-! ## Scalars -/

section Scalars

variable {c : Cursor} {indent : Int} {fuel m : Nat} {cs text known : List Char} {gap : Gap}

/-- A word is read, and what stands behind it. -/
theorem run_plainText_word (indent : Int) (gap : Gap) (known : List Char) (fuel : Nat)
    {word behind : List Char} (hrest : c.rest = word ++ behind)
    (hinside : (c.fresh && opensAnyBoundary (word ++ behind)) = false)
    (hword : plainWord false (word ++ behind) = word) (hne : word ≠ [])
    (hcomment : ∀ ch ∈ word.head?, ch ≠ '#') :
    (plainText false indent gap known (fuel + 1)).run c =
      if !opensBlank behind || behind.isEmpty then
        some (word.reverse ++ gap.text.reverse ++ known, c.behind word.length)
      else
        match (c.behind word.length).skipGap indent false 0 behind with
        | none => none
        | some (breaks, c₁) =>
          if (c₁.column : Int) < indent then
            some (word.reverse ++ gap.text.reverse ++ known, c₁)
          else
            (plainText false indent ⟨behind.takeWhile isSpace, breaks⟩
              (word.reverse ++ gap.text.reverse ++ known) fuel).run c₁ := by
  have hbehind : (c.behind word.length).rest = behind := by simp [Cursor.behind, hrest]
  have hempty : word.isEmpty = false := List.isEmpty_eq_false_iff.mpr hne
  have hremark : ((word ++ behind).head? == some '#') = false := by
    obtain ⟨ch, tail, rfl⟩ := List.exists_cons_of_ne_nil hne
    simpa using hcomment ch rfl
  rw [plainText]
  simp only [StateT.run_bind, StateT.run_get, Option.pure_def, Option.bind_eq_bind,
    Option.bind_some, hinside, hremark, hrest, hword, hempty, Bool.false_or,
    Bool.false_eq_true, if_false, Bool.not_false, hbehind, Bool.true_and]
  split
  · rfl
  · cases (c.behind word.length).skipGap indent false 0 behind with
    | none => rfl
    | some found =>
        obtain ⟨breaks, c₁⟩ := found
        dsimp only
        by_cases hout : (c₁.column : Int) < indent
        · simp [hout]
        · simp [hout]

section Words

variable {word more tail : List Char} {n : Nat}

/-- Behind the last word of a line the text ends. -/
theorem run_plainText_last (hrest : c.rest = word ++ (spaces n ++ '\n' :: (spaces m ++ text)))
    (hfresh : c.fresh = false) (hline : IsPlainLine (word ++ spaces n))
    (hword : ∀ ch ∈ word, ch ≠ ' ') (hne : word ≠ []) (htext : Cursor.Begins text)
    (hm : (m : Int) < indent) :
    ∃ index line, (plainText false indent gap known (fuel + 1)).run c =
      some (word.reverse ++ gap.text.reverse ++ known, c.movedTo text index line m true) := by
  have hblank : opensBlank (spaces n ++ '\n' :: (spaces m ++ text)) = true := by
    cases n with
    | zero => rfl
    | succ n => rfl
  have hgo : (!opensBlank (spaces n ++ '\n' :: (spaces m ++ text)) ||
      (spaces n ++ '\n' :: (spaces m ++ text)).isEmpty) = false := by
    rw [hblank]
    simp
  have hnext := Cursor.rest_behind hrest
  obtain ⟨index, line, hgap⟩ := skipGap_line indent hnext htext
  rw [hnext] at hgap
  have hout : (((c.behind word.length).movedTo text index line m true).column : Int) < indent := hm
  refine ⟨index, line, ?_⟩
  rw [run_plainText_word indent gap known fuel hrest (by rw [hfresh, Bool.false_and])
    (plainWord_line hline hword hblank) hne (head_ne_comment hline), hgo]
  simp only [Bool.false_eq_true, if_false, hgap, if_pos hout]
  rfl

/-- Behind another word the text goes on. -/
theorem run_plainText_more (hrest : c.rest = word ++ (spaces (n + 1) ++ (more ++ tail)))
    (hfresh : c.fresh = false) (hline : IsPlainLine (word ++ (spaces (n + 1) ++ more)))
    (hword : ∀ ch ∈ word, ch ≠ ' ') (hne : word ≠ []) (hbegins : Cursor.Begins (more ++ tail))
    (hcolumn : indent ≤ c.column) :
    (plainText false indent gap known (fuel + 1)).run c =
      (plainText false indent ⟨spaces (n + 1), 0⟩ (word.reverse ++ gap.text.reverse ++ known)
        fuel).run ((c.behind word.length).behindBlanks (n + 1)) := by
  have hgo : (!opensBlank (spaces (n + 1) ++ (more ++ tail)) ||
      (spaces (n + 1) ++ (more ++ tail)).isEmpty) = false := rfl
  have hinside :
      ¬ (((c.behind word.length).behindBlanks (n + 1)).column : Int) < indent := by
    simp only [Cursor.behind, Cursor.behindBlanks]
    omega
  have hends : plainWord false (word ++ (spaces (n + 1) ++ (more ++ tail))) = word := by
    rw [← List.append_assoc (spaces (n + 1))]
    exact plainWord_line hline hword rfl
  rw [run_plainText_word indent gap known fuel hrest (by rw [hfresh, Bool.false_and]) hends hne
    (head_ne_comment hline), hgo, takeWhile_spaces fun d hd => (hbegins d hd).1, skipGap_spaces,
    skipGap_begins hbegins]
  simp only [Bool.false_eq_true, if_false, if_neg hinside]

end Words

/-- A line is read without the spaces at its end, up to what stands on the next line. -/
theorem run_plainText (gap : Gap) (known : List Char) (hline : IsPlainLine cs) (hne : cs ≠ [])
    (hhead : ∀ ch ∈ cs.head?, ch ≠ ' ') (hrest : c.rest = cs ++ '\n' :: (spaces m ++ text))
    (hfresh : c.fresh = false) (hcolumn : indent ≤ c.column) (htext : Cursor.Begins text)
    (hm : (m : Int) < indent) (hfuel : cs.length < fuel) :
    ∃ index line, (plainText false indent gap known fuel).run c =
      some ((heard cs).reverse ++ (gap.text.reverse ++ known),
        c.movedTo text index line m true) := by
  induction fuel generalizing cs c gap known with
  | zero => exact absurd hfuel (Nat.not_lt_zero _)
  | succ fuel ih =>
      obtain ⟨word, n, more, rfl, hword, hmore, hn⟩ := exists_word cs
      have hwordne : word ≠ [] := by
        rintro rfl
        cases n with
        | zero => exact hne (hn rfl)
        | succ n => exact hhead ' ' rfl rfl
      rw [List.append_assoc, List.append_assoc] at hrest
      rw [heard_word hword hmore, ← List.append_assoc _ gap.text.reverse]
      -- the gap behind a word belongs to the text only if another word follows on the line
      cases more with
      | nil =>
          rw [List.append_nil] at hline
          exact run_plainText_last hrest hfresh hline hword hwordne htext hm
      | cons d more =>
          obtain ⟨n, rfl⟩ := Nat.exists_eq_succ_of_ne_zero fun h => absurd (hn h) nofun
          have hmoreline : IsPlainLine (d :: more) := by
            rw [← List.append_assoc] at hline
            exact isPlainLine_append hline
          have hnext : ((c.behind word.length).behindBlanks (n + 1)).rest =
              d :: more ++ '\n' :: (spaces m ++ text) := by
            simp [Cursor.behind, Cursor.behindBlanks, hrest]
          have hinside : indent ≤ (((c.behind word.length).behindBlanks (n + 1)).column : Int) := by
            simp only [Cursor.behind, Cursor.behindBlanks]
            omega
          obtain ⟨index, line, hrun⟩ := ih ⟨spaces (n + 1), 0⟩
            (word.reverse ++ gap.text.reverse ++ known) hmoreline (List.cons_ne_nil _ _) hmore hnext
            rfl hinside (by
              have hword := List.length_pos_iff.mpr hwordne
              simp only [List.length_append, List.length_cons] at hfuel ⊢
              omega)
          refine ⟨index, line, ?_⟩
          rw [run_plainText_more hrest hfresh hline hword hwordne
            (begins_isPlainLine hmoreline (hmore d rfl)) hcolumn, hrun,
            if_neg (List.cons_ne_nil _ _)]
          simp [Gap.text, spaces]
          rfl

theorem run_plain {c₁ : Cursor} (hflow : c.inFlow = false)
    (hrun : (plainText false (c.waiveColumns.indent + 1) ⟨[], 0⟩ [] (c.rest.length + 1)).run
      c.waiveColumns = some (known.reverse, c₁)) (hne : known ≠ []) :
    plain.run c = some (.scalar .plain known, if c₁.fresh then c₁.allowKey true else c₁) := by
  have hinside : c.waiveColumns.inFlow = false := hflow
  have hrest : c.waiveColumns.rest = c.rest := rfl
  rw [plain]
  simp only [StateT.run_bind, run_modify, StateT.run_get, Option.pure_def, Option.bind_eq_bind,
    Option.bind_some, hinside, hrest, Bool.false_and, Bool.not_false, run_guard trivial, hrun]
  cases c₁.fresh with
  | true => simp [hne]
  | false => simp [hne]

/-- **A plain value ends with its line.** -/
theorem content_plain {s : Nest} (hc : c.Behind (cs ++ '\n' :: (spaces m ++ text)) s)
    (hline : IsPlainLine cs) (hne : cs ≠ []) (hhead : ∀ ch ∈ cs.head?, ch ≠ ' ')
    (htext : Cursor.Begins text) (hm : (m : Int) ≤ s.indent) :
    ∃ c₁, (keyed false plain).run c = some ((), c₁) ∧ c₁.rest = text ∧
      c₁.Arrives m text (s.add [.scalar .plain (heard cs)]) := by
  have hwaive : c.waiveColumns.nest = s := hc.waiveColumns
  have hindent : c.waiveColumns.indent = s.indent := congrArg Nest.indent hwaive
  have hcolumn : c.waiveColumns.indent + 1 ≤ c.waiveColumns.column := by
    have hless : s.indent < c.waiveColumns.column := hc.column
    omega
  have hrest : c.waiveColumns.rest = cs ++ '\n' :: (spaces m ++ text) := hc.rest
  have hfuel : cs.length < c.rest.length + 1 := by
    rw [hc.rest, List.length_append]
    omega
  obtain ⟨index, line, hrun⟩ := run_plainText ⟨[], 0⟩ [] hline hne hhead hrest hc.fresh hcolumn
    htext (by omega) hfuel
  let c₁ := (c.waiveColumns.movedTo text index line m true).allowKey true
  have hplain : plain.run c = some (.scalar .plain (heard cs), c₁) := by
    have hgap :
        (heard cs).reverse ++ ((⟨[], 0⟩ : Gap).text.reverse ++ []) = (heard cs).reverse := by
      simp [Gap.text]
    rw [hgap] at hrun
    exact run_plain hc.calm.inFlow hrun (heard_ne_nil hne hhead)
  have hcalm : (c₁.push (.scalar .plain (heard cs))).Calm :=
    ((hc.calm.waiveColumns.movedTo _ _ _ _ _).allowKey true).push _
  refine ⟨c₁.push (.scalar .plain (heard cs)), ?_, rfl, ?_⟩
  · exact hc.run_keyed (by rw [hc.allowKey, hplain])
  · refine Cursor.arrives_of_skip (Cursor.skip_begins htext _) hcalm rfl rfl rfl ?_
    rw [Cursor.nest_push, Cursor.nest_allowKey, Cursor.nest_movedTo, hwaive]

end Scalars

end Reckoner.Yaml
