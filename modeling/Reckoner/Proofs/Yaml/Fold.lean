import Reckoner.Proofs.Yaml.Block

/-!
# `Reckoner.Proofs.Yaml.Fold` — long lines that are folded

A long text is broken at blanks, and each break takes one blank away. Folding puts a space in its
place: the text is found again if every blank taken was a space, and none was its last character.

## Contents
- **Breaks.** `Breaks`: lines that a text is broken into, and `foldLines_breaks`.
- **Lines.** What the lines begin with, and how long they are together.
- **Folding.** `blockText_folded`: the text that is heard, and when it is the text that was broken.
-/

namespace Reckoner.Yaml

/-! ## Breaks -/

/-- A text is broken into lines: a break takes the last blank of a run away. -/
inductive Breaks : List Char → List (List Char) → Prop where
  | whole (cs : List Char) : Breaks cs [cs]
  | cut {line rest : List Char} {lines : List (List Char)} {b : Char} : Text.isBlank b = true →
      (∀ ch ∈ rest.head?, Text.isBlank ch = false) → Breaks rest lines →
      Breaks (line ++ b :: rest) (line :: lines)

/-- A line that is partly read: its last word holds no blank, and a blank stands in front of it. -/
structure Folding.WellFormed (f : Folding) : Prop where
  word : ∀ ch ∈ f.open_, Text.isBlank ch = false
  blank : ∀ line ∈ f.broken, ∃ b before, line = b :: before ∧ Text.isBlank b = true

/-- The text of the line that is not complete. -/
def Folding.pending (f : Folding) : List Char := (f.open_ ++ f.broken.getD []).reverse

section Add

variable {f : Folding} {c : Char} {line more : List Char}

theorem Folding.add_blank (h : Text.isBlank c = true) (hfits : ¬ lineWidth < f.count + 1) :
    f.add c more = ⟨f.done, some (c :: f.open_ ++ f.broken.getD []), [], f.count + 1⟩ := by
  unfold Folding.add
  simp [h, hfits]

/-- A line that is full takes the whole run of blanks. -/
theorem Folding.add_blank_wide (h : Text.isBlank c = true) (hwide : lineWidth < f.count + 1) :
    f.add c more = ⟨(((more.takeWhile Text.isBlank).reverse ++
      (c :: f.open_ ++ f.broken.getD [])).drop 1).reverse :: f.done, none, [], 0⟩ := by
  unfold Folding.add
  simp [h, hwide]

theorem Folding.add_first (h : Text.isBlank c = false) (hbroken : f.broken = none) :
    f.add c more = ⟨f.done, none, c :: f.open_, f.count + 1⟩ := by
  unfold Folding.add
  simp [h, hbroken]

theorem Folding.add_text (h : Text.isBlank c = false) (hbroken : f.broken = some line)
    (hfits : ¬ lineWidth < f.count + 1) :
    f.add c more = ⟨f.done, some line, c :: f.open_, f.count + 1⟩ := by
  unfold Folding.add
  simp [h, hbroken, hfits]

/-- A line that is full ends at the blank in front of its last word. -/
theorem Folding.add_text_wide (h : Text.isBlank c = false) (hbroken : f.broken = some line)
    (hwide : lineWidth < f.count + 1) :
    f.add c more = ⟨(line.drop 1).reverse :: f.done, none, c :: f.open_, 0⟩ := by
  unfold Folding.add
  simp [h, hbroken, hwide]

/-- A run of blanks ends with a blank. -/
theorem exists_last_blank (h : Text.isBlank c = true) (before more : List Char) :
    ∃ b rest, (more.takeWhile Text.isBlank).reverse ++ (c :: before) = b :: rest ∧
      Text.isBlank b = true := by
  cases hrun : (more.takeWhile Text.isBlank).reverse with
  | nil => exact ⟨c, _, rfl, h⟩
  | cons b rest =>
      have hmem : b ∈ more.takeWhile Text.isBlank := by
        rw [← List.mem_reverse, hrun]
        exact List.mem_cons_self
      exact ⟨b, _, rfl, List.mem_takeWhile_imp hmem⟩

end Add

/-- One more character either goes on with the line, or completes it: at the run of blanks that
    begins with it, or at the last blank before it. -/
theorem Folding.add_cases {f : Folding} (h : f.WellFormed) (c : Char) (more : List Char) :
    let next := f.add c more
    next.WellFormed ∧
      ((next.done = f.done ∧ next.pending = f.pending ++ [c] ∧
          (Text.isBlank c = true → next.broken.isNone = false)) ∨
        ∃ line b, next.done = line :: f.done ∧ Text.isBlank b = true ∧ next.broken = none ∧
          ((Text.isBlank c = true ∧ next.pending = [] ∧
              f.pending ++ c :: more.takeWhile Text.isBlank = line ++ [b]) ∨
            (Text.isBlank c = false ∧ f.pending ++ [c] = line ++ b :: next.pending ∧
              next.pending ≠ []))) := by
  intro next
  cases hblank : Text.isBlank c with
  | true =>
      by_cases hwide : lineWidth < f.count + 1
      · -- the whole run goes to the end of the line
        have hnext : next = _ := Folding.add_blank_wide hblank hwide
        obtain ⟨b, before, hrun, hb⟩ := exists_last_blank hblank (f.open_ ++ f.broken.getD []) more
        have hline : f.pending ++ c :: more.takeWhile Text.isBlank = before.reverse ++ [b] := by
          rw [← List.reverse_cons, ← hrun]
          simp [Folding.pending]
        rw [List.cons_append, hrun] at hnext
        rw [hnext]
        exact ⟨⟨nofun, nofun⟩, .inr ⟨_, b, rfl, hb, rfl, .inl ⟨rfl, rfl, hline⟩⟩⟩
      · have hnext : next = _ := Folding.add_blank hblank hwide
        rw [hnext]
        refine ⟨⟨nofun, fun line hline => ?_⟩, .inl ⟨rfl, ?_, fun _ => rfl⟩⟩
        · exact ⟨c, _, (Option.some.inj hline).symm, hblank⟩
        · simp [Folding.pending]
  | false =>
      have hword : ∀ ch ∈ c :: f.open_, Text.isBlank ch = false :=
        List.forall_mem_cons.mpr ⟨hblank, h.word⟩
      cases hbroken : f.broken with
      | none =>
          have hnext : next = _ := Folding.add_first hblank hbroken
          rw [hnext]
          refine ⟨⟨hword, nofun⟩, .inl ⟨rfl, ?_, nofun⟩⟩
          simp [Folding.pending, hbroken]
      | some line =>
          by_cases hwide : lineWidth < f.count + 1
          · -- the line ends at the blank in front of the last word
            have hnext : next = _ := Folding.add_text_wide hblank hbroken hwide
            obtain ⟨b, before, rfl, hb⟩ := h.blank line hbroken
            rw [hnext]
            refine ⟨⟨hword, nofun⟩, .inr ⟨_, b, rfl, hb, rfl, .inr ⟨rfl, ?_, ?_⟩⟩⟩
            · simp [Folding.pending, hbroken]
            · simp [Folding.pending]
          · have hnext : next = _ := Folding.add_text hblank hbroken hwide
            rw [hnext]
            refine ⟨⟨hword, fun l hl => h.blank l (hbroken.trans hl)⟩, .inl ⟨rfl, ?_, nofun⟩⟩
            simp [Folding.pending, hbroken]

theorem foldFrom_nil (f : Folding) : foldFrom f [] = (f.pending :: f.done).reverse := by
  rw [foldFrom.eq_def]
  rfl

theorem foldFrom_cons (f : Folding) (c : Char) (more : List Char) :
    foldFrom f (c :: more) =
      if (Text.isBlank c && (f.add c more).broken.isNone) = true then
        foldFrom (f.add c more) (more.dropWhile Text.isBlank)
      else foldFrom (f.add c more) more := by
  rw [foldFrom.eq_def]

/-- What follows a line that ended in front of a word begins with that word. -/
theorem Folding.WellFormed.not_isBlank_head? {f : Folding} (h : f.WellFormed)
    (hnone : f.broken = none) (hne : f.pending ≠ []) (more : List Char) :
    ∀ ch ∈ (f.pending ++ more).head?, Text.isBlank ch = false := by
  have hword : f.pending = f.open_.reverse := by
    rw [Folding.pending, hnone, Option.getD_none, List.append_nil]
  obtain ⟨d, tail, hpending⟩ := List.exists_cons_of_ne_nil hne
  intro ch hch
  rw [hpending] at hch hword
  obtain rfl := Option.some.inj hch
  refine h.word d (List.mem_reverse.mp ?_)
  rw [← hword]
  exact List.mem_cons_self

/-- The lines that are complete stay, and the text that is pending is broken with what follows. -/
def Folding.BreaksInto (f : Folding) (cs : List Char) (lines : List (List Char)) : Prop :=
  ∃ further, lines = f.done.reverse ++ further ∧ Breaks (f.pending ++ cs) further

section BreaksInto

variable {f next : Folding} {b c : Char} {cs line more rest : List Char} {lines : List (List Char)}

/-- The line goes on with one more character. -/
theorem Folding.BreaksInto.extend (h : next.BreaksInto more lines) (hdone : next.done = f.done)
    (hpending : next.pending = f.pending ++ [c]) : f.BreaksInto (c :: more) lines := by
  obtain ⟨further, hlines, hbreaks⟩ := h
  rw [hpending, List.append_assoc] at hbreaks
  exact ⟨further, by rw [hlines, hdone], hbreaks⟩

/-- The line is complete, and the blank behind it is taken away. -/
theorem Folding.BreaksInto.complete (h : next.BreaksInto rest lines)
    (hdone : next.done = line :: f.done) (hb : Text.isBlank b = true)
    (htext : f.pending ++ cs = line ++ b :: (next.pending ++ rest))
    (hrest : ∀ ch ∈ (next.pending ++ rest).head?, Text.isBlank ch = false) :
    f.BreaksInto cs lines := by
  obtain ⟨further, hlines, hbreaks⟩ := h
  refine ⟨line :: further, ?_, htext ▸ .cut hb hrest hbreaks⟩
  rw [hlines, hdone, List.reverse_cons, List.append_assoc, List.singleton_append]

end BreaksInto

theorem foldFrom_breaks (cs : List Char) (f : Folding) (h : f.WellFormed) :
    f.BreaksInto cs (foldFrom f cs) := by
  induction f, cs using foldFrom.induct with
  | case1 f =>
      refine ⟨[f.pending], by rw [foldFrom_nil, List.reverse_cons], ?_⟩
      rw [List.append_nil]
      exact .whole _
  | case2 f c more next hbreak ih =>
      -- the line ends at the run of blanks that begins with `c`
      rw [foldFrom_cons, if_pos hbreak]
      rw [Bool.and_eq_true] at hbreak
      obtain ⟨hwell, ⟨-, -, hgo⟩ | ⟨line, b, hdone, hb, -, ⟨-, hpending, hline⟩ | ⟨hc, -⟩⟩⟩ :=
        Folding.add_cases h c more
      · exact absurd (hgo hbreak.1) (by rw [hbreak.2]; decide)
      · refine (ih hwell).complete hdone hb ?_ ?_
        · rw [hpending, List.nil_append, List.append_cons line, ← hline, List.append_assoc,
            List.cons_append, List.takeWhile_append_dropWhile]
        · rw [hpending, List.nil_append]
          exact Text.not_isBlank_head?_dropWhile more
      · exact absurd hbreak.1 (by simp [hc])
  | case3 f c more next hgo ih =>
      rw [foldFrom_cons, if_neg hgo]
      obtain ⟨hwell, hstep⟩ := Folding.add_cases h c more
      obtain ⟨hdone, hpending, -⟩ | ⟨line, b, hdone, hb, hnone, ⟨hc, -⟩ | ⟨-, hline, hne⟩⟩ := hstep
      · exact (ih hwell).extend hdone hpending
      · exact absurd (by rw [hc, hnone]; rfl) hgo
      · -- the line ends in front of its last word, which the next line begins with
        refine (ih hwell).complete hdone hb ?_ (hwell.not_isBlank_head? hnone hne more)
        rw [List.append_cons, hline]
        simp [next]

/-- **A long text is broken into its lines.** -/
theorem foldLines_breaks (cs : List Char) : Breaks cs (foldLines cs) := by
  obtain ⟨lines, hlines, hbreaks⟩ := foldFrom_breaks cs {} ⟨nofun, nofun⟩
  rw [foldLines, hlines]
  exact hbreaks

/-! ## Lines -/

section Lines

variable {cs first line : List Char} {lines more : List (List Char)}

/-- The line begins with text. -/
def BeginsText (line : List Char) : Prop :=
  ∃ ch tail, line = ch :: tail ∧ Text.isBlank ch = false

theorem intercalate_space (first : List Char) (more : List (List Char)) :
    [' '].intercalate (first :: more) = first ++ more.flatMap (' ' :: ·) := by
  induction more generalizing first with
  | nil => simp [List.intercalate]
  | cons line more ih =>
      rw [Text.intercalate_cons_cons, ih]
      rfl

/-- Each break leaves a space for the blank that it takes. -/
theorem Breaks.length_eq (h : Breaks cs lines) : ([' '].intercalate lines).length = cs.length := by
  induction h with
  | whole cs => simp [List.intercalate]
  | @cut line rest lines b hb hrest hbreaks ih =>
      cases lines with
      | nil => exact absurd hbreaks nofun
      | cons first more =>
          rw [intercalate_space] at ih ⊢
          rw [List.flatMap_cons]
          simp only [List.length_append, List.length_cons] at ih ⊢
          omega

theorem Breaks.subset (h : Breaks cs lines) : ∀ line ∈ lines, ∀ ch ∈ line, ch ∈ cs := by
  induction h with
  | whole cs =>
      intro line hline ch hch
      rwa [List.mem_singleton.mp hline] at hch
  | cut _ _ _ ih =>
      intro line hline ch hch
      rcases List.mem_cons.mp hline with rfl | hline
      · exact List.mem_append_left _ hch
      · exact List.mem_append_right _ (List.mem_cons_of_mem _ (ih line hline ch hch))

/-- The first line begins like the text, unless the text begins with a break. -/
theorem Breaks.first_line (h : Breaks cs lines) (hcs : ∀ ch ∈ cs.head?, Text.isBlank ch = false) :
    (cs = [] ∧ lines = [[]]) ∨ ∃ first more, lines = first :: more ∧ BeginsText first := by
  cases h with
  | whole =>
      cases cs with
      | nil => exact .inl ⟨rfl, rfl⟩
      | cons ch tail => exact .inr ⟨_, _, rfl, ch, tail, rfl, hcs ch rfl⟩
  | @cut line rest lines b hb hrest hbreaks =>
      cases line with
      | nil => exact absurd (hcs b rfl) (by simp [hb])
      | cons ch tail => exact .inr ⟨_, _, rfl, ch, tail, rfl, hcs ch rfl⟩

/-- Behind the first line all lines begin with text, up to an empty line at the end. -/
theorem Breaks.further_lines (h : Breaks cs (first :: more)) :
    ∃ texts n, (∀ line ∈ texts, BeginsText line) ∧ n ≤ 1 ∧ more = texts ++ List.replicate n [] := by
  generalize hlines : first :: more = lines at h
  induction h generalizing first more with
  | whole cs =>
      obtain ⟨-, rfl⟩ := List.cons.inj hlines
      exact ⟨[], 0, nofun, Nat.zero_le 1, rfl⟩
  | cut hb hrest hbreaks ih =>
      obtain ⟨rfl, rfl⟩ := List.cons.inj hlines
      rcases hbreaks.first_line hrest with ⟨-, rfl⟩ | ⟨second, others, rfl, hsecond⟩
      · exact ⟨[], 1, nofun, Nat.le_refl 1, rfl⟩
      · obtain ⟨texts, n, htexts, hn, rfl⟩ := ih rfl
        exact ⟨second :: texts, n, List.forall_mem_cons.mpr ⟨hsecond, htexts⟩, hn, rfl⟩

theorem BeginsText.ne_nil (h : BeginsText line) : line ≠ [] := by
  obtain ⟨ch, tail, rfl, -⟩ := h
  exact List.cons_ne_nil ch tail

theorem BeginsText.ne_space (h : BeginsText line) :
    ∃ ch tail, line = ch :: tail ∧ isSpace ch = false := by
  obtain ⟨ch, tail, rfl, hch⟩ := h
  refine ⟨ch, tail, rfl, ?_⟩
  rw [isSpace, Bool.or_eq_false_iff, beq_eq_false_iff_ne, beq_eq_false_iff_ne]
  constructor <;> rintro rfl <;> exact absurd hch (by decide)

/-- The lines of a folded block begin with text. -/
theorem Breaks.opensBlock (h : Breaks cs lines) (hcs : ∀ ch ∈ cs.head?, ch ≠ ' ')
    (hlength : 2 ≤ cs.length) : OpensBlock lines := by
  cases h with
  | whole =>
      cases cs with
      | nil => exact absurd hlength (by decide)
      | cons ch tail => exact ⟨0, ch, tail, [], rfl, hcs ch rfl⟩
  | @cut line rest lines b hb hrest hbreaks =>
      cases line with
      | cons ch tail => exact ⟨0, ch, tail, lines, rfl, hcs ch rfl⟩
      | nil =>
          rcases hbreaks.first_line hrest with ⟨rfl, -⟩ | ⟨second, others, rfl, hsecond⟩
          · exact absurd hlength (by simp)
          · obtain ⟨ch, tail, rfl, hch⟩ := hsecond.ne_space
            refine ⟨1, ch, tail, others, rfl, ?_⟩
            rintro rfl
            exact absurd hch (by decide)

end Lines

/-! ## Folding -/

section Folding

variable {cs line first : List Char} {lines texts : List (List Char)}

/-- Empty lines at the end add nothing. -/
theorem joinLines_append_empties (folded : Bool) (previous : List Char) (empties : Nat)
    (lines : List (List Char)) (n : Nat) :
    joinLines folded previous empties (lines ++ List.replicate n []) =
      joinLines folded previous empties lines := by
  induction lines generalizing previous empties with
  | nil =>
      induction n generalizing empties with
      | zero => rfl
      | succ n ih => exact ih (empties + 1)
  | cons line lines ih =>
      rw [List.cons_append, joinLines, joinLines]
      split
      · exact ih _ _
      · rw [ih]

theorem joinLines_texts (hfirst : isSpaced first = false) (h : ∀ line ∈ texts, BeginsText line) :
    joinLines true first 0 texts = texts.flatMap (' ' :: ·) := by
  induction texts generalizing first with
  | nil => rfl
  | cons line texts ih =>
      rw [List.forall_mem_cons] at h
      obtain ⟨ch, tail, rfl, hch⟩ := h.1.ne_space
      have hline : isSpaced (ch :: tail) = false := hch
      rw [joinLines, ih hline h.2]
      simp [hfirst, hline, foldedBreaks]

/-- What is heard of lines of which the first one begins with text. -/
theorem blockText_texts (hfirst : isSpaced first = false) (hne : first ≠ [])
    (h : ∀ line ∈ texts, BeginsText line) (n : Nat) :
    blockText true .strip .below (first :: (texts ++ List.replicate n [])) =
      first ++ texts.flatMap (' ' :: ·) := by
  have hempties : ((first :: (texts ++ List.replicate n [])).takeWhile (·.isEmpty)) = [] :=
    List.takeWhile_cons_of_neg (by simpa using hne)
  rw [blockText, hempties]
  simp only [List.length_nil, List.drop_zero, joinLines_append_empties, joinLines_texts hfirst h,
    breaksBehindText, List.replicate_zero, List.nil_append, List.append_nil]

/-- What is heard of lines of which the first one is empty begins with a line feed, if there is
    anything to be heard. -/
theorem blockText_nil (h : ∀ line ∈ texts, BeginsText line) (n : Nat) :
    let heard := blockText true .strip .below ([] :: (texts ++ List.replicate n []))
    heard = [] ∨ '\n' ∈ heard := by
  intro heard
  cases texts with
  | nil =>
      refine .inl ?_
      have hempties : ([] :: List.replicate n ([] : List Char)).takeWhile (·.isEmpty) =
          List.replicate (n + 1) [] := by
        rw [← List.replicate_succ]
        exact List.takeWhile_eq_self_iff.mpr fun line hline => by
          rw [List.eq_of_mem_replicate hline]
          rfl
      simp [heard, blockText, hempties, breaksWithoutText]
  | cons line texts =>
      obtain ⟨ch, tail, rfl, -⟩ := h line List.mem_cons_self
      refine .inr ?_
      simp [heard, blockText]

theorem Breaks.head_eq {ch : Char} {tail : List Char} (h : Breaks cs ((ch :: tail) :: lines)) :
    cs.head? = some ch := by
  generalize hlines : (ch :: tail) :: lines = all at h
  cases h with
  | whole =>
      obtain ⟨rfl, -⟩ := List.cons.inj hlines
      rfl
  | cut =>
      obtain ⟨rfl, -⟩ := List.cons.inj hlines
      rfl

/-- A text that begins with a break is not heard as it is. -/
theorem blockText_ne_of_nil (h : ∀ line ∈ texts, BeginsText line) (n : Nat) (hne : cs ≠ [])
    (hbreak : '\n' ∉ cs) :
    blockText true .strip .below ([] :: (texts ++ List.replicate n [])) ≠ cs := by
  intro heq
  rcases blockText_nil h n with hnil | hmem
  · exact absurd (heq.symm.trans hnil) hne
  · exact absurd (heq ▸ hmem) hbreak

/-- A text that begins with a break is not made up by spaces in the place of its breaks. -/
theorem intercalate_ne_of_nil (hne : cs ≠ []) (hcs : ∀ ch ∈ cs.head?, isSpace ch = false) :
    [' '].intercalate ([] :: lines) ≠ cs := by
  intro heq
  rw [intercalate_space, List.nil_append] at heq
  cases lines with
  | nil => exact absurd heq.symm hne
  | cons line lines =>
      rw [List.flatMap_cons] at heq
      exact absurd (hcs ' ' (by rw [← heq]; rfl)) (by decide)

/-- The blank at the end of a text is not heard. -/
theorem texts_ne_of_trailing (h : Breaks cs (first :: (texts ++ [[]]))) :
    first ++ texts.flatMap (' ' :: ·) ≠ cs := by
  have hlength := h.length_eq
  rw [intercalate_space, List.flatMap_append] at hlength
  intro heq
  rw [← heq] at hlength
  simp at hlength

/-- **Folding.** A folded text is heard as it is exactly if spaces in the place of its breaks make
    it up, and none of them is its end. -/
theorem blockText_folded (h : Breaks cs lines) (hne : cs ≠ [])
    (hcs : ∀ ch ∈ cs.head?, isSpace ch = false) (hbreak : '\n' ∉ cs) :
    blockText true .strip .below lines = cs ↔
      [' '].intercalate lines = cs ∧ lines.getLast? ≠ some [] := by
  cases lines with
  | nil => exact absurd h nofun
  | cons first more =>
      obtain ⟨texts, n, htexts, hn, rfl⟩ := h.further_lines
      cases first with
      | nil =>
          exact iff_of_false (blockText_ne_of_nil htexts n hne hbreak)
            fun hspaces => intercalate_ne_of_nil hne hcs hspaces.1
      | cons ch tail =>
          have hfirst : isSpaced (ch :: tail) = false := hcs ch h.head_eq
          rw [blockText_texts hfirst (List.cons_ne_nil _ _) htexts n]
          -- the last line holds text, or the text ends with a break
          obtain rfl | rfl : n = 0 ∨ n = 1 := by omega
          · have hall : ∀ line ∈ (ch :: tail) :: texts, line ≠ [] :=
              List.forall_mem_cons.mpr ⟨nofun, fun line hline => (htexts line hline).ne_nil⟩
            have hlast : ((ch :: tail) :: texts).getLast? ≠ some [] := fun hlast =>
              hall [] (List.mem_of_getLast? hlast) rfl
            rw [List.replicate_zero, List.append_nil, intercalate_space]
            exact (and_iff_left hlast).symm
          · refine iff_of_false (texts_ne_of_trailing h) fun hspaces => hspaces.2 ?_
            rw [← List.cons_append, List.replicate_one, List.getLast?_concat]

end Folding

end Reckoner.Yaml
