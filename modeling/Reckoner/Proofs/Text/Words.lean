import Reckoner.Text.Blank
import Reckoner.Text.Words

/-!
# `Reckoner.Proofs.Text.Words` — what is cut at separators

A separator anywhere cuts the words of a text in two, so words depend neither on separators at the
ends nor on how many of them stand together.

## Contents
- **Cutting.** `words` of texts that are joined at a separator, and of runs without one.
- **Words.** What stands in a word.
- **Joining.** Words that are written with a separator between them are cut out again.
- **Trimming.** `trimChars` takes blanks away at both ends, and nothing else.
-/

namespace Reckoner.Text

variable {isSeparator : Char → Bool} {s : Char} {cs ds run : List Char}

/-! ## Cutting -/

theorem splitOn_append_sep (hs : isSeparator s = true) (cs ds : List Char) :
    splitOn isSeparator (cs ++ s :: ds) = splitOn isSeparator cs ++ splitOn isSeparator ds := by
  induction cs with
  | nil => exact splitOn_cons_sep hs ds
  | cons c cs ih =>
      rw [List.cons_append, splitOn, splitOn, ih]
      split
      · rfl
      · cases hpieces : splitOn isSeparator cs with
        | nil => exact absurd hpieces (splitOn_ne_nil isSeparator cs)
        | cons piece pieces => rfl

/-- **A separator cuts the words in two.** -/
theorem words_append_sep (hs : isSeparator s = true) (cs ds : List Char) :
    words isSeparator (cs ++ s :: ds) = words isSeparator cs ++ words isSeparator ds := by
  rw [words, splitOn_append_sep hs, List.filter_append]
  rfl

theorem splitOn_of_run (hrun : ∀ c ∈ run, isSeparator c = false) :
    splitOn isSeparator run = [run] := by
  induction run with
  | nil => rfl
  | cons c cs ih =>
      rw [List.forall_mem_cons] at hrun
      rw [splitOn, if_neg (by simp [hrun.1]), ih hrun.2]

/-- A run without separators is one word. -/
theorem words_of_run (hrun : ∀ c ∈ run, isSeparator c = false) (hne : run ≠ []) :
    words isSeparator run = [run] := by
  rw [words, splitOn_of_run hrun]
  simp [hne]

@[simp] theorem words_nil : words isSeparator [] = [] := rfl

/-- Separators in front change nothing. -/
theorem words_append_of_seps (hs : ∀ c ∈ cs, isSeparator c = true) :
    words isSeparator (cs ++ ds) = words isSeparator ds := by
  induction cs with
  | nil => rfl
  | cons c cs ih =>
      rw [List.forall_mem_cons] at hs
      rw [List.cons_append, words_cons_sep hs.1, ih hs.2]

/-- Separators behind change nothing. -/
theorem words_append_seps (hs : ∀ c ∈ ds, isSeparator c = true) :
    words isSeparator (cs ++ ds) = words isSeparator cs := by
  cases ds with
  | nil => rw [List.append_nil]
  | cons d ds =>
      rw [List.forall_mem_cons] at hs
      have hrest : words isSeparator (ds ++ []) = [] := words_append_of_seps hs.2
      rw [List.append_nil] at hrest
      rw [words_append_sep hs.1, hrest, List.append_nil]

/-- **Separators between two texts** keep their words apart, however many they are. -/
theorem words_append_gap (hne : run ≠ []) (hs : ∀ c ∈ run, isSeparator c = true)
    (cs ds : List Char) :
    words isSeparator (cs ++ run ++ ds) = words isSeparator cs ++ words isSeparator ds := by
  cases run with
  | nil => exact absurd rfl hne
  | cons s run =>
      rw [List.forall_mem_cons] at hs
      rw [List.append_assoc, List.cons_append, words_append_sep hs.1, words_append_of_seps hs.2]

/-- Only the separators that occur count. -/
theorem words_congr {p q : Char → Bool} (h : ∀ c ∈ cs, p c = q c) : words p cs = words q cs := by
  have hpieces : splitOn p cs = splitOn q cs := by
    induction cs with
    | nil => rfl
    | cons c cs ih =>
        rw [List.forall_mem_cons] at h
        rw [splitOn, splitOn, h.1, ih h.2]
  rw [words, words, hpieces]

/-! ## Words -/

/-- A piece holds characters of the text, none of them a separator. -/
theorem mem_of_mem_splitOn {piece : List Char} (h : piece ∈ splitOn isSeparator cs) :
    ∀ c ∈ piece, c ∈ cs ∧ isSeparator c = false := by
  induction cs generalizing piece with
  | nil =>
      obtain rfl := List.mem_singleton.mp h
      simp
  | cons d cs ih =>
      have hstep : ∀ {p : List Char}, p ∈ splitOn isSeparator cs →
          ∀ c ∈ p, c ∈ d :: cs ∧ isSeparator c = false :=
        fun hp c hc => ⟨List.mem_cons_of_mem d (ih hp c hc).1, (ih hp c hc).2⟩
      rw [splitOn] at h
      split at h
      · rcases List.mem_cons.mp h with rfl | hmem
        · simp
        · exact hstep hmem
      · rename_i hd
        cases hpieces : splitOn isSeparator cs with
        | nil => exact absurd hpieces (splitOn_ne_nil isSeparator cs)
        | cons first pieces =>
            rw [hpieces] at h hstep
            rcases List.mem_cons.mp h with rfl | hmem
            · rw [List.forall_mem_cons]
              exact ⟨⟨List.mem_cons_self, by simpa using hd⟩, hstep List.mem_cons_self⟩
            · exact hstep (List.mem_cons_of_mem first hmem)

/-- **A word** is not empty and holds characters of the text, none of them a separator. -/
theorem mem_words {word : List Char} (h : word ∈ words isSeparator cs) :
    word ≠ [] ∧ ∀ c ∈ word, c ∈ cs ∧ isSeparator c = false := by
  obtain ⟨hmem, hne⟩ := List.mem_filter.mp h
  exact ⟨by simpa using hne, mem_of_mem_splitOn hmem⟩

/-! ## Joining -/

theorem intercalate_cons_cons (s : Char) (p q : List Char) (rest : List (List Char)) :
    [s].intercalate (p :: q :: rest) = p ++ s :: [s].intercalate (q :: rest) := by
  simp [List.intercalate]

theorem intercalate_singleton (s : Char) (p : List Char) : [s].intercalate [p] = p := by
  simp [List.intercalate]

/-- **Words with a separator between them** are cut out again. -/
theorem words_intercalate (hs : isSeparator s = true) {pieces : List (List Char)}
    (hpieces : ∀ p ∈ pieces, p ≠ [] ∧ ∀ c ∈ p, isSeparator c = false) :
    words isSeparator ([s].intercalate pieces) = pieces := by
  induction pieces with
  | nil => rfl
  | cons p rest ih =>
      rw [List.forall_mem_cons] at hpieces
      have hp : words isSeparator p = [p] := words_of_run hpieces.1.2 hpieces.1.1
      cases rest with
      | nil => rw [intercalate_singleton, hp]
      | cons q rest =>
          rw [intercalate_cons_cons, words_append_sep hs, hp, ih hpieces.2, List.singleton_append]

/-- **What is joined** are the characters of the pieces and the separator. -/
theorem mem_intercalate {pieces : List (List Char)} {c : Char} (h : c ∈ [s].intercalate pieces) :
    c = s ∨ ∃ p ∈ pieces, c ∈ p := by
  induction pieces with
  | nil => exact absurd h (by simp [List.intercalate])
  | cons p rest ih =>
      cases rest with
      | nil =>
          rw [intercalate_singleton] at h
          exact .inr ⟨p, List.mem_cons_self, h⟩
      | cons q rest =>
          rw [intercalate_cons_cons, List.mem_append, List.mem_cons] at h
          rcases h with hp | rfl | hrest
          · exact .inr ⟨p, List.mem_cons_self, hp⟩
          · exact .inl rfl
          · obtain heq | ⟨r, hr, hc⟩ := ih hrest
            · exact .inl heq
            · exact .inr ⟨r, List.mem_cons_of_mem p hr, hc⟩

/-- Joining keeps the pieces. -/
theorem subset_intercalate {pieces : List (List Char)} {p : List Char} (h : p ∈ pieces) :
    p ⊆ [s].intercalate pieces := by
  induction pieces with
  | nil => exact absurd h (by simp)
  | cons q rest ih =>
      intro c hc
      cases rest with
      | nil =>
          obtain rfl := List.mem_singleton.mp h
          rwa [intercalate_singleton]
      | cons r rest =>
          rw [intercalate_cons_cons, List.mem_append, List.mem_cons]
          rcases List.mem_cons.mp h with rfl | hmem
          · exact .inl hc
          · exact .inr (.inr (ih hmem hc))

/-! ## Trimming -/

/-- A text is its trimmed form between blanks. -/
theorem exists_blanks (cs : List Char) :
    ∃ front back, cs = front ++ trimChars cs ++ back ∧ (∀ c ∈ front, isBlank c = true) ∧
      ∀ c ∈ back, isBlank c = true := by
  refine ⟨cs.takeWhile isBlank, ((cs.dropWhile isBlank).reverse.takeWhile isBlank).reverse, ?_,
    fun c hc => ?_, fun c hc => ?_⟩
  · have hback : trimChars cs ++ ((cs.dropWhile isBlank).reverse.takeWhile isBlank).reverse =
        cs.dropWhile isBlank := by
      rw [trimChars, ← List.reverse_append, List.takeWhile_append_dropWhile, List.reverse_reverse]
    rw [List.append_assoc, hback, List.takeWhile_append_dropWhile]
  · exact List.all_eq_true.mp List.all_takeWhile c hc
  · exact List.all_eq_true.mp List.all_takeWhile c (List.mem_reverse.mp hc)

/-- A text without blanks at its ends is trimmed. -/
theorem trimChars_of_ends (hfront : ∀ c ∈ cs.head?, isBlank c = false)
    (hback : ∀ c ∈ cs.getLast?, isBlank c = false) : trimChars cs = cs := by
  have hdrop : ∀ ds : List Char, (∀ c ∈ ds.head?, isBlank c = false) →
      ds.dropWhile isBlank = ds := by
    intro ds hds
    cases ds with
    | nil => rfl
    | cons d ds => exact List.dropWhile_cons_of_neg (by simp [hds d rfl])
  rw [trimChars, hdrop cs hfront, hdrop cs.reverse (by rwa [List.head?_reverse]),
    List.reverse_reverse]

theorem not_isBlank_head?_dropWhile (cs : List Char) :
    ∀ c ∈ (cs.dropWhile isBlank).head?, isBlank c = false := by
  intro c hc
  have hfirst := List.head?_dropWhile_not isBlank cs
  rw [Option.mem_def.mp hc] at hfirst
  exact hfirst

/-- Trimming twice is trimming once. -/
theorem trimChars_trimChars (cs : List Char) : trimChars (trimChars cs) = trimChars cs := by
  apply trimChars_of_ends
  · -- the first character is the one in front of which blanks were dropped
    intro c hc
    refine not_isBlank_head?_dropWhile cs c ?_
    have hfront : trimChars cs <+: cs.dropWhile isBlank := by
      rw [trimChars, ← List.reverse_suffix, List.reverse_reverse]
      exact List.dropWhile_suffix _
    obtain ⟨back, hback⟩ := hfront
    rw [← hback, List.head?_append, Option.mem_def.mp hc]
    rfl
  · intro c hc
    rw [trimChars, List.getLast?_reverse] at hc
    exact not_isBlank_head?_dropWhile _ c hc

theorem trim_trim (s : String) : trim (trim s) = trim s := by
  rw [trim, trim, String.toList_ofList, trimChars_trimChars]

/-- Blank texts are trimmed to nothing, and no others. -/
theorem trim_eq_empty_iff {s : String} : trim s = "" ↔ isBlankText s = true := by
  rw [trim, String.ofList_eq_empty_iff, isBlankText, List.all_eq_true]
  constructor
  · intro hnil
    obtain ⟨front, back, hcs, hfront, hback⟩ := exists_blanks s.toList
    rw [hnil, List.append_nil] at hcs
    intro c hc
    rw [hcs, List.mem_append] at hc
    exact hc.elim (hfront c) (hback c)
  · intro hblank
    rw [trimChars, ← List.append_nil s.toList, List.dropWhile_append_of_pos hblank]
    rfl

end Reckoner.Text
