import Reckoner.Proofs.Yaml.Styles

/-!
# `Reckoner.Proofs.Yaml.Values` — values behind a key

Behind the colon of a key stands a scalar or an empty list, and the line ends. Whatever the next
entry is, the value is read as its tokens.

## Contents
- **Values.** `ReadsValue`, and `ReadsLeaf` for a value of one token.
- **Texts.** `readsLeaf_text`: texts in every style.
- **Numbers.** `readsLeaf_numeral`.
- **Empty lists.** `readsValue_nil`.
-/

namespace Reckoner.Yaml

/-! ## Values -/

/-- What follows a value of a block: an entry in a column that is not deeper, or no text. -/
structure Follows (n m : Nat) (text : List Char) : Prop where
  begins : Cursor.Begins text
  column : m ≤ n
  ended : text = [] → m = 0

/-- What stands behind the colon of a key in a block is read as tokens. -/
def ReadsValue (n : Nat) (chars : List Char) (ts : List Token) : Prop :=
  ∀ {c : Cursor} {s : Nest} {m : Nat} {text : List Char},
    c.Behind (chars ++ (spaces m ++ text)) s → s.indent = n → Follows n m text →
      ∃ c₁, Reaches c c₁ ∧ c₁.Arrives m text (s.add ts)

/-- A leaf is read as one token. -/
def ReadsLeaf (n : Nat) (leaf : List Char) (t : Token) : Prop :=
  ∃ ch tail, leaf = ch :: tail ∧ (isSpace ch = false ∧ ch ≠ '\n' ∧ ch ≠ '#') ∧
    ∀ {c : Cursor} {s : Nest} {m : Nat} {text : List Char},
      c.Behind (leaf ++ '\n' :: (spaces m ++ text)) s → s.indent = n → Follows n m text →
        ∃ c₁, (content ch c).run c = some ((), c₁) ∧
          c₁.rest.length ≤ (spaces m ++ text).length ∧ c₁.Arrives m text (s.add [t])

variable {n : Nat}

/-- A leaf stands behind a space and ends its line. -/
theorem readsValue_leaf {leaf : List Char} {t : Token} (h : ReadsLeaf n leaf t) :
    ReadsValue n (' ' :: leaf ++ ['\n']) [t] := by
  obtain ⟨ch, tail, rfl, hbegins, hread⟩ := h
  intro c s m text hc hn hfollows
  have htext : ' ' :: ch :: tail ++ ['\n'] ++ (spaces m ++ text) =
      ' ' :: (ch :: tail ++ '\n' :: (spaces m ++ text)) := by simp
  rw [htext] at hc
  obtain ⟨c₀, harrive, hc₀⟩ := hc.arrive (Cursor.begins_cons hbegins _)
  obtain ⟨c₁, hcontent, hlength, harrives⟩ := hread hc₀ hn hfollows
  have hcolumn := hc₀.column
  have hindent := hc₀.indent
  refine ⟨c₁, .single (next_content harrive hc₀.rest (by omega) (by omega) hcontent) ?_, harrives⟩
  rw [hc.rest]
  simp only [List.length_cons, List.length_append] at hlength ⊢
  omega

/-! ## Texts -/

section Texts

variable {cs : List Char} {lines : List (List Char)}

theorem readsLeaf_plain (h : IsBare cs) : ReadsLeaf n cs (.scalar .plain (heard cs)) := by
  obtain ⟨ch, tail, rfl⟩ := List.exists_cons_of_ne_nil h.ne_nil
  obtain ⟨hopener, hreserved⟩ := h.opener ch rfl
  refine ⟨ch, tail, rfl, ⟨ne_space_of_not_opener hopener, h.line.1, h.line.2.2.1⟩, ?_⟩
  intro c s m rest hc hn hfollows
  have hcolumn := hfollows.column
  have hspace : ∀ d ∈ (ch :: tail).head?, d ≠ ' ' := by
    rintro d hd rfl
    exact absurd (h.head_ne_space _ hd) (by decide)
  obtain ⟨c₁, hrun, hrest, harrives⟩ :=
    content_plain hc h.line h.ne_nil hspace hfollows.begins (by omega)
  refine ⟨c₁, by rw [content_of_not_opener hopener hreserved, hrun], ?_, harrives⟩
  rw [hrest]
  simp

theorem readsLeaf_quoted {quote : Char} {spell : Char → List Char}
    (hquote : quote = '"' ∨ quote = '\'')
    (hspells : ∀ ch ∈ cs, ch ≠ ' ' → Spells quote ch (spell ch)) (hspace : spell ' ' = [' ']) :
    ReadsLeaf n (quote :: cs.flatMap spell ++ [quote]) (.scalar .quoted cs) := by
  have hmark : isSpace quote = false ∧ quote ≠ '\n' ∧ quote ≠ '#' := by
    rcases hquote with rfl | rfl <;> decide
  refine ⟨quote, _, rfl, hmark, ?_⟩
  intro c s m rest hc hn hfollows
  have hcolumn := hfollows.column
  have htext : quote :: cs.flatMap spell ++ [quote] ++ '\n' :: (spaces m ++ rest) =
      quote :: cs.flatMap spell ++ quote :: '\n' :: (spaces m ++ rest) := by simp
  rw [htext] at hc
  obtain ⟨c₁, hrun, hrest, harrives⟩ :=
    content_quoted ⟨hmark.1, hmark.2.1⟩ hspells hspace hc hfollows.begins (by omega)
  have hcontent : content quote c = quotedKey quote := by
    rcases hquote with rfl | rfl <;> rfl
  refine ⟨c₁, by rw [hcontent, hrun], ?_, harrives⟩
  rw [hrest]
  simp

theorem readsLeaf_block {folded : Bool} {mark : Char} {signs : List Char} {chomping : Chomping}
    (hmark : mark = if folded then '>' else '|')
    (hheader : Header.ofChars? signs = some ⟨chomping, none⟩)
    (hsigns : ∀ ch ∈ signs, isSpace ch = false ∧ ch ≠ '\n') (hlines : ∀ line ∈ lines, '\n' ∉ line)
    (hopens : OpensBlock lines) :
    ReadsLeaf n (mark :: signs ++ indentedLines (n + 2) lines)
      (.scalar .block (blockText folded chomping .below lines)) := by
  refine ⟨mark, signs ++ indentedLines (n + 2) lines, rfl, ?_, ?_⟩
  · rw [hmark]
    cases folded <;> decide
  intro c s m rest hc hn hfollows
  have htext : mark :: signs ++ indentedLines (n + 2) lines ++ '\n' :: (spaces m ++ rest) =
      mark :: signs ++ '\n' :: (blockBody (n + 2) lines ++ (spaces m ++ rest)) := by
    rw [List.append_assoc, indentedLines_break]
  rw [htext] at hc
  obtain ⟨c₁, hrun, hrest, harrives⟩ := content_block hheader hsigns hlines hopens hn hc
    hfollows.begins hfollows.column hfollows.ended
  have hcontent : content mark c = keyed true (block folded) := by
    have hflow := hc.calm.inFlow
    rw [hmark]
    cases folded <;> simp [content, hflow]
  exact ⟨c₁, by rw [hcontent, hrun], by rw [hrest], harrives⟩

/-- The header of a literal block tells how many line feeds end it. -/
theorem literalChars_eq {k : Nat} (hk : cs = body cs ++ List.replicate k '\n') (width : Nat) :
    ∃ signs, literalChars width cs = '|' :: signs ++ indentedLines width
        (Text.splitOn (· == '\n') (body cs) ++ List.replicate (k - 1) []) ∧
      Header.ofChars? signs = some ⟨chompingOf k, none⟩ ∧
      ∀ ch ∈ signs, isSpace ch = false ∧ ch ≠ '\n' := by
  have hlength := congrArg List.length hk
  rw [List.length_append, List.length_replicate] at hlength
  have htrailing : cs.length - (body cs).length = k := by omega
  unfold literalChars
  rw [htrailing]
  rcases k with _ | _ | k
  · exact ⟨['-'], rfl, rfl, List.forall_mem_singleton.mpr (by decide)⟩
  · exact ⟨[], rfl, rfl, nofun⟩
  · exact ⟨['+'], rfl, rfl, List.forall_mem_singleton.mpr (by decide)⟩

/-- A literal block keeps its text. -/
theorem readsLeaf_literal (h : Style.of cs = .literal) :
    ReadsLeaf n (literalChars (n + 2) cs) (.scalar .block cs) := by
  obtain ⟨k, hcs, hlast⟩ := exists_body cs
  obtain ⟨line, more, hsplit, hbody⟩ := exists_splitOn (body cs)
  obtain ⟨signs, hchars, hheader, hsigns⟩ := literalChars_eq hcs (n + 2)
  have hbare := isBare_of_isPlain (isPlain_of_literal h).2
  have hne : body cs ≠ [] := fun hnil => hbare.ne_nil (by rw [hnil]; rfl)
  -- the first line begins with the first character of a plain text
  obtain ⟨ch, tail, rfl, hch⟩ : ∃ ch tail, line = ch :: tail ∧ ch ≠ ' ' := by
    cases line with
    | cons ch tail =>
        refine ⟨ch, tail, rfl, ?_⟩
        rintro rfl
        exact absurd (hbare.head_ne_space ' ' (by rw [hbody]; rfl)) (by decide)
    | nil =>
        cases more with
        | nil => exact absurd hbody hne
        | cons next more =>
            exact absurd (hbare.head_ne_space ' ' (by rw [hbody]; rfl)) (by decide)
  have hpieces := getLast?_splitOn hne hlast
  rw [hsplit] at hchars hpieces
  have hheard : blockText false (chompingOf k) .below
      ((ch :: tail) :: more ++ List.replicate (k - 1) []) = cs := by
    rw [blockText_literal (List.cons_ne_nil _ _) hpieces, ← hbody, ← hcs]
  have hlines : ∀ piece ∈ (ch :: tail) :: more ++ List.replicate (k - 1) [], '\n' ∉ piece := by
    intro piece hpiece hmem
    rcases List.mem_append.mp hpiece with hpiece | hpiece
    · rw [← hsplit] at hpiece
      exact absurd (Text.mem_of_mem_splitOn hpiece _ hmem).2 (by decide)
    · rw [List.eq_of_mem_replicate hpiece] at hmem
      exact absurd hmem List.not_mem_nil
  have hopens : OpensBlock ((ch :: tail) :: more ++ List.replicate (k - 1) []) :=
    ⟨0, ch, tail, more ++ List.replicate (k - 1) [], rfl, hch⟩
  rw [hchars, ← hheard]
  exact readsLeaf_block rfl hheader hsigns hlines hopens

/-- **A text is read in its style.** -/
theorem readsLeaf_text (text : String) :
    ReadsLeaf n (textChars n text) (.scalar (spellingOf text.toList) (heardOf text.toList)) := by
  unfold textChars spellingOf heardOf
  dsimp only
  cases hstyle : Style.of text.toList with
  | plain => exact readsLeaf_plain (isBare_of_isPlain (isPlain_of_plain hstyle))
  | single =>
      -- only texts of one mark are written in single quotes, and no mark is doubled there
      have hspells : ∀ ch ∈ text.toList, ch ≠ ' ' → Spells '\'' ch [ch] := by
        intro ch hch _
        have hmark : ch = '.' ∨ ch = '#' ∨ ch = '-' := by
          rcases mem_of_single hstyle with h | h | h <;> rw [h, List.mem_singleton] at hch
          · exact .inl hch
          · exact .inr (.inl hch)
          · exact .inr (.inr hch)
        rcases hmark with rfl | rfl | rfl <;>
          exact spells_self (by decide) (by decide) (by decide) nofun
      have hread := readsLeaf_quoted (n := n) (.inr rfl) hspells rfl
      rwa [List.flatMap_singleton'] at hread
  | double =>
      exact readsLeaf_quoted (.inl rfl) (fun ch _ hspace => spells_escape hspace) rfl
  | literal => exact readsLeaf_literal hstyle
  | folded =>
      obtain ⟨hplain, hwide⟩ := isPlain_of_folded hstyle
      have hbare := isBare_of_isPlain hplain
      have hbreaks := foldLines_breaks text.toList
      refine readsLeaf_block rfl rfl (List.forall_mem_singleton.mpr (by decide)) ?_ ?_
      · intro line hline hmem
        exact (ne_of_not_control (hbare.control _ (hbreaks.subset line hline _ hmem))).1 rfl
      · refine hbreaks.opensBlock ?_ (two_le_length_of_wide hwide)
        rintro d hd rfl
        exact absurd (hbare.head_ne_space _ hd) (by decide)

end Texts

/-! ## Numbers -/

/-- The text of a number: a digit, or a sign and a digit, and then nothing that could end it. -/
structure IsNumeral (cs : List Char) : Prop where
  front : ∃ ch tail, cs = ch :: tail ∧
    (ch.isDigit = true ∨ ch = '-' ∧ ∃ d more, tail = d :: more ∧ d.isDigit = true)
  chars : ∀ ch ∈ cs, ch.isDigit = true ∨ ch ∈ ['.', 'e', '+', '-']

theorem ne_of_isDigit {ch d : Char} (h : ch.isDigit = true) (hd : d.isDigit = false) : ch ≠ d := by
  rintro rfl
  exact absurd h (by simp [hd])

theorem isPlainLine_numeral {cs : List Char}
    (h : ∀ ch ∈ cs, ch.isDigit = true ∨ ch ∈ ['.', 'e', '+', '-']) : IsPlainLine cs := by
  induction cs with
  | nil => trivial
  | cons ch cs ih =>
      rw [List.forall_mem_cons] at h
      have hne : ∀ d, d.isDigit = false → d ∉ ['.', 'e', '+', '-'] → ch ≠ d := by
        intro d hd hmark
        rcases h.1 with hdigit | hch
        · exact ne_of_isDigit hdigit hd
        · exact fun heq => hmark (heq ▸ hch)
      exact ⟨hne _ (by decide) (by decide), hne _ (by decide) (by decide),
        hne _ (by decide) (by decide), fun h => absurd h (hne _ (by decide) (by decide)), ih h.2⟩

theorem heard_numeral {cs : List Char}
    (h : ∀ ch ∈ cs, ch.isDigit = true ∨ ch ∈ ['.', 'e', '+', '-']) : heard cs = cs := by
  rw [heard, List.rdropWhile_eq_self_iff]
  intro hne hspace
  rcases h _ (List.getLast_mem hne) with hdigit | hmark
  · exact ne_of_isDigit hdigit (by decide) (beq_iff_eq.mp hspace)
  · rw [beq_iff_eq.mp hspace] at hmark
    exact absurd hmark (by decide)

theorem content_of_isDigit {ch : Char} (h : ch.isDigit = true) (c : Cursor) :
    content ch c = keyed false plain := by
  unfold content
  dsimp only
  split
  all_goals first | rfl | exact absurd h (by decide)

theorem readsLeaf_numeral {cs : List Char} (h : IsNumeral cs) :
    ReadsLeaf n cs (.scalar .plain cs) := by
  obtain ⟨ch, tail, rfl, hfront⟩ := h.front
  have hline := isPlainLine_numeral h.chars
  have hspace : isSpace ch = false := by
    rcases hfront with hdigit | ⟨rfl, -⟩
    · simp [isSpace, ne_of_isDigit hdigit]
    · rfl
  refine ⟨ch, tail, rfl, ⟨hspace, hline.1, hline.2.2.1⟩, ?_⟩
  intro c s m rest hc hn hfollows
  have hcolumn := hfollows.column
  obtain ⟨c₁, hrun, hrest, harrives⟩ := content_plain hc hline (List.cons_ne_nil _ _)
    (fun d hd => by obtain rfl := Option.some.inj hd; rintro rfl; exact absurd hspace (by decide))
    hfollows.begins (by omega)
  rw [heard_numeral h.chars] at harrives
  have hcontent : content ch c = keyed false plain := by
    rcases hfront with hdigit | ⟨rfl, d, more, rfl, hdigit⟩
    · exact content_of_isDigit hdigit c
    · have halone : opensBlank (c.rest.drop 1) = false := by
        simp [hc.rest, opensBlank, isSpace, ne_of_isDigit hdigit]
      change (if opensBlank (c.rest.drop 1) then item else keyed false plain) = _
      rw [halone]
      rfl
  refine ⟨c₁, by rw [hcontent, hrun], ?_, harrives⟩
  rw [hrest]
  simp

/-! ## Empty lists -/

/-- The cursor behind an opening bracket. -/
def openedBracket (c : Cursor) : Cursor :=
  { c.behind 1 with
    candidate := {}, candidates := c.candidate :: c.candidates, brackets := ['['],
    keyAllowed := true, pairs := [none] }.push .flowListStart

/-- The cursor behind the closing bracket. -/
def closedBracket (c : Cursor) : Cursor := (c.behind 2).push .flowListStart |>.push .flowListEnd

theorem run_openBracket {c : Cursor} {s : Nest} {cs : List Char}
    (hc : c.Behind ('[' :: ']' :: cs) s) :
    (openBracket '[' .flowListStart).run c = some ((), openedBracket c) := by
  have hdemand : c.demandColumn = c := by
    have hlevels : c.levels = ⟨s.indent, false⟩ :: s.levels := congrArg Nest.levels hc.nest
    unfold Cursor.demandColumn
    rw [hlevels]
    simp
  have hfew : c.brackets.length < bracketLimit := by
    rw [hc.calm.brackets]
    decide
  have hremark : ∀ c₁ : Cursor, c₁.rest = ']' :: cs → Cursor.remarkLength? c₁.rest = some 0 := by
    intro c₁ hrest
    rw [hrest]
    rfl
  rw [openBracket]
  simp only [StateT.run_bind, run_modify, hc.saveKey, hdemand, StateT.run_get, Option.pure_def,
    Option.bind_eq_bind, Option.bind_some, run_guard hfew, StateT.run_set, run_pass]
  rw [run_passRemark_zero (hremark _ (by simp [Cursor.behind, hc.rest]))]
  simp only [Option.bind_some, run_push]
  simp [openedBracket, Cursor.behind, hc.calm.brackets, hc.calm.pairs]

theorem run_closeBracket {c : Cursor} {s : Nest} {cs : List Char}
    (hc : c.Behind ('[' :: ']' :: cs) s) (hbreak : cs.head? = some '\n') :
    (closeBracket '[' .flowListEnd).run (openedBracket c) = some ((), closedBracket c) := by
  have hbracket : ((openedBracket c).brackets.head? == some '[') = true := rfl
  have hend : endPair.run (openedBracket c) = some ((), openedBracket c) := rfl
  have hremark : ∀ c₁ : Cursor, c₁.rest = cs → Cursor.remarkLength? c₁.rest = some 0 := by
    intro c₁ hrest
    cases cs with
    | nil => exact absurd hbreak nofun
    | cons ch cs =>
        obtain rfl := Option.some.inj hbreak
        rw [hrest]
        rfl
  rw [closeBracket]
  simp only [StateT.run_bind, run_modify, StateT.run_get, Option.pure_def, Option.bind_eq_bind,
    Option.bind_some, run_guard hbracket, run_dropKey (c := openedBracket c) rfl, beq_self_eq_true,
    if_true, hend, run_pass]
  rw [run_passRemark_zero (hremark _ (by
    simp [openedBracket, Cursor.leaveBracket, Cursor.allowKey, Cursor.behind, Cursor.push,
      hc.rest]))]
  simp only [Option.bind_some, run_push]
  simp [openedBracket, closedBracket, Cursor.leaveBracket, Cursor.allowKey, Cursor.behind,
    Cursor.push, Cursor.inFlow, hc.calm.brackets, hc.calm.pairs, hc.keyAllowed]

/-- An empty list is read as its brackets. -/
theorem readsValue_nil : ReadsValue n " []\n".toList [.flowListStart, .flowListEnd] := by
  intro c s m text hc hn hfollows
  have htext : " []\n".toList ++ (spaces m ++ text) =
      ' ' :: '[' :: ']' :: '\n' :: (spaces m ++ text) := rfl
  rw [htext] at hc
  obtain ⟨c₀, harrive, hc₀⟩ := hc.arrive (Cursor.begins_cons (by decide) _)
  have hcolumn := hc₀.column
  have hindent := hc₀.indent
  have hopen : next.run c = some (true, openedBracket c₀) :=
    next_content harrive hc₀.rest (by omega) (by omega) (run_openBracket hc₀)
  have hrest₁ : (openedBracket c₀).rest = ']' :: '\n' :: (spaces m ++ text) := by
    simp [openedBracket, Cursor.behind, Cursor.push, hc₀.rest]
  have harrive₁ : (openedBracket c₀).arrive = some (openedBracket c₀) := by
    have hskip :
        (openedBracket c₀).skip false (openedBracket c₀).rest = some (openedBracket c₀) := by
      rw [hrest₁]
      exact Cursor.skip_begins (Cursor.begins_cons (by decide) _) _
    have hretire : (openedBracket c₀).retireKey = some (openedBracket c₀) := rfl
    have hclose : (openedBracket c₀).closeBlocks (openedBracket c₀).column = openedBracket c₀ := rfl
    simp [Cursor.arrive, hskip, hretire, hclose]
  have hcolumn₁ : (openedBracket c₀).column = c₀.column + 1 := rfl
  have hindent₁ : (openedBracket c₀).indent = c₀.indent := rfl
  -- the brackets stand side by side, so that nothing is skipped between them
  have hclose : next.run (openedBracket c₀) = some (true, closedBracket c₀) :=
    next_content harrive₁ hrest₁ (by omega) (by omega) (run_closeBracket hc₀ rfl)
  have hrest₂ : (closedBracket c₀).rest = '\n' :: (spaces m ++ text) := by
    simp [closedBracket, Cursor.behind, Cursor.push, hc₀.rest]
  refine ⟨closedBracket c₀, .head hopen ?_ (.single hclose ?_), ?_⟩
  · rw [hrest₁, hc.rest]
    simp
  · rw [hrest₂, hrest₁]
    simp
  · have hnest : (closedBracket c₀).nest = (s.add [.flowListStart, .flowListEnd]).demanding :=
      congrArg (fun s => (s.add [.flowListStart]).add [.flowListEnd]) hc₀.nest
    have hfits : (m : Int) ≤ (s.add [.flowListStart, .flowListEnd]).indent := by
      have hless := hfollows.column
      rw [Nest.add_indent]
      omega
    refine Cursor.arrives_break (((hc₀.calm.behind 2).push _).push _) hrest₂ hfollows.begins ?_
    rw [hnest, Nest.upTo_demanding hfits]

end Reckoner.Yaml
