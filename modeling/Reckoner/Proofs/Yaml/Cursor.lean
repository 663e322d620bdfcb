import Mathlib.Data.Option.Basic
import Reckoner.Yaml.Tokens
import Reckoner.Yaml.Write

/-!
# `Reckoner.Proofs.Yaml.Cursor` — runs over written text

Written text has brackets only around nothing. Outside of them a cursor moves from entry to entry:
between two entries it passes over blanks and one line break at most, and closes the blocks that are
deeper than the next entry.

So what a run does is told by three things: the text that is left, the column where the next entry
stands, and the `Nest` there. Each construct is read from any cursor that `Arrives` at it, in front
of any text that may follow, and leads to a cursor that arrives there with its tokens behind. The
runs of constructs are then put together by `Reaches.trans`.

## Contents
- **Nests.** `Nest`: the blocks around a place and the tokens in front of it.
- **Cursors.** `Calm` cursors, outside of brackets and behind every key.
- **Blanks.** What `skip` passes over.
- **Arrivals.** `Arrives`: an entry follows in a column.
- **Values.** `Behind` the colon of a key.
- **Steps.** `next_content` and `next_finish`: the next token.
- **Runs.** `Reaches`, and `scan_of_reaches` for the tokens of a whole run.
-/

namespace Reckoner.Yaml

/-! ## Nests -/

/-- The blocks around a place, and the tokens in front of it with the latest first. -/
@[ext] structure Nest where
  indent : Int
  levels : List Level
  tokens : List Token

namespace Nest

variable {s : Nest} {m n : Int}

/-- Behind further tokens. -/
def add (ts : List Token) (s : Nest) : Nest := { s with tokens := ts.reverse ++ s.tokens }

/-- Where one column more is demanded. -/
def demanding (s : Nest) : Nest :=
  { s with indent := s.indent + 1, levels := ⟨s.indent, false⟩ :: s.levels }

/-- In a further block. -/
def inside (column : Int) (s : Nest) : Nest :=
  { s with indent := column, levels := ⟨s.indent, true⟩ :: s.levels }

/-- Behind the blocks that are deeper than a column. -/
def upTo (column : Int) (s : Nest) : Nest :=
  let (indent, levels, ended) := Cursor.closed column s.indent s.levels
  ⟨indent, levels, List.replicate ended .blockEnd ++ s.tokens⟩

/-- No column is demanded beyond that of a block. -/
def Settled (s : Nest) : Prop := ∀ level ∈ s.levels.head?, level.isBlock = true

@[simp] theorem add_indent (ts : List Token) : (s.add ts).indent = s.indent := rfl

theorem add_add (ts us : List Token) : (s.add ts).add us = s.add (ts ++ us) := by
  simp [add]

theorem upTo_self (h : s.indent ≤ n) : s.upTo n = s := by
  obtain ⟨indent, levels, tokens⟩ := s
  cases levels with
  | nil => rfl
  | cons level levels => simp [upTo, Cursor.closed, Int.not_lt.mpr h]

/-- What was demanded ends with the line. -/
theorem upTo_demanding (h : m ≤ s.indent) : s.demanding.upTo m = s.upTo m := by
  have hdeep : m < s.indent + 1 := by omega
  simp [upTo, demanding, Cursor.closed, hdeep]

/-- A block ends in front of a smaller column. -/
theorem upTo_inside (ts : List Token) (h : m < n) :
    ((s.inside n).add ts).upTo m = (s.add (ts ++ [.blockEnd])).upTo m := by
  simp only [upTo, inside, add, Cursor.closed, if_pos h, if_true]
  simp [List.replicate_succ']

end Nest

/-! ## Cursors -/

namespace Cursor

variable {c c₁ : Cursor} {s : Nest} {m : Nat} {cs text : List Char}

/-- The blocks around a cursor and its tokens. -/
def nest (c : Cursor) : Nest := ⟨c.indent, c.levels, c.tokens⟩

/-- No bracket is open, and no key waits for its colon. -/
structure Calm (c : Cursor) : Prop where
  brackets : c.brackets = []
  pairs : c.pairs = []
  candidate : c.candidate.isPossible = false
  count : c.count = c.tokens.length

/-- The same cursor at another place of the text. -/
def movedTo (c : Cursor) (text : List Char) (index line column : Nat) (fresh : Bool) : Cursor :=
  { c with rest := text, index, line, column, fresh }

theorem Calm.inFlow (h : c.Calm) : c.inFlow = false := by
  rw [Cursor.inFlow, h.brackets]
  rfl

theorem Calm.movedTo (h : c.Calm) (text : List Char) (index line column : Nat) (fresh : Bool) :
    (c.movedTo text index line column fresh).Calm :=
  ⟨h.brackets, h.pairs, h.candidate, h.count⟩

theorem Calm.behind (h : c.Calm) (length : Nat) : (c.behind length).Calm :=
  ⟨h.brackets, h.pairs, h.candidate, h.count⟩

theorem Calm.behindBlanks (h : c.Calm) (length : Nat) : (c.behindBlanks length).Calm :=
  ⟨h.brackets, h.pairs, h.candidate, h.count⟩

theorem Calm.nextLine (h : c.Calm) : c.nextLine.Calm :=
  ⟨h.brackets, h.pairs, h.candidate, h.count⟩

theorem Calm.allowKey (h : c.Calm) (isAllowed : Bool) : (c.allowKey isAllowed).Calm :=
  ⟨h.brackets, h.pairs, h.candidate, h.count⟩

theorem Calm.push (h : c.Calm) (t : Token) : (c.push t).Calm :=
  ⟨h.brackets, h.pairs, h.candidate, congrArg (· + 1) h.count⟩

@[simp] theorem nest_movedTo (text : List Char) (index line column : Nat) (fresh : Bool) :
    (c.movedTo text index line column fresh).nest = c.nest := rfl

@[simp] theorem nest_allowKey (isAllowed : Bool) : (c.allowKey isAllowed).nest = c.nest := rfl

@[simp] theorem nest_push (t : Token) : (c.push t).nest = c.nest.add [t] := rfl

theorem nest_closeBlocks (h : c.Calm) (column : Int) :
    (c.closeBlocks column).nest = c.nest.upTo column := by
  rw [closeBlocks, if_neg (by simp [h.inFlow])]
  rfl

theorem Calm.closeBlocks (h : c.Calm) (column : Int) : (c.closeBlocks column).Calm := by
  rw [Cursor.closeBlocks, if_neg (by simp [h.inFlow])]
  refine ⟨h.brackets, h.pairs, h.candidate, ?_⟩
  simp [h.count, Nat.add_comm]

/-- Where a block is innermost, no column is waived. -/
theorem waiveColumns_settled (h : c.nest.Settled) : c.waiveColumns = c := by
  obtain ⟨⟩ := c
  rename_i levels _ _ _ _
  dsimp only [waiveColumns]
  cases levels with
  | nil => rfl
  | cons level levels =>
      have hblock : level.isBlock = true := h level rfl
      rw [undemanded, if_pos hblock]

theorem nest_waiveColumns (hc : c.nest = s.demanding) (h : s.Settled) :
    c.waiveColumns.nest = s := by
  obtain ⟨indent, levels, tokens⟩ := s
  obtain ⟨⟩ := c
  simp only [nest, Nest.demanding, Nest.mk.injEq] at hc
  obtain ⟨rfl, rfl, rfl⟩ := hc
  cases levels with
  | nil => rfl
  | cons level levels =>
      have hblock : level.isBlock = true := h level rfl
      simp [waiveColumns, nest, undemanded, hblock]

theorem Calm.waiveColumns (h : c.Calm) : c.waiveColumns.Calm :=
  ⟨h.brackets, h.pairs, h.candidate, h.count⟩

/-! ## Blanks -/

/-- Text that is neither blank nor a comment, or no text. -/
def Begins (cs : List Char) : Prop := ∀ ch ∈ cs.head?, isSpace ch = false ∧ ch ≠ '\n' ∧ ch ≠ '#'

theorem begins_nil : Begins [] := fun _ h => absurd h (Option.not_mem_none _)

theorem begins_cons {ch : Char} (h : isSpace ch = false ∧ ch ≠ '\n' ∧ ch ≠ '#') (cs : List Char) :
    Begins (ch :: cs) := fun _ hd => Option.some.inj hd ▸ h

theorem skip_begins (h : Begins cs) (c : Cursor) : c.skip false cs = some c := by
  cases cs with
  | nil => rfl
  | cons ch cs =>
      obtain ⟨hspace, hbreak, hcomment⟩ := h ch rfl
      simp [skip, hspace, hbreak, hcomment]

theorem behindBlanks_zero (c : Cursor) : c.behindBlanks 0 = c := by simp [behindBlanks, behind]

theorem behindBlanks_behindBlanks (c : Cursor) (m n : Nat) :
    (c.behindBlanks m).behindBlanks n = c.behindBlanks (m + n) := by
  simp [behindBlanks, behind, List.drop_drop, Nat.add_assoc]

/-- Spaces in front of text are passed over. -/
theorem skip_spaces (hrest : c.rest = spaces m ++ text) (h : Begins text) :
    c.skip false c.rest = some (c.behindBlanks m) := by
  rw [hrest]
  induction m generalizing c with
  | zero => exact skip_begins h _
  | succ m ih =>
      have htab : c.isTabbed = false := by simp [isTabbed, hrest, spaces, List.replicate_succ]
      have hnext : (c.behindBlanks 1).rest = spaces m ++ text := by
        simp [behindBlanks, behind, hrest, spaces, List.replicate_succ]
      have hstep := ih hnext
      rw [behindBlanks_behindBlanks, Nat.add_comm] at hstep
      rw [← hstep]
      simp [spaces, List.replicate_succ, skip, htab, isSpace]

/-- A line break is passed over, and a key may begin behind it. -/
theorem skip_break (hcalm : c.Calm) (hrest : c.rest = '\n' :: cs) :
    c.skip false c.rest =
      (c.nextLine.allowKey true).skip false (c.nextLine.allowKey true).rest := by
  rw [hrest, skip]
  simp [allowKey, nextLine, hrest, hcalm.inFlow]

/-- The end of a line and the spaces of the next one are passed over. -/
theorem skip_line (hcalm : c.Calm) (hrest : c.rest = '\n' :: (spaces m ++ text))
    (htext : Begins text) :
    c.skip false c.rest = some ((c.nextLine.allowKey true).behindBlanks m) := by
  rw [skip_break hcalm hrest]
  exact skip_spaces (by simp [allowKey, nextLine, hrest]) htext

theorem behind_behind (c : Cursor) (m n : Nat) : (c.behind m).behind n = c.behind (m + n) := by
  simp [behind, List.drop_drop, Nat.add_assoc]

theorem behind_behindBlanks (c : Cursor) (m n : Nat) :
    (c.behind m).behindBlanks n = c.behind (m + n) := by
  simp [behindBlanks, behind, List.drop_drop, Nat.add_assoc]

theorem behind_zero (h : c.fresh = false) : c.behind 0 = c := by
  obtain ⟨⟩ := c
  simp_all [behind]

theorem rest_behind {front : List Char} (h : c.rest = front ++ text) :
    (c.behind front.length).rest = text := by
  simp [behind, h]

/-! ## Arrivals -/

/-- What `next` does before it looks at the text in front. -/
def arrive (c : Cursor) : Option Cursor := do
  let c ← c.skip false c.rest
  let c ← c.retireKey
  return c.closeBlocks c.column

/-- The cursor stands in front of an entry in a column. -/
structure Before (c : Cursor) (column : Nat) (text : List Char) (s : Nest) : Prop where
  calm : c.Calm
  keyAllowed : c.keyAllowed = true
  rest : c.rest = text
  column : c.column = column
  nest : c.nest = s

/-- An entry in a column follows, or the end of the text. -/
def Arrives (c : Cursor) (column : Nat) (text : List Char) (s : Nest) : Prop :=
  ∃ c₁, c.arrive = some c₁ ∧ c₁.Before column text (s.upTo column)

theorem length_skip {comment : Bool} (hrest : c.rest = cs) (h : c.skip comment cs = some c₁) :
    c₁.rest.length ≤ cs.length := by
  induction cs generalizing c comment with
  | nil =>
      obtain rfl := Option.some.inj h
      exact Nat.le_of_eq (congrArg List.length hrest)
  | cons ch cs ih =>
      -- a character in a comment, a break or a blank is taken, and all else is left
      have hblank : (c.behindBlanks 1).rest = cs := by simp [behindBlanks, behind, hrest]
      have hline : (c.nextLine.allowKey (c.keyAllowed || !c.inFlow)).rest = cs := by
        simp [allowKey, nextLine, hrest]
      rw [skip] at h
      split at h
      · exact Nat.le_succ_of_le (ih hline h)
      split at h
      · exact Nat.le_succ_of_le (ih hblank h)
      split at h
      · split at h
        · exact absurd h nofun
        · exact Nat.le_succ_of_le (ih hblank h)
      · obtain rfl := Option.some.inj h
        exact Nat.le_of_eq (congrArg List.length hrest)

theorem length_arrive (h : c.arrive = some c₁) : c₁.rest.length ≤ c.rest.length := by
  obtain ⟨c₀, hskip, h⟩ := Option.bind_eq_some_iff.mp h
  obtain ⟨c₀', hretire, h⟩ := Option.bind_eq_some_iff.mp h
  have hclose : c₁.rest = c₀'.rest := by
    rw [← Option.some.inj h, closeBlocks]
    split <;> rfl
  have hkept : c₀'.rest = c₀.rest := by
    unfold retireKey dropKey at hretire
    split at hretire
    · split at hretire
      · exact absurd hretire nofun
      · exact Option.some.inj hretire ▸ rfl
    · exact Option.some.inj hretire ▸ rfl
  rw [hclose, hkept]
  exact length_skip rfl hskip

theorem retireKey_calm (h : c.Calm) : c.retireKey = some c := by
  rw [retireKey, if_neg (by simp [h.candidate])]

theorem arrives_of_skip (hskip : c.skip false c.rest = some c₁) (hcalm : c₁.Calm)
    (hkey : c₁.keyAllowed = true) (hrest : c₁.rest = text) (hcolumn : c₁.column = m)
    (hnest : c₁.nest.upTo m = s.upTo m) : c.Arrives m text s := by
  subst hrest hcolumn
  refine ⟨c₁.closeBlocks c₁.column, ?_, hcalm.closeBlocks _, ?_, ?_, ?_, ?_⟩
  · simp [arrive, hskip, retireKey_calm hcalm]
  · simp [closeBlocks, hcalm.inFlow, hkey]
  · simp [closeBlocks, hcalm.inFlow]
  · simp [closeBlocks, hcalm.inFlow]
  · rw [nest_closeBlocks hcalm, hnest]

/-- The next line begins with the entry. -/
theorem arrives_line (hcalm : c.Calm) (hkey : c.keyAllowed = true)
    (hrest : c.rest = spaces m ++ text) (hcolumn : c.column = 0) (htext : Begins text)
    (hnest : c.nest.upTo m = s.upTo m) : c.Arrives m text s :=
  arrives_of_skip (skip_spaces hrest htext) (hcalm.behindBlanks m) hkey
    (by simp [behindBlanks, behind, hrest, spaces]) (by simp [behindBlanks, behind, hcolumn]) hnest

/-- The entry stands behind the end of the line. -/
theorem arrives_break (hcalm : c.Calm) (hrest : c.rest = '\n' :: (spaces m ++ text))
    (htext : Begins text) (hnest : c.nest.upTo m = s.upTo m) : c.Arrives m text s := by
  obtain ⟨c₁, hskip, hbefore⟩ : (c.nextLine.allowKey true).Arrives m text s :=
    arrives_line (hcalm.nextLine.allowKey true) rfl (by simp [allowKey, nextLine, hrest]) rfl htext
      hnest
  refine ⟨c₁, ?_, hbefore⟩
  rw [arrive, skip_break hcalm hrest]
  exact hskip

end Cursor

/-! ## Values -/

namespace Cursor

variable {c : Cursor} {s : Nest} {text : List Char}

/-- The cursor stands behind the colon of a key, on its line. -/
structure Behind (c : Cursor) (text : List Char) (s : Nest) : Prop where
  calm : c.Calm
  keyAllowed : c.keyAllowed = false
  fresh : c.fresh = false
  rest : c.rest = text
  nest : c.nest = s.demanding
  settled : s.Settled
  column : s.indent < c.column

theorem closeBlocks_shallow {column : Int} (h : c.indent ≤ column) : c.closeBlocks column = c := by
  have hclosed : closed column c.indent c.levels = (c.indent, c.levels, 0) := by
    cases c.levels with
    | nil => rfl
    | cons level levels => rw [closed, if_neg (Int.not_lt.mpr h)]
  rw [closeBlocks, hclosed]
  split
  · rfl
  · rfl

/-- Keeping a place for a key changes nothing but the candidate. -/
theorem saveKey_eq (c : Cursor) : c.saveKey = { c with candidate := c.saveKey.candidate } := by
  unfold saveKey
  split <;> rfl

/-- Behind a colon no key begins. -/
theorem Behind.saveKey (h : c.Behind text s) : c.saveKey = c := by
  simp [Cursor.saveKey, h.keyAllowed]

theorem Behind.allowKey (h : c.Behind text s) : c.allowKey false = c := by
  rw [Cursor.allowKey, ← h.keyAllowed]

theorem Behind.indent (h : c.Behind text s) : c.indent = s.indent + 1 :=
  congrArg Nest.indent h.nest

theorem Behind.waiveColumns (h : c.Behind text s) : c.waiveColumns.nest = s :=
  nest_waiveColumns h.nest h.settled

/-- The value behind the colon is arrived at. -/
theorem Behind.arrive (h : c.Behind (' ' :: text) s) (htext : Begins text) :
    ∃ c₁, c.arrive = some c₁ ∧ c₁.Behind text s := by
  have hskip := skip_spaces (m := 1) h.rest htext
  have hcalm := h.calm.behindBlanks 1
  have hcolumn : (c.behindBlanks 1).column = c.column + 1 := rfl
  have hdeep : (c.behindBlanks 1).indent ≤ (c.behindBlanks 1).column := by
    have hless := h.column
    have hindent : (c.behindBlanks 1).indent = s.indent + 1 := h.indent
    omega
  refine ⟨c.behindBlanks 1, ?_, hcalm, h.keyAllowed, h.fresh, ?_, h.nest, h.settled, ?_⟩
  · simp [Cursor.arrive, hskip, retireKey_calm hcalm, closeBlocks_shallow hdeep]
  · simp [behindBlanks, behind, h.rest]
  · have hless := h.column
    omega

end Cursor

/-! ## Steps -/

section Steps

variable {c c₁ c₂ : Cursor} {s : Nest} {ch : Char} {cs : List Char}

theorem run_guard {p : Prop} [Decidable p] (h : p) (c : Cursor) :
    (guard p : Scan Unit).run c = some ((), c) := by
  rw [guard, if_pos h]
  rfl

theorem run_pass (length : Nat) (c : Cursor) :
    (pass length).run c = some ((), c.behind length) := rfl

theorem run_push (t : Token) (c : Cursor) : (push t).run c = some ((), c.push t) := rfl

theorem run_modify (f : Cursor → Cursor) (c : Cursor) :
    (modify f : Scan Unit).run c = some ((), f c) := rfl

theorem run_passRemark {length : Nat} (h : Cursor.remarkLength? c.rest = some length) :
    passRemark.run c = some ((), c.behindBlanks length) := by
  rw [passRemark]
  simp only [StateT.run_bind, StateT.run_get, Option.pure_def, Option.bind_eq_bind,
    Option.bind_some, h]
  rfl

/-- Behind a colon a token is read and pushed, and no key is kept in mind. -/
theorem Cursor.Behind.run_keyed {text : List Char} {keyAllowed : Bool} {read : Scan Token}
    {t : Token} (h : c.Behind text s) (hread : read.run (c.allowKey keyAllowed) = some (t, c₁)) :
    (keyed keyAllowed read).run c = some ((), c₁.push t) := by
  rw [keyed]
  simp only [StateT.run_bind, run_modify, h.saveKey, Option.bind_eq_bind, Option.bind_some, hread,
    run_push]

/-- No blanks stand in front of the line's end. -/
theorem run_passRemark_zero (h : Cursor.remarkLength? c.rest = some 0) :
    passRemark.run c = some ((), c) := by
  rw [run_passRemark h, Cursor.behindBlanks_zero]

theorem run_dropKey (h : c.candidate.isPossible = false) :
    (dropKey : Scan Unit).run c = some ((), c) := by
  have hdrop : c.dropKey = some c := by
    obtain ⟨⟩ := c
    rename_i candidate _ _ _ _ _ _ _
    obtain ⟨⟩ := candidate
    simp_all [Cursor.dropKey]
  rw [dropKey]
  simp only [StateT.run_bind, StateT.run_get, Option.pure_def, Option.bind_eq_bind,
    Option.bind_some, hdrop]
  rfl

/-- What begins with other characters than these is no boundary of documents, and no directive. -/
def isContent (ch : Char) : Bool := ch != '%' && ch != '-' && ch != '.'

theorem run_skip (c : Cursor) :
    (skip : Scan Unit).run c = (c.skip false c.rest).map fun c => ((), c) := by
  rw [skip]
  simp only [StateT.run_bind, StateT.run_get, Option.pure_def, Option.bind_eq_bind,
    Option.bind_some]
  cases c.skip false c.rest with
  | none => rfl
  | some c => rfl

/-- The token that begins with the character in front is read. -/
theorem next_content (harrive : c.arrive = some c₁) (hrest : c₁.rest = ch :: cs)
    (hline : c₁.column = 0 → isContent ch = true) (hdeep : c₁.indent ≤ c₁.column)
    (hcontent : (content ch c₁).run c₁ = some ((), c₂)) : next.run c = some (true, c₂) := by
  obtain ⟨c₀, hskip, hclose⟩ := Option.bind_eq_some_iff.mp harrive
  obtain ⟨c₀', hretire, hclose⟩ := Option.bind_eq_some_iff.mp hclose
  have hclose : c₀'.closeBlocks c₀'.column = c₁ := Option.some.inj hclose
  have hinside : isOutside ch c₁ = false := by simp [isOutside, Int.not_lt.mpr hdeep]
  have hplain : c₁.column = 0 → ch ≠ '%' ∧ ch ≠ '-' ∧ ch ≠ '.' := by
    simpa [isContent, and_assoc] using hline
  have hdirective : (c₁.column == 0 && ch == '%') = false := by
    simpa using fun h => (hplain h).1
  have hboundary : ∀ mark, mark = '-' ∨ mark = '.' →
      (c₁.column == 0 && opensBoundary mark (ch :: cs)) = false := by
    rintro mark (rfl | rfl)
    · simpa [opensBoundary] using fun h hch => absurd hch (hplain h).2.1
    · simpa [opensBoundary] using fun h hch => absurd hch (hplain h).2.2
  rw [next]
  simp only [StateT.run_bind, run_skip, hskip, Option.map_some, Option.bind_some,
    Option.bind_eq_bind, StateT.run_get, Option.pure_def, hretire, hclose, hrest, hdirective,
    hboundary _ (.inl rfl), hboundary _ (.inr rfl), hinside, Bool.false_eq_true, if_false,
    StateT.run_set, Bool.not_false, run_guard trivial, hcontent, StateT.run_pure]

/-- At the end of the text all blocks end. -/
theorem next_finish (harrive : c.arrive = some c₁) (hcalm : c₁.Calm) (hrest : c₁.rest = []) :
    ∃ c₂, next.run c = some (false, c₂) ∧ c₂.tokens = (c₁.nest.upTo (-1)).tokens := by
  obtain ⟨c₀, hskip, hclose⟩ := Option.bind_eq_some_iff.mp harrive
  obtain ⟨c₀', hretire, hclose⟩ := Option.bind_eq_some_iff.mp hclose
  have hclose : c₀'.closeBlocks c₀'.column = c₁ := Option.some.inj hclose
  refine ⟨c₁.closeBlocks (-1), ?_, congrArg Nest.tokens (Cursor.nest_closeBlocks hcalm _)⟩
  rw [next]
  simp only [StateT.run_bind, run_skip, hskip, Option.map_some, Option.bind_some,
    Option.bind_eq_bind, StateT.run_get, Option.pure_def, hretire, hclose, hrest, StateT.run_set,
    finish, hcalm.inFlow, Bool.not_false, run_guard trivial, run_modify,
    run_dropKey (hcalm.closeBlocks _).candidate, StateT.run_pure]

end Steps

/-! ## Runs -/

/-- Tokens that are read one after the other lead from a cursor to another one. Each of them takes
    text away. -/
inductive Reaches : Cursor → Cursor → Prop where
  | refl {c : Cursor} : Reaches c c
  | head {c c₁ c₂ : Cursor} : next.run c = some (true, c₁) → c₁.rest.length < c.rest.length →
      Reaches c₁ c₂ → Reaches c c₂

theorem Reaches.trans {c c₁ c₂ : Cursor} (h : Reaches c c₁) (h' : Reaches c₁ c₂) :
    Reaches c c₂ := by
  induction h with
  | refl => exact h'
  | head hnext hless _ ih => exact .head hnext hless (ih h')

theorem Reaches.single {c c₁ : Cursor} (hnext : next.run c = some (true, c₁))
    (hless : c₁.rest.length < c.rest.length) : Reaches c c₁ :=
  .head hnext hless .refl

/-- **Runs.** A run that ends with the text gives its tokens. -/
theorem scan_of_reaches {c c₁ c₂ : Cursor} (h : Reaches c c₁)
    (hend : next.run c₁ = some (false, c₂)) {fuel : Nat} (hfuel : c.rest.length < fuel) :
    Token.scan fuel c = c₂.tokens.reverse := by
  induction h generalizing fuel with
  | refl =>
      cases fuel with
      | zero => exact absurd hfuel (Nat.not_lt_zero _)
      | succ fuel => rw [Token.scan, hend]
  | head hnext hless _ ih =>
      cases fuel with
      | zero => exact absurd hfuel (Nat.not_lt_zero _)
      | succ fuel =>
          rw [Token.scan, hnext]
          exact ih hend (by omega)

end Reckoner.Yaml
