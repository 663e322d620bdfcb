import Reckoner.Proofs.Yaml.Plain

/-!
# `Reckoner.Proofs.Yaml.Keys` — a key is known by its colon

A name at the start of an entry is kept as a candidate. The colon behind it puts the key in front of
the name, and in front of the first key of a block the mapping itself.

## Contents
- **Names.** `isName`: keys that are written as they are.
- **Blocks.** `Nest.InBlock`, and `Nest.Enters` for the place of an entry.
- **Candidates.** `run_name`: the cursor behind a name.
- **Keys.** `reaches_value`: from a key to its value.
-/

namespace Reckoner.Yaml

/-! ## Names -/

/-- A key that is written as it is, and is short enough to be found. -/
def isName (name : String) : Bool :=
  Style.of name.toList == .plain && !name.toList.isEmpty && name.toList.all Char.isAlpha &&
    name.toList.length ≤ Cursor.keyLimit

section Names

variable {name : String}

theorem ne_of_isAlpha {c d : Char} (h : c.isAlpha = true) (hd : d.isAlpha = false) : c ≠ d := by
  rintro rfl
  exact absurd h (by simp [hd])

theorem isName_eq_true (h : isName name = true) :
    Style.of name.toList = .plain ∧ (∃ ch tail, name.toList = ch :: tail) ∧
      (∀ ch ∈ name.toList, ch.isAlpha = true) ∧ name.toList.length ≤ Cursor.keyLimit := by
  simp only [isName, Bool.and_eq_true, beq_iff_eq, Bool.not_eq_true', List.isEmpty_eq_false_iff,
    List.all_eq_true, decide_eq_true_eq] at h
  exact ⟨h.1.1.1, List.exists_cons_of_ne_nil h.1.1.2, h.1.2, h.2⟩

theorem textChars_name (h : isName name = true) (n : Nat) : textChars n name = name.toList := by
  rw [textChars, (isName_eq_true h).1]

theorem content_of_isAlpha {ch : Char} (h : ch.isAlpha = true) (c : Cursor) :
    content ch c = keyed false plain := by
  unfold content
  dsimp only
  split
  all_goals first | rfl | exact absurd h (by decide)

theorem isFlowMark_of_isAlpha {ch : Char} (h : ch.isAlpha = true) : isFlowMark ch = false := by
  have hmarks : ",[]\x7b\x7d".toList.all (!·.isAlpha) = true := by decide
  refine Bool.eq_false_iff.mpr fun hmark => ?_
  have hnot := List.all_eq_true.mp hmarks ch (List.contains_iff_mem.mp hmark)
  exact absurd h (by simpa using hnot)

/-- A name ends at its colon. -/
theorem plainWord_name {cs after : List Char} (h : ∀ ch ∈ cs, ch.isAlpha = true)
    (hafter : opensBlank after = true) : plainWord false (cs ++ ':' :: after) = cs := by
  induction cs with
  | nil => simp [plainWord, endsPlain, hafter]
  | cons ch cs ih =>
      rw [List.forall_mem_cons] at h
      have hspace : isSpace ch = false := by simp [isSpace, ne_of_isAlpha h.1]
      have hbreak : (ch == '\n') = false := by simp [ne_of_isAlpha h.1]
      have hcolon : (ch == ':') = false := by simp [ne_of_isAlpha h.1]
      rw [List.cons_append, plainWord, ih h.2, hspace, hbreak, hcolon]
      rfl

end Names

/-! ## Blocks -/

namespace Nest

/-- The innermost block is a list or a mapping in a column. -/
structure InBlock (s : Nest) (n : Nat) : Prop where
  indent : s.indent = n
  level : ∃ level levels, s.levels = level :: levels ∧ level.isBlock = true

/-- In a block of a column, which begins here unless it has begun already. -/
def opened (n : Nat) (t : Token) (s : Nest) : Nest :=
  if s.indent < n then (s.add [t]).inside n else s

theorem opened_of_inBlock {s : Nest} {n : Nat} (h : s.InBlock n) (t : Token) : s.opened n t = s :=
  if_neg (by rw [h.indent]; omega)

theorem inBlock_opened {s : Nest} {n : Nat} (h : s.indent < n ∨ s.InBlock n) (t : Token) :
    (s.opened n t).InBlock n := by
  rcases h with hdeep | hblock
  · rw [opened, if_pos hdeep]
    exact ⟨rfl, _, _, rfl, rfl⟩
  · rwa [opened_of_inBlock hblock]

theorem InBlock.settled {s : Nest} {n : Nat} (h : s.InBlock n) : s.Settled := by
  obtain ⟨level, levels, hlevels, hblock⟩ := h.level
  intro l hl
  rw [hlevels] at hl
  exact Option.some.inj hl ▸ hblock

theorem InBlock.add {s : Nest} {n : Nat} (h : s.InBlock n) (ts : List Token) :
    (s.add ts).InBlock n := ⟨h.indent, h.level⟩

/-- An entry in a column goes on with a block, or begins one. -/
structure Enters (s b : Nest) (n : Nat) : Prop where
  waived : s = b ∨ s = b.demanding ∧ b.indent < n
  settled : b.Settled
  fits : b.indent < n ∨ b.InBlock n

theorem InBlock.enters {s : Nest} {n : Nat} (h : s.InBlock n) : s.Enters s n :=
  ⟨.inl rfl, h.settled, .inr h⟩

theorem Enters.indent {s b : Nest} {n : Nat} (h : s.Enters b n) : s.indent ≤ n := by
  rcases h.waived with rfl | ⟨rfl, hdeep⟩
  · exact h.fits.elim Int.le_of_lt fun h => Int.le_of_eq h.indent
  · exact hdeep

theorem Enters.same {s b : Nest} {n : Nat} (h : s.Enters b n) (hdeep : ¬ b.indent < n) : s = b :=
  h.waived.elim id fun h => absurd h.2 hdeep

theorem Enters.tokens {s b : Nest} {n : Nat} (h : s.Enters b n) : s.tokens = b.tokens := by
  rcases h.waived with rfl | ⟨rfl, -⟩
  · rfl
  · rfl

theorem Enters.around {s b : Nest} {n : Nat} (h : s.Enters b n) : b.indent ≤ n :=
  h.fits.elim Int.le_of_lt fun h => Int.le_of_eq h.indent

end Nest

theorem Cursor.nest_waiveColumns_enters {c : Cursor} {s b : Nest} {n : Nat} (hc : c.nest = s)
    (h : s.Enters b n) : c.waiveColumns.nest = b := by
  rcases h.waived with rfl | ⟨rfl, -⟩
  · rw [Cursor.waiveColumns_settled (hc ▸ h.settled), hc]
  · exact Cursor.nest_waiveColumns hc h.settled

/-! ## Candidates -/

section Keys

variable {c c₁ : Cursor} {s b : Nest} {n : Nat} {name : String} {after : List Char}

/-- The cursor behind a name that may be a key. -/
def behindName (c : Cursor) (name : List Char) : Cursor :=
  ((c.saveKey.allowKey false).waiveColumns.behind name.length).push (.scalar .plain name)

theorem opensAnyBoundary_of_isAlpha {ch : Char} (h : ch.isAlpha = true) (cs : List Char) :
    opensAnyBoundary (ch :: cs) = false := by
  have hdash : ch ≠ '-' := ne_of_isAlpha h (by decide)
  have hpoint : ch ≠ '.' := ne_of_isAlpha h (by decide)
  simp [opensAnyBoundary, opensBoundary, hdash, hpoint]

theorem run_name (hflow : c.inFlow = false) (hrest : c.rest = name.toList ++ ':' :: after)
    (hname : isName name = true) (hafter : opensBlank after = true) :
    (keyed false plain).run c = some ((), behindName c name.toList) := by
  obtain ⟨-, ⟨ch, tail, hcs⟩, halpha, -⟩ := isName_eq_true hname
  generalize name.toList = cs at hrest hcs halpha
  have hne : cs ≠ [] := hcs ▸ List.cons_ne_nil _ _
  have hinside : (c.fresh && opensAnyBoundary (cs ++ ':' :: after)) = false := by
    rw [hcs, List.cons_append, opensAnyBoundary_of_isAlpha (halpha ch (by simp [hcs])),
      Bool.and_false]
  have hsaved : (c.saveKey.allowKey false).rest = cs ++ ':' :: after :=
    (congrArg Cursor.rest c.saveKey_eq).trans hrest
  have hinside₁ : (c.saveKey.allowKey false).inFlow = false :=
    (congrArg Cursor.inFlow c.saveKey_eq).trans hflow
  have hfresh : (c.saveKey.allowKey false).waiveColumns.fresh = c.fresh := by
    rw [Cursor.saveKey_eq]
    rfl
  rw [keyed]
  simp only [StateT.run_bind, run_modify, Option.bind_eq_bind, Option.bind_some]
  generalize hd : c.saveKey.allowKey false = d at hsaved hinside₁ hfresh
  have hcomment : ∀ e ∈ cs.head?, e ≠ '#' := fun e he =>
    ne_of_isAlpha (halpha e (List.mem_of_head? he)) (by decide)
  have hwaived : d.waiveColumns.rest = cs ++ ':' :: after := hsaved
  have hrun := run_plainText_word (d.waiveColumns.indent + 1) ⟨[], 0⟩ [] d.rest.length hwaived
    (by rw [hfresh]; exact hinside) (plainWord_name halpha hafter) hne hcomment
  rw [if_pos (by simp [opensBlank, isSpace])] at hrun
  have hgap : cs.reverse ++ (⟨[], 0⟩ : Gap).text.reverse ++ [] = cs.reverse := by simp [Gap.text]
  rw [hgap] at hrun
  have hplain : plain.run d = some (.scalar .plain cs, d.waiveColumns.behind cs.length) :=
    run_plain hinside₁ hrun hne
  rw [hplain]
  simp only [Option.bind_some, run_push]
  rw [behindName, hd]

theorem rest_behindName {cs : List Char} (hrest : c.rest = cs ++ after) :
    (behindName c cs).rest = after := by
  have hsaved : (c.saveKey.allowKey false).waiveColumns.rest = cs ++ after :=
    (congrArg Cursor.rest c.saveKey_eq).trans hrest
  exact Cursor.rest_behind hsaved

theorem column_behindName {cs : List Char} : (behindName c cs).column = c.column + cs.length := by
  rw [behindName, Cursor.saveKey_eq]
  rfl

theorem nest_behindName {cs : List Char} :
    (behindName c cs).nest = c.waiveColumns.nest.add [.scalar .plain cs] := by
  rw [behindName, Cursor.saveKey_eq]
  rfl

theorem count_behindName {cs : List Char} : (behindName c cs).count = c.count + 1 := by
  rw [behindName, Cursor.saveKey_eq]
  rfl

theorem brackets_behindName {cs : List Char} : (behindName c cs).brackets = c.brackets := by
  rw [behindName, Cursor.saveKey_eq]
  rfl

theorem pairs_behindName {cs : List Char} : (behindName c cs).pairs = c.pairs := by
  rw [behindName, Cursor.saveKey_eq]
  rfl

theorem candidate_behindName (h : c.keyAllowed = true) (cs : List Char) : ∃ isRequired,
    (behindName c cs).candidate = ⟨true, isRequired, c.index, c.line, c.column, c.count⟩ := by
  rw [behindName, Cursor.saveKey, if_pos h]
  exact ⟨_, rfl⟩

/-- The cursor stands behind a name that began in a column and may be a key. -/
structure Cursor.BehindName (c : Cursor) (n : Nat) (name after : List Char) (b : Nest) : Prop where
  brackets : c.brackets = []
  pairs : c.pairs = []
  rest : c.rest = ':' :: after
  column : n < c.column
  nest : c.nest = b.add [.scalar .plain name]
  count : c.count = b.tokens.length + 1
  isPossible : c.candidate.isPossible = true
  token : c.candidate.token = b.tokens.length
  keyColumn : c.candidate.column = n

theorem behindName_before (hbefore : c.Before n (name.toList ++ ':' :: after) s)
    (hname : isName name = true) (henters : s.Enters b n) :
    (behindName c name.toList).BehindName n name.toList after b := by
  obtain ⟨-, ⟨ch, tail, hcs⟩, -, -⟩ := isName_eq_true hname
  have hnest : c.waiveColumns.nest = b := Cursor.nest_waiveColumns_enters hbefore.nest henters
  have hcount : c.count = b.tokens.length := by
    rw [hbefore.calm.count, ← hnest]
    rfl
  obtain ⟨isRequired, hcandidate⟩ := candidate_behindName hbefore.keyAllowed name.toList
  exact {
    brackets := brackets_behindName.trans hbefore.calm.brackets
    pairs := pairs_behindName.trans hbefore.calm.pairs
    rest := rest_behindName hbefore.rest
    column := by
      rw [column_behindName, hbefore.column, hcs, List.length_cons]
      omega
    nest := hnest ▸ nest_behindName
    count := by rw [count_behindName, hcount]
    isPossible := by rw [hcandidate]
    token := by rw [hcandidate, hcount]
    keyColumn := by rw [hcandidate, hbefore.column] }

/-- A block is opened where no column is demanded. -/
theorem openBlock_settled (hflow : c.inFlow = false) (h : c.nest.Settled) (number column : Nat)
    (t : Token) :
    c.openBlock number column t =
      if c.indent < (column : Int) then
        { c.insert number t with indent := column, levels := ⟨c.indent, true⟩ :: c.levels }
      else c := by
  rw [Cursor.openBlock, hflow]
  cases hlevels : c.levels with
  | nil => simp [hlevels]
  | cons level levels =>
      have hblock : level.isBlock = true := h level (by rw [Cursor.nest, hlevels]; rfl)
      simp [hlevels, hblock]

theorem demandColumn_inBlock (hflow : c.inFlow = false) (h : c.nest.InBlock n) :
    c.demandColumn =
      { c with indent := c.indent + 1, levels := ⟨c.indent, false⟩ :: c.levels } := by
  obtain ⟨level, levels, hlevels, hblock⟩ := h.level
  have hlevels : c.levels = level :: levels := hlevels
  simp [Cursor.demandColumn, hlevels, hflow, hblock]

/-! ## Keys -/

theorem run_passColon (hrest : c.rest = ':' :: after) (htab : after.head? ≠ some '\t') :
    passColon.run c = some ((), c.behind 1) := by
  have hnext : (c.behind 1).rest = after := by simp [Cursor.behind, hrest]
  have hopen : (after.head? == some '\t') = false := by simpa using htab
  rw [passColon]
  simp only [StateT.run_bind, run_pass, StateT.run_get, Option.pure_def, Option.bind_eq_bind,
    Option.bind_some, hnext, hopen]
  rfl

/-- The cursor behind a colon, with the key in front of its candidate and the block in front of the
    key. -/
def behindColon (k : Candidate) (c : Cursor) : Cursor :=
  let d := (c.behind 1).insert k.token .key
  { (d.openBlock k.token k.column .mappingStart).demandColumn with
    candidate := { d.candidate with isPossible := false }, keyAllowed := false }.push .value

theorem run_value (hpossible : c.candidate.isPossible = true) (hpairs : c.pairs = [])
    (hrest : c.rest = ':' :: after) (htab : after.head? ≠ some '\t') :
    value.run c = some ((), behindColon c.candidate c) := by
  have hpair : (!c.pairs.isEmpty && !c.inMapping) = false := by rw [hpairs]; rfl
  rw [value]
  simp only [StateT.run_bind, StateT.run_get, Option.pure_def, Option.bind_eq_bind,
    Option.bind_some, hpair, Bool.false_eq_true, if_false, run_passColon hrest htab, hpossible,
    if_true, valueOfKey, run_modify, run_push, behindColon]

/-- The cursor stands behind a colon, and the key is put in front of its name. -/
structure Cursor.BehindKey (c : Cursor) (column : Nat) (after : List Char) (s : Nest) : Prop where
  brackets : c.brackets = []
  pairs : c.pairs = []
  rest : c.rest = after
  column : c.column = column
  fresh : c.fresh = false
  nest : c.nest = s
  count : c.count = c.tokens.length

theorem insert_key {cs : List Char} (h : c.BehindName n cs after b) :
    (c.behind 1).insert c.candidate.token .key = { c.behind 1 with
      tokens := .scalar .plain cs :: .key :: b.tokens, count := b.tokens.length + 2 } := by
  have htokens : c.tokens = .scalar .plain cs :: b.tokens := congrArg Nest.tokens h.nest
  simp [Cursor.insert, Cursor.behind, htokens, h.count, h.token]

/-- In front of the first key of a block the mapping is put. -/
theorem behindKey_openBlock {cs : List Char} (h : c.BehindName n cs after b) (hb : b.Settled) :
    (((c.behind 1).insert c.candidate.token .key).openBlock c.candidate.token c.candidate.column
      .mappingStart).BehindKey (c.column + 1) after
        ((b.opened n .mappingStart).add [.key, .scalar .plain cs]) := by
  have hindent : c.indent = b.indent := congrArg Nest.indent h.nest
  have hlevels : c.levels = b.levels := congrArg Nest.levels h.nest
  have hinsert := insert_key h
  generalize (c.behind 1).insert c.candidate.token .key = d at hinsert
  have hflow : d.inFlow = false := by
    have hbrackets : d.brackets = [] := by
      rw [hinsert]
      exact h.brackets
    rw [Cursor.inFlow, hbrackets]
    rfl
  have hsettled : d.nest.Settled := by
    rw [hinsert]
    exact (congrArg Nest.Settled h.nest).mpr hb
  have hdeep : d.indent = b.indent := by
    rw [hinsert]
    exact hindent
  rw [openBlock_settled hflow hsettled, hdeep, h.keyColumn, Nest.opened]
  split
  · -- the mapping begins with this key
    rw [hinsert]
    exact ⟨h.brackets, h.pairs, by simp [Cursor.insert, Cursor.behind, h.rest], rfl, rfl,
      by simp [Cursor.insert, Cursor.behind, Cursor.nest, Nest.add, Nest.inside, h.token, hlevels],
      by simp [Cursor.insert, h.token]⟩
  · -- it has begun with an earlier one
    rw [hinsert]
    exact ⟨h.brackets, h.pairs, by simp [Cursor.behind, h.rest], rfl, rfl,
      by simp [Cursor.behind, Cursor.nest, Nest.add, hlevels, hindent], rfl⟩

/-- Behind a colon the value is awaited, one column deeper than the block of the key. -/
theorem behind_behindColon {cs : List Char} (h : c.BehindName n cs after b)
    (henters : s.Enters b n) :
    (behindColon c.candidate c).Behind after
      ((b.opened n .mappingStart).add [.key, .scalar .plain cs, .value]) := by
  have hkey := behindKey_openBlock h henters.settled
  rw [behindColon]
  generalize ((c.behind 1).insert c.candidate.token .key).candidate = k
  generalize ((c.behind 1).insert c.candidate.token .key).openBlock c.candidate.token
    c.candidate.column .mappingStart = e at hkey
  have hopened := Nest.inBlock_opened henters.fits .mappingStart
  have hflow : e.inFlow = false := by
    rw [Cursor.inFlow, hkey.brackets]
    rfl
  have hblock : e.nest.InBlock n := hkey.nest ▸ hopened.add _
  rw [demandColumn_inBlock hflow hblock]
  refine ⟨⟨hkey.brackets, hkey.pairs, rfl, congrArg (· + 1) hkey.count⟩, rfl, hkey.fresh, hkey.rest,
    ?_, hopened.settled, ?_⟩
  · exact congrArg (fun s => (s.add [.value]).demanding) hkey.nest
  · have hbefore := h.column
    have hcolumn := hkey.column
    rw [Nest.add_indent, hopened.indent]
    change (n : Int) < e.column
    omega

/-- The name behind which a cursor stands may be a key. -/
theorem arrive_behindName (hbefore : c.Before n (name.toList ++ ':' :: after) s)
    (hname : isName name = true) (hindent : c.waiveColumns.indent ≤ n) :
    (behindName c name.toList).arrive = some (behindName c name.toList) := by
  obtain ⟨-, -, -, hlength⟩ := isName_eq_true hname
  have hrest : (behindName c name.toList).rest = ':' :: after := rest_behindName hbefore.rest
  have hcolumn : (behindName c name.toList).column = n + name.toList.length := by
    rw [← hbefore.column]
    exact column_behindName
  have hbegins : Cursor.Begins (behindName c name.toList).rest :=
    hrest ▸ Cursor.begins_cons (by decide) _
  have hskip := Cursor.skip_begins hbegins (behindName c name.toList)
  have hlive : (behindName c name.toList).isLive (behindName c name.toList).candidate = true := by
    rw [behindName, Cursor.saveKey, if_pos hbefore.keyAllowed]
    simp [Cursor.isLive, Cursor.allowKey, Cursor.waiveColumns, Cursor.behind, Cursor.push, hlength]
  have hretire : (behindName c name.toList).retireKey = some (behindName c name.toList) := by
    rw [Cursor.retireKey, hlive, Bool.not_true, Bool.and_false]
    rfl
  have hnest : (behindName c name.toList).nest =
      c.waiveColumns.nest.add [.scalar .plain name.toList] := nest_behindName
  have hdeep : (behindName c name.toList).indent ≤ (behindName c name.toList).column := by
    have hshallow : (behindName c name.toList).indent = c.waiveColumns.indent :=
      congrArg Nest.indent hnest
    omega
  simp [Cursor.arrive, hskip, hretire, Cursor.closeBlocks_shallow hdeep]

/-- A name is read as the start of an entry. -/
theorem next_name (harrive : c.arrive = some c₁)
    (hbefore : c₁.Before n (name.toList ++ ':' :: after) s) (hname : isName name = true)
    (hafter : opensBlank after = true) (hindent : s.indent ≤ n) :
    next.run c = some (true, behindName c₁ name.toList) := by
  obtain ⟨-, ⟨ch, tail, hcs⟩, halpha, -⟩ := isName_eq_true hname
  have hch : ch.isAlpha = true := halpha ch (by simp [hcs])
  have hrest : c₁.rest = ch :: (tail ++ ':' :: after) := by rw [hbefore.rest, hcs, List.cons_append]
  have hdeep : c₁.indent ≤ c₁.column := by
    rw [hbefore.column]
    exact (congrArg Nest.indent hbefore.nest).trans_le hindent
  refine next_content harrive hrest (fun _ => ?_) hdeep ?_
  · simp [isContent, ne_of_isAlpha hch]
  · rw [content_of_isAlpha hch]
    exact run_name hbefore.calm.inFlow hbefore.rest hname hafter

/-- A colon behind a name makes it a key. -/
theorem next_colon {cs : List Char} (harrive : c.arrive = some c) (h : c.BehindName n cs after b)
    (hafter : opensBlank after = true) (htab : after.head? ≠ some '\t') (hindent : b.indent ≤ n) :
    next.run c = some (true, behindColon c.candidate c) := by
  have hdeep : c.indent ≤ c.column := by
    have hcolumn := h.column
    have hshallow : c.indent = b.indent := congrArg Nest.indent h.nest
    omega
  have halone : opensBlank (c.rest.drop 1) = true := by
    rw [h.rest]
    exact hafter
  refine next_content harrive h.rest (fun _ => by decide) hdeep ?_
  change (if opensBlank (c.rest.drop 1) then value else _).run _ = _
  rw [halone]
  exact run_value h.isPossible h.pairs h.rest htab

/-- **Keys.** A name and a colon lead to the value. -/
theorem reaches_value (harrive : c.arrive = some c₁)
    (hbefore : c₁.Before n (name.toList ++ ':' :: after) s) (hname : isName name = true)
    (hafter : opensBlank after = true) (htab : after.head? ≠ some '\t') (henters : s.Enters b n) :
    ∃ c₂, Reaches c c₂ ∧ c₂.Behind after
      ((b.opened n .mappingStart).add [.key, .scalar .plain name.toList, .value]) := by
  obtain ⟨-, ⟨ch, tail, hcs⟩, -, -⟩ := isName_eq_true hname
  have hindent : c₁.waiveColumns.indent = b.indent :=
    congrArg Nest.indent (Cursor.nest_waiveColumns_enters hbefore.nest henters)
  have hbehindName := behindName_before hbefore hname henters
  have hfirst := next_name harrive hbefore hname hafter henters.indent
  have hsecond := next_colon (arrive_behindName hbefore hname (hindent.trans_le henters.around))
    hbehindName hafter htab henters.around
  have hbehind := behind_behindColon hbehindName henters
  refine ⟨_, .head hfirst ?_ (.single hsecond ?_), hbehind⟩
  · have hless := Cursor.length_arrive harrive
    rw [hbefore.rest, List.length_append, hcs, List.length_cons] at hless
    rw [hbehindName.rest]
    omega
  · rw [hbehindName.rest, hbehind.rest]
    exact Nat.lt_succ_self _

end Keys

end Reckoner.Yaml
