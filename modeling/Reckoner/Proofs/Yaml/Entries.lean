import Reckoner.Proofs.Yaml.Keys
import Reckoner.Proofs.Yaml.Numbers

/-!
# `Reckoner.Proofs.Yaml.Entries` — members and items are read entry by entry

A value that is an object or a list stands on the lines below its key, one level deeper, and its
entries are read one after the other. An entry either begins the block of its column or goes on with
it (`Nest.Enters`); behind it the block is there, so that the step from entry to entry is the same
for all of them. The block ends where an entry with a smaller column is arrived at.

## Contents
- **Tokens.** `valueTokens`: the tokens of a value, and `isRegular` for the values that have them.
- **Members.** `reaches_members`, and `readsValue_object` for an object behind a key.
- **Items.** `reaches_items`, and `readsValue_array` for a list of objects behind a key.
- **Values.** `readsValue`: all regular values.
- **Documents.** `ofChars_write`: the tokens of a whole text.
-/

namespace Reckoner.Yaml

/-! ## Tokens -/

mutual

/-- The tokens of a value. -/
def valueTokens : Json → List Token
  | .string s => [.scalar (spellingOf s.toList) (heardOf s.toList)]
  | .array [] => [.flowListStart, .flowListEnd]
  | .array (v :: vs) => .listStart :: itemsTokens (v :: vs) ++ [.blockEnd]
  | .object (m :: ms) => .mappingStart :: membersTokens (m :: ms) ++ [.blockEnd]
  | leaf => [.scalar .plain (leafChars 0 leaf)]

/-- The tokens of members. -/
def membersTokens : List (String × Json) → List Token
  | [] => []
  | (name, value) :: ms =>
    [.key, .scalar .plain name.toList, .value] ++ valueTokens value ++ membersTokens ms

/-- The tokens of items. -/
def itemsTokens : List Json → List Token
  | [] => []
  | v :: vs => .item :: valueTokens v ++ itemsTokens vs

end

mutual

/-- A value whose texts, finite numbers and nested records are read token by token. -/
def isRegular : Json → Bool
  | .string _ => true
  | .whole _ => true
  | .number x => x.isFinite
  | .array vs => areRecords vs
  | .object (m :: ms) => areRegular (m :: ms)
  | _ => false

/-- Members with names as keys. -/
def areRegular : List (String × Json) → Bool
  | [] => true
  | (name, value) :: ms => isName name && isRegular value && areRegular ms

/-- Items that are objects with members. -/
def areRecords : List Json → Bool
  | [] => true
  | .object (m :: ms) :: vs => areRegular (m :: ms) && areRecords vs
  | _ :: _ => false

end

/-! ## Members -/

section Members

variable {c : Cursor} {s b : Nest} {n m : Nat} {name : String} {value : Json}
  {ms : List (String × Json)} {text : List Char}

/-- The members behind a block's column: the first key, its value and the further ones. -/
def entryChars (n : Nat) (name : String) (value : Json) (ms : List (String × Json)) : List Char :=
  name.toList ++ ':' :: (valueChars n value ++ membersChars n ms)

theorem membersChars_cons (hname : isName name = true) :
    membersChars n ((name, value) :: ms) = spaces n ++ entryChars n name value ms := by
  simp [membersChars, entryChars, textChars_name hname]

theorem begins_entryChars (hname : isName name = true) :
    Cursor.Begins (entryChars n name value ms ++ text) := by
  obtain ⟨-, ⟨ch, tail, hcs⟩, halpha, -⟩ := isName_eq_true hname
  have hch : ch.isAlpha = true := halpha ch (by simp [hcs])
  rw [entryChars, hcs, List.append_assoc, List.cons_append]
  refine Cursor.begins_cons ⟨?_, ne_of_isAlpha hch (by decide), ne_of_isAlpha hch (by decide)⟩ _
  simp [isSpace, ne_of_isAlpha hch]

theorem head_valueChars (n : Nat) (value : Json) :
    ∃ ch tail, valueChars n value = ch :: tail ∧ (ch = ' ' ∨ ch = '\n') := by
  unfold valueChars
  split
  · exact ⟨_, _, rfl, .inr rfl⟩
  · exact ⟨_, _, rfl, .inr rfl⟩
  · exact ⟨_, _, rfl, .inl rfl⟩

/-- A member leads to what stands behind its value. -/
theorem reaches_member {after : List Char} (hname : isName name = true)
    (hvalue : ReadsValue n (valueChars n value) (valueTokens value))
    (harrives : c.Arrives n (name.toList ++ ':' :: (valueChars n value ++ (spaces m ++ after))) s)
    (henters : s.Enters b n) (hfollows : Follows n m after) :
    ∃ c₂, Reaches c c₂ ∧ c₂.Arrives m after ((b.opened n .mappingStart).add
      ([.key, .scalar .plain name.toList, .value] ++ valueTokens value)) := by
  obtain ⟨c₁, harrive, hbefore⟩ := harrives
  rw [Nest.upTo_self henters.indent] at hbefore
  obtain ⟨ch, tail, hchars, hch⟩ := head_valueChars n value
  have hafter : opensBlank (valueChars n value ++ (spaces m ++ after)) = true := by
    rw [hchars]
    rcases hch with rfl | rfl <;> rfl
  have htab : (valueChars n value ++ (spaces m ++ after)).head? ≠ some '\t' := by
    rw [hchars]
    rcases hch with rfl | rfl <;> simp
  obtain ⟨c₂, hkey, hbehind⟩ := reaches_value harrive hbefore hname hafter htab henters
  have hblock := Nest.inBlock_opened henters.fits .mappingStart
  obtain ⟨c₃, hreach, harrives⟩ := hvalue hbehind hblock.indent hfollows
  rw [Nest.add_add] at harrives
  exact ⟨c₃, hkey.trans hreach, harrives⟩

/-- All keys are names, and the values of members are read. -/
def ReadsMembers (n : Nat) (ms : List (String × Json)) : Prop :=
  ∀ m ∈ ms, isName m.1 = true ∧ ReadsValue n (valueChars n m.2) (valueTokens m.2)

/-- **Members.** The entries of a block are read one after the other. -/
theorem reaches_members (h : ReadsMembers n ((name, value) :: ms))
    (harrives : c.Arrives n (entryChars n name value ms ++ (spaces m ++ text)) s)
    (henters : s.Enters b n) (hfollows : Follows n m text) :
    ∃ c₂, Reaches c c₂ ∧ c₂.Arrives m text
      ((b.opened n .mappingStart).add (membersTokens ((name, value) :: ms))) := by
  induction ms generalizing c s b name value with
  | nil =>
      obtain ⟨hname, hvalue⟩ := h _ List.mem_cons_self
      have htext : entryChars n name value [] ++ (spaces m ++ text) =
          name.toList ++ ':' :: (valueChars n value ++ (spaces m ++ text)) := by
        simp [entryChars, membersChars]
      rw [htext] at harrives
      simpa [membersTokens] using reaches_member hname hvalue harrives henters hfollows
  | cons next ms ih =>
      obtain ⟨hname, hvalue⟩ := h _ List.mem_cons_self
      obtain ⟨nextName, nextValue⟩ := next
      have hnext := (h _ (List.mem_cons_of_mem _ List.mem_cons_self)).1
      have htext : entryChars n name value ((nextName, nextValue) :: ms) ++ (spaces m ++ text) =
          name.toList ++ ':' :: (valueChars n value ++
            (spaces n ++ (entryChars n nextName nextValue ms ++ (spaces m ++ text)))) := by
        rw [entryChars, membersChars_cons hnext]
        simp
      rw [htext] at harrives
      have hfollows₁ : Follows n n (entryChars n nextName nextValue ms ++ (spaces m ++ text)) :=
        ⟨begins_entryChars hnext, le_rfl, fun hnil => absurd hnil (by simp [entryChars])⟩
      obtain ⟨c₁, hreach₁, harrives₁⟩ := reaches_member hname hvalue harrives henters hfollows₁
      -- the block has begun with this entry, and the others go on with it
      have hblock := (Nest.inBlock_opened henters.fits .mappingStart).add
        ([.key, .scalar .plain name.toList, .value] ++ valueTokens value)
      obtain ⟨c₂, hreach₂, harrives₂⟩ := ih
        (fun m hm => h m (List.mem_cons_of_mem _ hm)) harrives₁ hblock.enters
      rw [Nest.opened_of_inBlock hblock, Nest.add_add] at harrives₂
      exact ⟨c₂, hreach₁.trans hreach₂, harrives₂⟩

/-- Where a block ends, its tokens stand in the one around it. -/
theorem arrives_blockEnd {t : Token} {ts : List Token} {k : Nat}
    (harrives : c.Arrives m text (((s.add [t]).inside k).add ts)) (hless : m < k) :
    c.Arrives m text (s.add (t :: ts ++ [.blockEnd])) := by
  obtain ⟨c₁, harrive, hbefore⟩ := harrives
  refine ⟨c₁, harrive, ?_⟩
  rwa [Nest.upTo_inside ts (by omega), Nest.add_add] at hbefore

theorem readsValue_object (h : ReadsMembers (n + 2) ((name, value) :: ms)) :
    ReadsValue n (valueChars n (.object ((name, value) :: ms)))
      (valueTokens (.object ((name, value) :: ms))) := by
  intro c s m text hc hn hfollows
  obtain ⟨hname, -⟩ := h _ List.mem_cons_self
  have htext : valueChars n (.object ((name, value) :: ms)) ++ (spaces m ++ text) =
      '\n' :: (spaces (n + 2) ++ (entryChars (n + 2) name value ms ++ (spaces m ++ text))) := by
    rw [valueChars, membersChars_cons hname]
    simp
  rw [htext] at hc
  have harrives : c.Arrives (n + 2) (entryChars (n + 2) name value ms ++ (spaces m ++ text))
      s.demanding :=
    Cursor.arrives_break hc.calm hc.rest (begins_entryChars hname) (by rw [hc.nest])
  have hdeep : s.indent < (n + 2 : Nat) := by omega
  have hcolumn := hfollows.column
  obtain ⟨c₁, hreach, harrives⟩ := reaches_members h harrives
    ⟨.inr ⟨rfl, hdeep⟩, hc.settled, .inl hdeep⟩ ⟨hfollows.begins, by omega, hfollows.ended⟩
  rw [Nest.opened, if_pos hdeep] at harrives
  exact ⟨c₁, hreach, arrives_blockEnd harrives (by omega)⟩

end Members

/-! ## Items -/

section Items

variable {c : Cursor} {s b : Nest} {n m : Nat} {text : List Char}

/-- The first dash of a list opens it. -/
theorem openBlock_enters (hflow : c.inFlow = false) (hnest : c.nest = s) (henters : s.Enters b n)
    (t : Token) : c.openBlock c.count n t =
      if b.indent < n then { c.push t with indent := n, levels := ⟨b.indent, true⟩ :: b.levels }
      else c := by
  subst hnest
  have hinsert : c.insert c.count t = c.push t := by simp [Cursor.insert, Cursor.push]
  rcases henters.waived with hsame | ⟨hdemanding, hdeep⟩
  · subst hsame
    rw [openBlock_settled hflow henters.settled, hinsert]
    rfl
  · have hindent : c.indent = b.indent + 1 := congrArg Nest.indent hdemanding
    have hlevels : c.levels = ⟨b.indent, false⟩ :: b.levels := congrArg Nest.levels hdemanding
    have hfits : b.indent + 1 ≤ (n : Int) := by omega
    simp [Cursor.openBlock, hflow, hlevels, hindent, hfits, hdeep, Cursor.insert, Cursor.push]

/-- Behind the dash the list has begun, with this item or an earlier one. -/
theorem openBlock_dash {cs : List Char} (hbefore : c.Before n ('-' :: cs) s)
    (henters : s.Enters b n) {d : Cursor}
    (hd : (c.behind 1).openBlock (c.behind 1).count c.column .listStart = d) :
    d.nest = b.opened n .listStart ∧ d.Calm ∧ d.rest = cs ∧ d.column = n + 1 := by
  have hflow : (c.behind 1).inFlow = false := hbefore.calm.inFlow
  have hnest : (c.behind 1).nest = s := hbefore.nest
  have hopen := openBlock_enters hflow hnest henters .listStart
  rw [← hbefore.column, hd, hbefore.column] at hopen
  rw [hopen, Nest.opened]
  split
  · have hpushed := (hbefore.calm.behind 1).push .listStart
    have htokens : c.tokens = b.tokens := (congrArg Nest.tokens hbefore.nest).trans henters.tokens
    refine ⟨?_, ⟨hpushed.brackets, hpushed.pairs, hpushed.candidate, hpushed.count⟩, ?_, ?_⟩
    · simp [Cursor.nest, Nest.inside, Nest.add, Cursor.push, Cursor.behind, htokens]
    · simp [Cursor.push, Cursor.behind, hbefore.rest]
    · simp [Cursor.push, Cursor.behind, hbefore.column]
  · rename_i hdeep
    refine ⟨hbefore.nest.trans (henters.same hdeep), hbefore.calm.behind 1, ?_, ?_⟩
    · simp [Cursor.behind, hbefore.rest]
    · simp [Cursor.behind, hbefore.column]

/-- One space stands behind the dash. -/
theorem takeWhile_dash (hbegins : Cursor.Begins text) :
    (' ' :: text).takeWhile isSpace = [' '] := by
  have hspace : isSpace ' ' = true := rfl
  rw [List.takeWhile_cons_of_pos hspace]
  cases text with
  | nil => rfl
  | cons ch cs => rw [List.takeWhile_cons_of_neg (by simp [(hbegins ch rfl).1])]

theorem remarkLength?_dash (hbegins : Cursor.Begins text) :
    Cursor.remarkLength? (' ' :: text) = some 1 := by
  have hcomment : (text.head? == some '#') = false := by
    rw [beq_eq_false_iff_ne]
    exact fun h => (hbegins _ h).2.2 rfl
  simp [Cursor.remarkLength?, takeWhile_dash hbegins, hcomment]

theorem run_item (hbefore : c.Before n ('-' :: ' ' :: text) s) (henters : s.Enters b n)
    (hbegins : Cursor.Begins text) (hflow : opensFlowMark text = false) :
    ∃ c₁, item.run c = some ((), c₁) ∧
      c₁.Before (n + 2) text ((b.opened n .listStart).add [.item]) := by
  generalize hd : (c.behind 1).openBlock (c.behind 1).count c.column .listStart = d
  obtain ⟨hnest, hcalm, hrest, hcolumn⟩ := openBlock_dash hbefore henters hd
  have hguard : (!c.inFlow && c.keyAllowed) = true := by
    rw [hbefore.calm.inFlow, hbefore.keyAllowed]
    rfl
  have hremark : Cursor.remarkLength? d.rest = some 1 := hrest ▸ remarkLength?_dash hbegins
  have hrest₁ : (d.behindBlanks 1).rest = text := by
    simp [Cursor.behindBlanks, Cursor.behind, hrest]
  -- no tab stands in front of a further dash, and the item is on this line
  have hdash :
      (!([' '].contains '\t' && text.head? == some '-' && opensBlank (text.drop 1))) = true := rfl
  have hline : (text.head? == some '\n' || opensFlowMark text) = false := by
    rw [hflow, Bool.or_false, beq_eq_false_iff_ne]
    exact fun h => (hbegins _ h).2.1 rfl
  have hcalm₁ := hcalm.behindBlanks 1
  refine ⟨((d.behindBlanks 1).allowKey true).push .item, ?_, (hcalm₁.allowKey true).push _, rfl,
    hrest₁, ?_, ?_⟩
  · rw [item]
    simp only [StateT.run_bind, StateT.run_get, Option.pure_def, Option.bind_eq_bind,
      Option.bind_some, run_guard hguard, run_pass, run_modify, hd, run_passRemark hremark, hrest,
      takeWhile_dash hbegins, hrest₁, run_guard hdash, hline, Bool.false_eq_true, if_false,
      run_dropKey hcalm₁.candidate, run_push]
  · exact congrArg (· + 1) hcolumn
  · exact congrArg (Nest.add [.item]) hnest

/-- A dash leads to its item. -/
theorem reaches_item (harrives : c.Arrives n ('-' :: ' ' :: text) s) (henters : s.Enters b n)
    (hn : 0 < n) (hbegins : Cursor.Begins text) (hflow : opensFlowMark text = false) :
    ∃ c₁, Reaches c c₁ ∧ c₁.Arrives (n + 2) text ((b.opened n .listStart).add [.item]) := by
  obtain ⟨c₀, harrive, hbefore⟩ := harrives
  rw [Nest.upTo_self henters.indent] at hbefore
  obtain ⟨c₁, hrun, hbefore₁⟩ := run_item hbefore henters hbegins hflow
  have hdeep : c₀.indent ≤ c₀.column := by
    rw [hbefore.column]
    exact (congrArg Nest.indent hbefore.nest).trans_le henters.indent
  have hcolumn := hbefore.column
  have hnext : next.run c = some (true, c₁) := by
    refine next_content harrive hbefore.rest (fun h => absurd h (by omega)) hdeep ?_
    have halone : opensBlank (c₀.rest.drop 1) = true := by rw [hbefore.rest]; rfl
    change (if opensBlank (c₀.rest.drop 1) then item else keyed false plain).run c₀ = _
    rw [halone]
    exact hrun
  refine ⟨c₁, .single hnext ?_, ?_⟩
  · have hless := Cursor.length_arrive harrive
    rw [hbefore.rest, List.length_cons, List.length_cons] at hless
    rw [hbefore₁.rest]
    omega
  · have hskip : c₁.skip false c₁.rest = some c₁ :=
      Cursor.skip_begins (by rw [hbefore₁.rest]; exact hbegins) c₁
    exact Cursor.arrives_of_skip hskip hbefore₁.calm hbefore₁.keyAllowed hbefore₁.rest
      hbefore₁.column (by rw [hbefore₁.nest])

/-- An item that is an object leads to what stands behind it. -/
theorem reaches_record {name : String} {value : Json} {ms : List (String × Json)}
    (h : ReadsMembers (n + 2) ((name, value) :: ms))
    (harrives : c.Arrives n
      ('-' :: ' ' :: (entryChars (n + 2) name value ms ++ (spaces m ++ text))) s)
    (henters : s.Enters b n) (hn : 0 < n) (hfollows : Follows n m text) :
    ∃ c₁, Reaches c c₁ ∧ c₁.Arrives m text
      ((b.opened n .listStart).add (.item :: valueTokens (.object ((name, value) :: ms)))) := by
  obtain ⟨hname, -⟩ := h _ List.mem_cons_self
  have hflow : opensFlowMark (entryChars (n + 2) name value ms ++ (spaces m ++ text)) = false := by
    obtain ⟨-, ⟨ch, tail, hcs⟩, halpha, -⟩ := isName_eq_true hname
    rw [entryChars, hcs]
    exact isFlowMark_of_isAlpha (halpha ch (by simp [hcs]))
  obtain ⟨c₁, hreach₁, harrives₁⟩ :=
    reaches_item harrives henters hn (begins_entryChars hname) hflow
  have hblock := (Nest.inBlock_opened henters.fits .listStart).add [.item]
  have hdeep : ((b.opened n .listStart).add [.item]).indent < (n + 2 : Nat) := by
    rw [hblock.indent]
    omega
  have hcolumn := hfollows.column
  obtain ⟨c₂, hreach₂, harrives₂⟩ := reaches_members h harrives₁
    ⟨.inl rfl, hblock.settled, .inl hdeep⟩ ⟨hfollows.begins, by omega, hfollows.ended⟩
  rw [Nest.opened, if_pos hdeep] at harrives₂
  have harrives₃ := arrives_blockEnd harrives₂ (by omega)
  rw [Nest.add_add] at harrives₃
  exact ⟨c₂, hreach₁.trans hreach₂, harrives₃⟩

/-- All items are objects that are read. -/
def ReadsItems (n : Nat) (vs : List Json) : Prop :=
  ∀ v ∈ vs, ∃ name value ms, v = .object ((name, value) :: ms) ∧
    ReadsMembers (n + 2) ((name, value) :: ms)

theorem itemsChars_record {name : String} {value : Json} {ms : List (String × Json)}
    {vs : List Json} (hname : isName name = true) :
    itemsChars n (.object ((name, value) :: ms) :: vs) =
      spaces n ++ '-' :: ' ' :: (entryChars (n + 2) name value ms ++ itemsChars n vs) := by
  simp [itemsChars, entryChars, textChars_name hname]

/-- **Items.** The items of a list are read one after the other. -/
theorem reaches_items {name : String} {value : Json} {ms : List (String × Json)} {vs : List Json}
    (h : ReadsItems n (.object ((name, value) :: ms) :: vs))
    (harrives : c.Arrives n ('-' :: ' ' ::
      (entryChars (n + 2) name value ms ++ (itemsChars n vs ++ (spaces m ++ text)))) s)
    (henters : s.Enters b n) (hn : 0 < n) (hfollows : Follows n m text) :
    ∃ c₁, Reaches c c₁ ∧ c₁.Arrives m text
      ((b.opened n .listStart).add (itemsTokens (.object ((name, value) :: ms) :: vs))) := by
  have hfirst : ReadsMembers (n + 2) ((name, value) :: ms) := by
    obtain ⟨_, _, _, hobject, hmembers⟩ := h _ List.mem_cons_self
    rwa [Json.object.inj hobject]
  induction vs generalizing c s b name value ms with
  | nil =>
      have hread := reaches_record hfirst (by simpa [itemsChars] using harrives) henters hn hfollows
      simpa [itemsTokens] using hread
  | cons next vs ih =>
      obtain ⟨nextName, nextValue, nextMs, rfl, hnext⟩ :=
        h _ (List.mem_cons_of_mem _ List.mem_cons_self)
      have hname := (hnext _ List.mem_cons_self).1
      have htext :
          itemsChars n (.object ((nextName, nextValue) :: nextMs) :: vs) ++ (spaces m ++ text) =
          spaces n ++ ('-' :: ' ' :: (entryChars (n + 2) nextName nextValue nextMs ++
            (itemsChars n vs ++ (spaces m ++ text)))) := by
        rw [itemsChars_record hname]
        simp
      rw [htext] at harrives
      obtain ⟨c₁, hreach₁, harrives₁⟩ := reaches_record hfirst harrives henters hn
        ⟨Cursor.begins_cons (by decide) _, le_rfl, fun hnil => absurd hnil (List.cons_ne_nil _ _)⟩
      -- the list has begun with this item, and the others go on with it
      have hblock := (Nest.inBlock_opened henters.fits .listStart).add
        (.item :: valueTokens (.object ((name, value) :: ms)))
      obtain ⟨c₂, hreach₂, harrives₂⟩ := ih (fun v hv => h v (List.mem_cons_of_mem _ hv)) harrives₁
        hblock.enters hnext
      rw [Nest.opened_of_inBlock hblock, Nest.add_add] at harrives₂
      exact ⟨c₂, hreach₁.trans hreach₂, harrives₂⟩

theorem readsValue_array {name : String} {value : Json} {ms : List (String × Json)}
    {vs : List Json} (h : ReadsItems (n + 2) (.object ((name, value) :: ms) :: vs)) :
    ReadsValue n (valueChars n (.array (.object ((name, value) :: ms) :: vs)))
      (valueTokens (.array (.object ((name, value) :: ms) :: vs))) := by
  intro c s m text hc hn hfollows
  have hname : isName name = true := by
    obtain ⟨_, _, _, hobject, hmembers⟩ := h _ List.mem_cons_self
    rw [← Json.object.inj hobject] at hmembers
    exact (hmembers _ List.mem_cons_self).1
  have htext : valueChars n (.array (.object ((name, value) :: ms) :: vs)) ++ (spaces m ++ text) =
      '\n' :: (spaces (n + 2) ++ ('-' :: ' ' :: (entryChars (n + 2 + 2) name value ms ++
        (itemsChars (n + 2) vs ++ (spaces m ++ text))))) := by
    rw [valueChars, itemsChars_record hname]
    simp
  rw [htext] at hc
  have harrives : c.Arrives (n + 2) ('-' :: ' ' :: (entryChars (n + 2 + 2) name value ms ++
      (itemsChars (n + 2) vs ++ (spaces m ++ text)))) s.demanding :=
    Cursor.arrives_break hc.calm hc.rest (Cursor.begins_cons (by decide) _) (by rw [hc.nest])
  have hdeep : s.indent < (n + 2 : Nat) := by omega
  have hcolumn := hfollows.column
  obtain ⟨c₁, hreach, harrives⟩ := reaches_items h harrives
    ⟨.inr ⟨rfl, hdeep⟩, hc.settled, .inl hdeep⟩ (by omega)
    ⟨hfollows.begins, by omega, hfollows.ended⟩
  rw [Nest.opened, if_pos hdeep] at harrives
  exact ⟨c₁, hreach, arrives_blockEnd harrives (by omega)⟩

end Items

/-! ## Values -/

mutual

/-- **Values.** A regular value is read as its tokens. -/
theorem readsValue : ∀ v : Json, isRegular v = true → ∀ n : Nat,
    ReadsValue n (valueChars n v) (valueTokens v)
  | .string text, _, _ => readsValue_leaf (readsLeaf_text text)
  | .whole k, _, _ => readsValue_leaf (readsLeaf_numeral (isNumeral_whole k))
  | .number _, h, _ => readsValue_leaf (readsLeaf_numeral (isNumeral_number h))
  | .array [], _, _ => readsValue_nil
  | .array (v :: vs), h, n => by
      rw [isRegular] at h
      have hitems := readsItems (v :: vs) h (n + 2)
      obtain ⟨name, value, ms, rfl, -⟩ := hitems v List.mem_cons_self
      exact readsValue_array hitems
  | .object ((name, value) :: ms), h, n => by
      rw [isRegular] at h
      exact readsValue_object (readsMembers ((name, value) :: ms) h (n + 2))
  | .object [], h, _ => absurd h nofun
  | .null, h, _ => absurd h nofun
  | .bool _, h, _ => absurd h nofun

theorem readsMembers : ∀ ms : List (String × Json), areRegular ms = true → ∀ n : Nat,
    ReadsMembers n ms
  | [], _, _ => nofun
  | (name, value) :: ms, h, n => by
      rw [areRegular, Bool.and_eq_true, Bool.and_eq_true] at h
      intro m hm
      rcases List.mem_cons.mp hm with rfl | hm
      · exact ⟨h.1.1, readsValue value h.1.2 n⟩
      · exact readsMembers ms h.2 n m hm

theorem readsItems : ∀ vs : List Json, areRecords vs = true → ∀ n : Nat, ReadsItems n vs
  | [], _, _ => nofun
  | .object ((name, value) :: ms) :: vs, h, n => by
      rw [areRecords, Bool.and_eq_true] at h
      intro v hv
      rcases List.mem_cons.mp hv with rfl | hv
      · exact ⟨name, value, ms, rfl, readsMembers ((name, value) :: ms) h.1 (n + 2)⟩
      · exact readsItems vs h.2 n v hv
  | .object [] :: _, h, _ => absurd h nofun
  | .null :: _, h, _ => absurd h nofun
  | .bool _ :: _, h, _ => absurd h nofun
  | .whole _ :: _, h, _ => absurd h nofun
  | .number _ :: _, h, _ => absurd h nofun
  | .string _ :: _, h, _ => absurd h nofun
  | .array _ :: _, h, _ => absurd h nofun

end

/-! ## Documents -/

/-- **Documents.** The tokens of an object that is a document. -/
theorem ofChars_write {name : String} {value : Json} {ms : List (String × Json)}
    (h : areRegular ((name, value) :: ms) = true) :
    Token.ofChars (write (.object ((name, value) :: ms))).toList =
      valueTokens (.object ((name, value) :: ms)) := by
  have hmembers := readsMembers _ h 0
  obtain ⟨hname, -⟩ := hmembers _ List.mem_cons_self
  have htext : (write (.object ((name, value) :: ms))).toList =
      spaces 0 ++ (entryChars 0 name value ms ++ (spaces 0 ++ [])) := by
    rw [write, String.toList_ofList, membersChars_cons hname]
    simp [spaces]
  rw [htext]
  generalize htail : entryChars 0 name value ms ++ (spaces 0 ++ []) = text
  -- a document stands outside of all blocks, and its first block is deeper than that
  let b : Nest := ⟨-1, [], []⟩
  have harrives : Cursor.Arrives { rest := spaces 0 ++ text } 0 text b :=
    Cursor.arrives_line ⟨rfl, rfl, rfl, rfl⟩ rfl rfl rfl (htail ▸ begins_entryChars hname) rfl
  have hsettled : b.Settled := fun _ h => absurd h (Option.not_mem_none _)
  have henters : b.Enters b 0 := ⟨.inl rfl, hsettled, .inl (by decide)⟩
  rw [← htail] at harrives
  obtain ⟨c₁, hreach, c₂, harrive, hbefore⟩ := reaches_members hmembers harrives henters
    ⟨Cursor.begins_nil, le_rfl, fun _ => rfl⟩
  obtain ⟨c₃, hfinish, htokens⟩ := next_finish harrive hbefore.calm hbefore.rest
  rw [htail] at hreach
  rw [Token.ofChars, scan_of_reaches hreach hfinish (by simp), htokens, hbefore.nest,
    Nest.opened, if_pos (by decide)]
  have hdeep : (((b.add [.mappingStart]).inside (0 : Nat)).add
      (membersTokens ((name, value) :: ms))).indent ≤ (0 : Nat) := le_rfl
  have houter : ((b.add [.mappingStart]).add
      (membersTokens ((name, value) :: ms) ++ [.blockEnd])).indent ≤ -1 := le_rfl
  rw [Nest.upTo_self hdeep, Nest.upTo_inside _ (by decide), Nest.upTo_self houter]
  simp [Nest.add, b, valueTokens]

end Reckoner.Yaml
