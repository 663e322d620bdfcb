import Reckoner.Proofs.Json.Floats
import Reckoner.Proofs.Json.Strings

/-!
# `Reckoner.Proofs.Json.Compact` — a written value is read back

Whatever follows, reading a text that begins with a written value gives the draft of that value and
leaves what follows. A double that is not finite comes back as null.

## Contents
- **Drafts.** `Draft.ofJson`: the draft of a value.
- **Leaves.** `Reads`, and how words, strings and numbers are read.
- **Lists and objects.** `readsBack_array` and `readsBack_object`: they are read if what is in them is.
- **Values.** `readsBack` and `read_compact`.
-/

namespace Reckoner.Json

/-! ## Drafts -/

/-- The literal of a whole number. -/
def wholeChars (n : Int) : List Char := (if n < 0 then ['-'] else []) ++ Decimal.digitsOf n.natAbs

mutual

/-- The draft of a value. -/
def Draft.ofJson : Json → Draft
  | .null => .null
  | .bool b => .bool b
  | .whole n => .number (wholeChars n)
  | .number x => if x.isFinite then .number (numberChars x) else .null
  | .string s => .string (some s)
  | .array list => .array (Draft.ofItems list) none
  | .object list => .object (Draft.ofMembers list) none

/-- The drafts of items. -/
def Draft.ofItems : List Json → List Draft
  | [] => []
  | item :: more => Draft.ofJson item :: Draft.ofItems more

/-- The drafts of members. -/
def Draft.ofMembers : List (String × Json) → List (Option String × Draft)
  | [] => []
  | (name, content) :: more => (some name, Draft.ofJson content) :: Draft.ofMembers more

end

/-! ## Leaves -/

/-- The value in front of a text has a draft, and leaves a rest. -/
def Reads (cs : List Char) (draft : Draft) (rest : List Char) : Prop :=
  (value cs).1 = draft ∧ (value cs).2.1 = rest

section Leaves

variable {rest : List Char}

theorem reads_null (rest : List Char) : Reads ("null".toList ++ rest) .null rest := by
  change Reads ('n' :: 'u' :: 'l' :: 'l' :: rest) _ _
  rw [Reads, value]
  exact ⟨rfl, rfl⟩

theorem reads_bool (b : Bool) (rest : List Char) :
    Reads (leafChars (.bool b) ++ rest) (.bool b) rest := by
  cases b with
  | true =>
      change Reads ('t' :: 'r' :: 'u' :: 'e' :: rest) _ _
      rw [Reads, value]
      exact ⟨rfl, rfl⟩
  | false =>
      change Reads ('f' :: 'a' :: 'l' :: 's' :: 'e' :: rest) _ _
      rw [Reads, value]
      exact ⟨rfl, rfl⟩

theorem reads_string (s : String) (rest : List Char) :
    Reads (quote s ++ rest) (.string (some s)) rest := by
  have hquote : quote s ++ rest = '"' :: (s.toList.flatMap escape ++ '"' :: rest) := by
    simp [quote]
  rw [hquote, Reads, value, if_neg (by decide), if_pos (by decide)]
  exact stringDraft_quoted s rest

/-- The first character of a number begins nothing else. -/
theorem number_start {c : Char} (h : c = '-' ∨ c.isDigit = true) :
    isSpace c = false ∧ c ≠ '"' ∧ c ≠ ']' := by
  refine ⟨Bool.eq_false_iff.mpr fun hspace => ?_, ?_, ?_⟩
  · simp only [isSpace, Bool.or_eq_true, beq_iff_eq] at hspace
    rcases hspace with ((rfl | rfl) | rfl) | rfl <;> exact absurd h (by decide)
  · rintro rfl
    exact absurd h (by decide)
  · rintro rfl
    exact absurd h (by decide)

/-- A literal is read if it is scanned and begins like a number. -/
theorem reads_literal {literal : List Char}
    (hfront : ∃ c tail, literal = c :: tail ∧ (c = '-' ∨ c.isDigit = true))
    (hscan : numberLiteral (literal ++ rest) = .ok literal) :
    Reads (literal ++ rest) (.number literal) rest := by
  obtain ⟨c, tail, rfl, hc⟩ := hfront
  obtain ⟨hspace, hquote, -⟩ := number_start hc
  have hnumber : (c == '-' || c.isDigit) = true := by
    rw [Bool.or_eq_true, beq_iff_eq]
    exact hc
  have hdrop : (c :: tail ++ rest).drop (c :: tail).length = rest := List.drop_left
  rw [List.cons_append] at hscan hdrop ⊢
  rw [Reads, value, if_neg (Bool.eq_false_iff.mp hspace), if_neg (by simpa using hquote),
    if_pos hnumber, numberDraft, hscan]
  exact ⟨rfl, hdrop⟩

theorem reads_number {x : Float} (h : x.isFinite = true) (hrest : EndsNumber rest) :
    Reads (numberChars x ++ rest) (.number (numberChars x)) rest :=
  reads_literal (numberChars_eq_cons h) (numberLiteral_numberChars h hrest)

theorem wholeChars_eq_cons (n : Int) :
    ∃ c tail, wholeChars n = c :: tail ∧ (c = '-' ∨ c.isDigit = true) := by
  obtain ⟨c, tail, hdigits⟩ := List.exists_cons_of_ne_nil (Decimal.digitsOf_ne_nil n.natAbs)
  unfold wholeChars
  split
  · exact ⟨'-', _, rfl, .inl rfl⟩
  · refine ⟨c, tail, hdigits, .inr (Decimal.isDigit_of_mem_digitsOf (n := n.natAbs) ?_)⟩
    rw [hdigits]
    exact List.mem_cons_self

theorem reads_whole (n : Int) (hrest : EndsNumber rest) :
    Reads (wholeChars n ++ rest) (.number (wholeChars n)) rest := by
  have hwell : NumberParts.WellFormed { whole := Decimal.digitsOf n.natAbs } :=
    wellFormed_of_isWhole (isWhole_digitsOf _) fun _ h => absurd h List.not_mem_nil
  have hchars : wholeChars n = (if decide (n < 0) then ['-'] else []) ++
      ({ whole := Decimal.digitsOf n.natAbs } : NumberParts).chars := by
    simp [wholeChars, NumberParts.chars, NumberParts.placesChars, NumberParts.powerChars]
  refine reads_literal (wholeChars_eq_cons n) ?_
  rw [hchars]
  exact numberLiteral_chars hwell (decide (n < 0)) hrest

end Leaves

/-! ## Lists and objects -/

/-- A value is read back, whatever follows. -/
def ReadsBack (j : Json) : Prop :=
  ∀ rest, EndsNumber rest → Reads (compactChars j ++ rest) (.ofJson j) rest

/-- A text that stays in front when blanks are skipped, and is no empty list. -/
def BeginsItem (cs : List Char) : Prop := ∃ c tail, cs = c :: tail ∧ isSpace c = false ∧ c ≠ ']'

theorem BeginsItem.of_number {cs : List Char}
    (h : ∃ c tail, cs = c :: tail ∧ (c = '-' ∨ c.isDigit = true)) : BeginsItem cs := by
  obtain ⟨c, tail, rfl, hc⟩ := h
  exact ⟨c, tail, rfl, (number_start hc).1, (number_start hc).2.2⟩

theorem beginsItem_compactChars (j : Json) : BeginsItem (compactChars j) := by
  cases j with
  | null => exact ⟨'n', _, rfl, by decide⟩
  | bool b =>
      cases b with
      | true => exact ⟨'t', _, rfl, by decide⟩
      | false => exact ⟨'f', _, rfl, by decide⟩
  | whole n => exact .of_number (wholeChars_eq_cons n)
  | number x =>
      by_cases h : x.isFinite = true
      · exact .of_number (numberChars_eq_cons h)
      · refine ⟨'n', "ull".toList, ?_, by decide⟩
        change numberChars x = _
        rw [numberChars, if_neg h]
        rfl
  | string s => exact ⟨'"', _, rfl, by decide⟩
  | array list =>
      cases list with
      | nil => exact ⟨'[', _, rfl, by decide⟩
      | cons item more => exact ⟨'[', _, rfl, by decide⟩
  | object list =>
      cases list with
      | nil => exact ⟨'\x7b', _, rfl, by decide⟩
      | cons member more => exact ⟨'\x7b', _, rfl, by decide⟩

/-- What closes or goes on behind a value is no part of a number. -/
theorem endsNumber_cons {c : Char} (h : c ∈ [',', ']', '\x7d']) (rest : List Char) :
    EndsNumber (c :: rest) := by
  intro d hd
  obtain rfl := Option.some.inj hd
  simp only [List.mem_cons, List.not_mem_nil, or_false] at h
  rcases h with rfl | rfl | rfl <;> decide

theorem skipSpaces_cons {c : Char} (h : isSpace c = false) (cs : List Char) :
    skipSpaces (c :: cs) = c :: cs := by
  simp [skipSpaces, h]

/-- The items of a list, by what stands behind the first one. -/
theorem items_eq {cs behind : List Char} {draft : Draft} (h : Reads cs draft behind) :
    ((items cs).1, (items cs).2.1) =
      match skipSpaces behind with
      | [] => (([draft], some .truncated), [])
      | ']' :: rest => (([draft], none), rest)
      | ',' :: rest => ((draft :: (items rest).1.1, (items rest).1.2), (items rest).2.1)
      | _ => (([draft], some .malformed), []) := by
  obtain ⟨rfl, rfl⟩ := h
  rw [items.eq_1 cs]
  -- each branch of the reader carries a proof about its own rest, so that what stands behind the first
  -- item cannot be rewritten in the match: it is opened, branch by branch
  generalize value cs = first
  obtain ⟨draft, behind⟩ := first
  dsimp only
  split
  · rename_i heq
    dsimp only [Rest.stop]
    rw [heq]
  · rename_i heq
    dsimp only
    rw [heq]
    rfl
  · rename_i heq
    dsimp only
    rw [heq]
    rfl
  · rename_i hnil hclose hnext
    dsimp only [Rest.stop]
    split
    · rename_i heq
      exact absurd heq hnil
    · rename_i heq
      exact absurd heq (hclose _)
    · rename_i heq
      exact absurd heq (hnext _)
    · rfl

/-- The members of an object, by what stands behind the first one. -/
theorem members_eq {name : String} {cs behind : List Char} {draft : Draft}
    (h : Reads cs draft behind) :
    ((members (quote name ++ ':' :: cs)).1, (members (quote name ++ ':' :: cs)).2.1) =
      match skipSpaces behind with
      | [] => (([(some name, draft)], some .truncated), [])
      | '\x7d' :: rest => (([(some name, draft)], none), rest)
      | ',' :: rest =>
        (((some name, draft) :: (members rest).1.1, (members rest).1.2), (members rest).2.1)
      | _ => (([(some name, draft)], some .malformed), []) := by
  obtain ⟨rfl, rfl⟩ := h
  have hquote : quote name ++ ':' :: cs =
      '"' :: (name.toList.flatMap escape ++ '"' :: ':' :: cs) := by
    simp [quote]
  rw [hquote, members.eq_1 ('"' :: _)]
  split
  · -- the name: nothing stands between the quote and the front
    rename_i tail hfront
    rw [skipSpaces_cons (by decide)] at hfront
    obtain ⟨-, rfl⟩ := List.cons.inj hfront
    obtain ⟨hkey, hbehind⟩ := stringDraft_quoted name (':' :: cs)
    generalize stringDraft (name.toList.flatMap escape ++ '"' :: ':' :: cs) = key at hkey hbehind
    obtain ⟨key, afterKey, hlength⟩ := key
    dsimp only at hkey hbehind ⊢
    subst hkey hbehind
    dsimp only [Draft.name?]
    split
    · -- the colon, and then what stands behind the value, opened as for items
      rename_i behindColon hcolon
      rw [skipSpaces_cons (by decide)] at hcolon
      obtain ⟨-, rfl⟩ := List.cons.inj hcolon
      split
      · rename_i heq
        dsimp only [Rest.stop]
        rw [heq]
      · rename_i heq
        dsimp only
        rw [heq]
        rfl
      · rename_i heq
        dsimp only
        rw [heq]
        rfl
      · rename_i hnil hclose hnext
        dsimp only [Rest.stop]
        split
        · rename_i heq
          exact absurd heq hnil
        · rename_i heq
          exact absurd heq (hclose _)
        · rename_i heq
          exact absurd heq (hnext _)
        · rfl
    · rename_i hcolon
      rw [skipSpaces_cons (by decide)] at hcolon
      exact absurd hcolon (List.cons_ne_nil _ _)
    · rename_i hcolon _
      exact absurd (skipSpaces_cons (by decide) cs) (hcolon cs)
  · rename_i hfront
    rw [skipSpaces_cons (by decide)] at hfront
    exact absurd hfront (List.cons_ne_nil _ _)
  · rename_i hfront _
    exact absurd (skipSpaces_cons (by decide) _) (hfront _)

/-- The items of a list are read if each of them is. -/
theorem items_compact {item : Json} {more : List Json}
    (h : ∀ j ∈ item :: more, ReadsBack j) (rest : List Char) :
    ((items (compactChars item ++ (compactItems more ++ ']' :: rest))).1,
      (items (compactChars item ++ (compactItems more ++ ']' :: rest))).2.1) =
        ((Draft.ofItems (item :: more), none), rest) := by
  induction more generalizing item with
  | nil =>
      rw [compactItems, List.nil_append,
        items_eq (h item List.mem_cons_self _ (endsNumber_cons (by decide) rest)),
        skipSpaces_cons (by decide)]
      rfl
  | cons next more ih =>
      have hmore := Prod.mk.inj (ih fun j hj => h j (List.mem_cons_of_mem _ hj))
      have hchars : compactItems (next :: more) ++ ']' :: rest =
          ',' :: (compactChars next ++ (compactItems more ++ ']' :: rest)) := by
        simp [compactItems]
      rw [hchars, items_eq (h item List.mem_cons_self _ (endsNumber_cons (by decide) _)),
        skipSpaces_cons (by decide)]
      simp only [hmore.1, hmore.2]
      rfl

/-- The members of an object are read if the value of each of them is. -/
theorem members_compact {name : String} {content : Json} {more : List (String × Json)}
    (h : ∀ m ∈ (name, content) :: more, ReadsBack m.2) (rest : List Char) :
    ((members (quote name ++ ':' :: (compactChars content ++
        (compactMembers more ++ '\x7d' :: rest)))).1,
      (members (quote name ++ ':' :: (compactChars content ++
        (compactMembers more ++ '\x7d' :: rest)))).2.1) =
        ((Draft.ofMembers ((name, content) :: more), none), rest) := by
  induction more generalizing name content with
  | nil =>
      have hvalue := h (name, content) List.mem_cons_self
      rw [compactMembers, List.nil_append,
        members_eq (hvalue _ (endsNumber_cons (by decide) rest)), skipSpaces_cons (by decide)]
      rfl
  | cons next more ih =>
      obtain ⟨name', content'⟩ := next
      have hvalue := h (name, content) List.mem_cons_self
      have hmore := Prod.mk.inj (ih fun m hm => h m (List.mem_cons_of_mem _ hm))
      have hchars : compactMembers ((name', content') :: more) ++ '\x7d' :: rest =
          ',' :: (quote name' ++ ':' :: (compactChars content' ++
            (compactMembers more ++ '\x7d' :: rest))) := by
        simp [compactMembers]
      rw [hchars, members_eq (hvalue _ (endsNumber_cons (by decide) _)),
        skipSpaces_cons (by decide)]
      simp only [hmore.1, hmore.2]
      rfl

/-- A list is read back if its items are. -/
theorem readsBack_array {list : List Json} (h : ∀ j ∈ list, ReadsBack j) :
    ReadsBack (.array list) := by
  intro rest _
  -- an empty list is written and read without looking for items
  cases list with
  | nil =>
      change Reads ('[' :: ']' :: rest) _ _
      rw [Reads, value]
      exact ⟨rfl, rfl⟩
  | cons item more =>
      obtain ⟨c, tail, hc, hspace, hclose⟩ := beginsItem_compactChars item
      have hitems := Prod.mk.inj (items_compact h rest)
      have hchars : compactChars (.array (item :: more)) ++ rest =
          '[' :: (compactChars item ++ (compactItems more ++ ']' :: rest)) := by
        simp [compactChars]
      have hskip : skipSpaces (compactChars item ++ (compactItems more ++ ']' :: rest)) =
          c :: (tail ++ (compactItems more ++ ']' :: rest)) := by
        rw [hc, List.cons_append, skipSpaces_cons hspace]
      rw [hchars, Reads, value]
      rw [if_neg (by decide), if_neg (by decide), if_neg (by decide), if_neg (by decide),
        if_neg (by decide), if_neg (by decide), if_pos (by decide)]
      -- the first item begins neither like a closed list nor like the end of the text
      split
      · rename_i heq
        rw [hskip] at heq
        exact absurd (List.cons.inj heq).1 hclose
      · rename_i heq
        rw [hskip] at heq
        exact absurd heq (List.cons_ne_nil _ _)
      · refine ⟨?_, hitems.2⟩
        simp only [hitems.1]
        rfl

/-- An object is read back if the values of its members are. -/
theorem readsBack_object {list : List (String × Json)} (h : ∀ m ∈ list, ReadsBack m.2) :
    ReadsBack (.object list) := by
  intro rest _
  cases list with
  | nil =>
      change Reads ('\x7b' :: '\x7d' :: rest) _ _
      rw [Reads, value]
      exact ⟨rfl, rfl⟩
  | cons member more =>
      obtain ⟨name, content⟩ := member
      have hmembers := Prod.mk.inj (members_compact h rest)
      have hchars : compactChars (.object ((name, content) :: more)) ++ rest =
          '\x7b' :: (quote name ++ ':' :: (compactChars content ++
            (compactMembers more ++ '\x7d' :: rest))) := by
        simp [compactChars]
      have hskip : ∀ cs, skipSpaces (quote name ++ cs) =
          '"' :: (name.toList.flatMap escape ++ ['"'] ++ cs) := fun cs =>
        skipSpaces_cons (by decide) _
      rw [hchars, Reads, value]
      rw [if_neg (by decide), if_neg (by decide), if_neg (by decide), if_neg (by decide),
        if_neg (by decide), if_neg (by decide), if_neg (by decide), if_pos (by decide)]
      split
      · rename_i heq
        rw [hskip] at heq
        exact absurd (List.cons.inj heq).1 (by decide)
      · rename_i heq
        rw [hskip] at heq
        exact absurd heq (List.cons_ne_nil _ _)
      · refine ⟨?_, hmembers.2⟩
        simp only [hmembers.1]
        rfl

/-! ## Values -/

/-- **A written value is read back**, whatever follows that is no part of a number. -/
theorem readsBack : ∀ j : Json, ReadsBack j
  | .null => fun rest _ => reads_null rest
  | .bool b => fun rest _ => reads_bool b rest
  | .whole n => fun _ hrest => reads_whole n hrest
  | .number x => fun rest hrest => by
      change Reads (numberChars x ++ rest)
        (if x.isFinite then .number (numberChars x) else .null) rest
      by_cases h : x.isFinite = true
      · rw [if_pos h]
        exact reads_number h hrest
      · rw [if_neg h, numberChars, if_neg h]
        exact reads_null rest
  | .string s => fun rest _ => reads_string s rest
  | .array list => readsBack_array fun j _ => readsBack j
  | .object list => readsBack_object fun m _ => readsBack m.2
termination_by j => sizeOf j
decreasing_by
  -- items and members stand in lists of their own inside the value
  · rename_i hmem
    have hless := List.sizeOf_lt_of_mem hmem
    rw [Json.array.sizeOf_spec]
    omega
  · rename_i hmem
    have hless := List.sizeOf_lt_of_mem hmem
    obtain ⟨name, content⟩ := m
    rw [Prod.mk.sizeOf_spec] at hless
    rw [Json.object.sizeOf_spec]
    dsimp only
    omega

/-- **A written text is read as one draft**, with nothing behind it. -/
theorem read_compact (j : Json) : Draft.read j.compact = (.ofJson j, false) := by
  obtain ⟨hdraft, hrest⟩ := readsBack j [] (fun _ h => absurd h nofun)
  rw [List.append_nil] at hdraft hrest
  change ((value j.compact.toList).1, !(skipSpaces (value j.compact.toList).2.1).isEmpty) = _
  rw [Json.compact, String.toList_ofList, hdraft, hrest]
  rfl

theorem decode_compact {α : Type} (decoder : Draft → Document.Decoded α) (j : Json) :
    decode decoder j.compact = decoder (.ofJson j) := by
  rw [decode, read_compact]
  dsimp only
  cases decoder (.ofJson j) with
  | error e => rfl
  | ok a => rfl

end Reckoner.Json
