import Reckoner.Proofs.Decimal.Doubles
import Reckoner.Proofs.Session.Document
import Reckoner.Proofs.Text.Words

/-!
# `Reckoner.Proofs.Session.Rules` — what the checks of a document decide

A session is sound when every variable is and no id occurs twice. The check of a session finds
nothing exactly then; otherwise it names the first variable that breaks a rule, and of the rules
that variable breaks the one that comes first. Documents are only accepted when they are sound.

## Contents
- **Rules.** `Variable.IsSound` and `IsSoundTable`; `Breaks` and `BreaksFirst` for what a violation
  says about a variable behind others.
- **Variables.** The check of one variable against the rules.
- **Tables.** The check of a table, step by step.
- **Documents.** `validity_decided`.
-/

namespace Reckoner

/-! ## Rules -/

/-- A variable that breaks no rule on its own. -/
structure Variable.IsSound (v : Variable) : Prop where
  id : Text.trim v.id ≠ ""
  symbol : Text.trim v.symbol ≠ ""
  finite : ∀ x ∈ v.numbers, x.isFinite = true
  ordered : ∀ lo hi, v.min = some lo → v.max = some hi → lo ≤ hi

/-- Variables that break no rule, each under an id of its own. -/
structure IsSoundTable (table : List Variable) : Prop where
  sound : ∀ v ∈ table, v.IsSound
  distinct : (table.map (·.id)).Nodup

/-- A saved list whose entries break no rule, each under an id of its own. -/
structure IsSoundList (list : List SavedSession) : Prop where
  id : ∀ s ∈ list, Text.trim s.id ≠ ""
  session : ∀ s ∈ list, IsSoundTable s.session.table
  distinct : (list.map (·.id)).Nodup

/-- The variable, behind others with the given ids, breaks the rule of a violation, and the
    violation says of it what is the case. -/
def Variable.Breaks (v : Variable) (taken : List String) : Violation → Prop
  | .blankVariableId => Text.trim v.id = ""
  | .blankSymbol id => id = v.id ∧ Text.trim v.symbol = ""
  | .nonFinite id => id = v.id ∧ ∃ x ∈ v.numbers, x.isFinite = false
  | .reversedBounds id lo hi => id = v.id ∧ v.min = some lo ∧ v.max = some hi ∧ hi < lo
  | .repeatedVariableId id => id = v.id ∧ v.id ∈ taken
  | .blankSavedId | .repeatedSavedId _ => False

/-- The place of a violation's rule in the order of the rules. -/
def Violation.place : Violation → Nat
  | .blankVariableId => 0
  | .blankSymbol _ => 1
  | .nonFinite _ => 2
  | .reversedBounds .. => 3
  | .repeatedVariableId _ => 4
  | .blankSavedId => 5
  | .repeatedSavedId _ => 6

/-- The rule of the violation is broken, and none in front of it. -/
def Variable.BreaksFirst (v : Variable) (taken : List String) (violation : Violation) : Prop :=
  v.Breaks taken violation ∧ ∀ other, v.Breaks taken other → violation.place ≤ other.place

/-- Violations of one rule by one variable are the same. -/
theorem Variable.Breaks.unique {v : Variable} {taken : List String} {violation other : Violation}
    (h : v.Breaks taken violation) (hother : v.Breaks taken other)
    (hplace : violation.place = other.place) : violation = other := by
  cases violation <;> cases other <;>
    simp_all [Variable.Breaks, Violation.place]

/-- At most one violation comes first. -/
theorem Variable.BreaksFirst.unique {v : Variable} {taken : List String}
    {violation other : Violation} (h : v.BreaksFirst taken violation)
    (hother : v.BreaksFirst taken other) : violation = other :=
  h.1.unique hother.1 (Nat.le_antisymm (h.2 _ hother.1) (hother.2 _ h.1))

/-- Which ids are taken counts, not their order. -/
theorem Variable.breaksFirst_congr {v : Variable} {taken others : List String}
    (h : v.id ∈ taken ↔ v.id ∈ others) (violation : Violation) :
    v.BreaksFirst taken violation ↔ v.BreaksFirst others violation := by
  have hbreaks : v.Breaks taken = v.Breaks others := by
    funext violation
    cases violation <;> simp [Variable.Breaks, h]
  rw [Variable.BreaksFirst, Variable.BreaksFirst, hbreaks]

/-! ## Variables -/

theorem isBlankText_eq_false_iff {s : String} : Text.isBlankText s = false ↔ Text.trim s ≠ "" := by
  rw [ne_eq, Text.trim_eq_empty_iff, Bool.not_eq_true]

/-- A violation by a variable whose id and symbol are there names another rule. -/
theorem Variable.Breaks.two_le_place {v : Variable} {taken : List String} {violation : Violation}
    (h : v.Breaks taken violation) (hid : Text.trim v.id ≠ "") (hsymbol : Text.trim v.symbol ≠ "") :
    2 ≤ violation.place := by
  cases violation with
  | blankVariableId => exact absurd h hid
  | blankSymbol id => exact absurd h.2 hsymbol
  | _ => simp [Violation.place]

/-- A violation by a variable whose numbers are finite as well names one of the last rules. -/
theorem Variable.Breaks.three_le_place {v : Variable} {taken : List String} {violation : Violation}
    (h : v.Breaks taken violation) (hid : Text.trim v.id ≠ "") (hsymbol : Text.trim v.symbol ≠ "")
    (hfinite : ∀ x ∈ v.numbers, x.isFinite = true) : 3 ≤ violation.place := by
  cases violation with
  | blankVariableId => exact absurd h hid
  | blankSymbol id => exact absurd h.2 hsymbol
  | nonFinite id =>
      obtain ⟨-, x, hx, hinfinite⟩ := h
      exact absurd (hfinite x hx) (Bool.not_eq_true _ ▸ hinfinite)
  | _ => simp [Violation.place]

/-- What the check of one variable finds comes first, whatever ids are taken. -/
theorem Variable.breaksFirst_of_violation? {v : Variable} {violation : Violation}
    (h : v.violation? = some violation) (taken : List String) : v.BreaksFirst taken violation := by
  unfold Variable.violation? at h
  by_cases hid : Text.trim v.id = ""
  · rw [if_pos (Text.trim_eq_empty_iff.mp hid)] at h
    cases h
    exact ⟨hid, fun _ _ => Nat.zero_le _⟩
  rw [if_neg (mt Text.trim_eq_empty_iff.mpr hid)] at h
  by_cases hsymbol : Text.trim v.symbol = ""
  · rw [if_pos (Text.trim_eq_empty_iff.mp hsymbol)] at h
    cases h
    refine ⟨⟨rfl, hsymbol⟩, fun other hother => Nat.one_le_iff_ne_zero.mpr fun hplace => ?_⟩
    cases other with
    | blankVariableId => exact hid hother
    | _ => simp [Violation.place] at hplace
  rw [if_neg (mt Text.trim_eq_empty_iff.mpr hsymbol)] at h
  split at h
  · rename_i hany
    cases h
    obtain ⟨x, hx, hinfinite⟩ := List.any_eq_true.mp hany
    exact ⟨⟨rfl, x, hx, by simpa using hinfinite⟩, fun _ hother => hother.two_le_place hid hsymbol⟩
  rename_i hany
  have hfinite : ∀ x ∈ v.numbers, x.isFinite = true := by simpa using hany
  split at h
  · rename_i lo hi hlo hhi
    split at h
    · rename_i hless
      cases h
      exact ⟨⟨rfl, hlo, hhi, hless⟩, fun _ hother => hother.three_le_place hid hsymbol hfinite⟩
    · exact absurd h nofun
  · exact absurd h nofun

/-- A variable on its own is found sound when it is. -/
theorem Variable.violation?_eq_none_iff {v : Variable} : v.violation? = none ↔ v.IsSound := by
  have hbounds : ∀ lo hi, v.min = some lo → v.max = some hi →
      (∀ x ∈ v.numbers, x.isFinite = true) → (lo ≤ hi ↔ ¬ hi < lo) := fun lo hi hlo hhi hfinite =>
    le_iff_not_lt (hfinite lo (by simp [Variable.numbers, hlo]))
      (hfinite hi (by simp [Variable.numbers, hhi]))
  constructor
  · intro h
    have hfinite : ∀ x ∈ v.numbers, x.isFinite = true := Variable.isFinite_of_valid h
    unfold Variable.violation? at h
    split at h
    · exact absurd h (Option.some_ne_none _)
    rename_i hid
    split at h
    · exact absurd h (Option.some_ne_none _)
    rename_i hsymbol
    split at h
    · exact absurd h (Option.some_ne_none _)
    refine ⟨mt Text.trim_eq_empty_iff.mp hid, mt Text.trim_eq_empty_iff.mp hsymbol, hfinite,
      fun lo hi hlo hhi => (hbounds lo hi hlo hhi hfinite).mpr fun hless => ?_⟩
    simp [hlo, hhi, hless] at h
  · rintro ⟨hid, hsymbol, hfinite, hordered⟩
    have hany : v.numbers.any (!·.isFinite) = false := by simpa using hfinite
    unfold Variable.violation?
    rw [if_neg (mt Text.trim_eq_empty_iff.mpr hid), if_neg (mt Text.trim_eq_empty_iff.mpr hsymbol),
      hany, if_neg Bool.false_ne_true]
    split
    · rename_i lo hi hlo hhi
      exact if_neg ((hbounds lo hi hlo hhi hfinite).mp (hordered lo hi hlo hhi))
    · rfl

/-- All that a sound variable can do wrong is to come under an id that is taken. -/
theorem Variable.IsSound.of_breaks {v : Variable} {taken : List String} {violation : Violation}
    (hsound : v.IsSound) (h : v.Breaks taken violation) :
    violation = .repeatedVariableId v.id ∧ v.id ∈ taken := by
  cases violation with
  | blankVariableId => exact absurd h hsound.id
  | blankSymbol id => exact absurd h.2 hsound.symbol
  | nonFinite id =>
      obtain ⟨-, x, hx, hinfinite⟩ := h
      exact absurd (hsound.finite x hx) (Bool.not_eq_true _ ▸ hinfinite)
  | reversedBounds id lo hi =>
      obtain ⟨-, hlo, hhi, hless⟩ := h
      have hfinite : lo.isFinite = true ∧ hi.isFinite = true :=
        ⟨hsound.finite lo (by simp [Variable.numbers, hlo]),
          hsound.finite hi (by simp [Variable.numbers, hhi])⟩
      exact absurd hless
        ((le_iff_not_lt hfinite.1 hfinite.2).mp (hsound.ordered lo hi hlo hhi))
  | repeatedVariableId id =>
      obtain ⟨rfl, htaken⟩ := h
      exact ⟨rfl, htaken⟩
  | blankSavedId => exact h.elim
  | repeatedSavedId id => exact h.elim

/-! ## Tables -/

/-- A table in which no ids are taken is found sound when it is. -/
theorem tableViolation?_eq_none_iff_isSound {table : List Variable} :
    tableViolation? [] table = none ↔ IsSoundTable table := by
  rw [tableViolation?_eq_none_iff]
  constructor
  · rintro ⟨hsound, hdistinct, -⟩
    exact ⟨fun v hv => Variable.violation?_eq_none_iff.mp (hsound v hv), hdistinct⟩
  · rintro ⟨hsound, hdistinct⟩
    exact ⟨fun v hv => Variable.violation?_eq_none_iff.mpr (hsound v hv), hdistinct,
      fun _ _ => List.not_mem_nil⟩

/-- Behind variables that break no rule the check goes on with their ids taken. -/
theorem tableViolation?_append {taken : List String} {before rest : List Variable}
    (h : tableViolation? taken before = none) :
    tableViolation? taken (before ++ rest) =
      tableViolation? ((before.map (·.id)).reverse ++ taken) rest := by
  induction before generalizing taken with
  | nil => rfl
  | cons v vs ih =>
      rw [tableViolation?] at h
      rw [List.cons_append, tableViolation?]
      cases hv : v.violation? with
      | some violation =>
          rw [hv] at h
          exact absurd h (Option.some_ne_none _)
      | none =>
          rw [hv] at h
          by_cases htaken : v.id ∈ taken
          · exact absurd ((if_pos htaken).symm.trans h) (Option.some_ne_none _)
          · dsimp only at h ⊢
            rw [if_neg htaken] at h ⊢
            rw [ih h, List.map_cons, List.reverse_cons, List.append_assoc, List.singleton_append]

/-- The check of a table finds what its first variable breaks first, if it breaks a rule, and what
    it finds behind that variable otherwise. -/
theorem tableViolation?_cons_eq_some_iff {taken : List String} {v : Variable} {vs : List Variable}
    {violation : Violation} :
    tableViolation? taken (v :: vs) = some violation ↔
      v.BreaksFirst taken violation ∨
        (v.IsSound ∧ v.id ∉ taken ∧ tableViolation? (v.id :: taken) vs = some violation) := by
  rw [tableViolation?]
  -- the rules of the variable itself come first, then that of its id, then those behind it
  cases hv : v.violation? with
  | some first =>
      have hfirst := Variable.breaksFirst_of_violation? hv taken
      constructor
      · intro h
        exact .inl (Option.some.inj h ▸ hfirst)
      · rintro (h | ⟨hsound, -, -⟩)
        · exact congrArg some (hfirst.unique h)
        · rw [Variable.violation?_eq_none_iff.mpr hsound] at hv
          exact absurd hv.symm (Option.some_ne_none _)
  | none =>
      have hsound := Variable.violation?_eq_none_iff.mp hv
      dsimp only
      by_cases htaken : v.id ∈ taken
      · have hfirst : v.BreaksFirst taken (.repeatedVariableId v.id) :=
          ⟨⟨rfl, htaken⟩, fun other hother => (hsound.of_breaks hother).1 ▸ Nat.le_refl _⟩
        rw [if_pos htaken]
        constructor
        · intro h
          exact .inl (Option.some.inj h ▸ hfirst)
        · rintro (h | ⟨-, hnew, -⟩)
          · exact congrArg some (hfirst.unique h)
          · exact absurd htaken hnew
      · rw [if_neg htaken]
        constructor
        · exact fun h => .inr ⟨hsound, htaken, h⟩
        · rintro (h | ⟨-, -, h⟩)
          · exact absurd (hsound.of_breaks h.1).2 htaken
          · exact h

/-- What the check of a table finds is broken by some variable, those before it breaking no rule. -/
theorem exists_of_tableViolation? {taken : List String} {table : List Variable}
    {violation : Violation} (h : tableViolation? taken table = some violation) :
    ∃ before v after, table = before ++ v :: after ∧ tableViolation? taken before = none ∧
      v.BreaksFirst ((before.map (·.id)).reverse ++ taken) violation := by
  induction table generalizing taken with
  | nil => exact absurd h nofun
  | cons v vs ih =>
      rcases tableViolation?_cons_eq_some_iff.mp h with hfirst | ⟨hsound, hnew, hrest⟩
      · exact ⟨[], v, vs, rfl, rfl, hfirst⟩
      · obtain ⟨before, u, after, rfl, hbefore, hfirst⟩ := ih hrest
        refine ⟨v :: before, u, after, rfl, ?_, ?_⟩
        · rw [tableViolation?, Variable.violation?_eq_none_iff.mpr hsound]
          dsimp only
          rw [if_neg hnew, hbefore]
        · rwa [List.map_cons, List.reverse_cons, List.append_assoc, List.singleton_append]

/-- **The first violation.** The check of a table names the first variable that breaks a rule, those
    before it being sound, and the rule which that variable breaks first. -/
theorem tableViolation?_eq_some_iff {table : List Variable} {violation : Violation} :
    tableViolation? [] table = some violation ↔
      ∃ before v after, table = before ++ v :: after ∧ IsSoundTable before ∧
        v.BreaksFirst (before.map (·.id)) violation := by
  constructor
  · intro h
    obtain ⟨before, v, after, htable, hbefore, hfirst⟩ := exists_of_tableViolation? h
    refine ⟨before, v, after, htable, tableViolation?_eq_none_iff_isSound.mp hbefore, ?_⟩
    exact (Variable.breaksFirst_congr (by simp) violation).mp hfirst
  · rintro ⟨before, v, after, rfl, hsound, hfirst⟩
    rw [tableViolation?_append (tableViolation?_eq_none_iff_isSound.mpr hsound),
      tableViolation?_cons_eq_some_iff]
    exact .inl ((Variable.breaksFirst_congr (by simp) violation).mp hfirst)

/-! ## Documents -/

/-- A saved list in which no ids are taken is found sound when it is. -/
theorem savedViolation?_eq_none_iff_isSound {list : List SavedSession} :
    savedViolation? [] list = none ↔ IsSoundList list := by
  have hentry : ∀ s : SavedSession,
      s.violation? = none ↔ Text.trim s.id ≠ "" ∧ IsSoundTable s.session.table := by
    intro s
    rw [← tableViolation?_eq_none_iff_isSound, ← isBlankText_eq_false_iff]
    unfold SavedSession.violation?
    cases Text.isBlankText s.id with
    | true => simp
    | false => simp [Session.violation?]
  rw [savedViolation?_eq_none_iff]
  constructor
  · rintro ⟨hsound, hdistinct, -⟩
    exact ⟨fun s hs => ((hentry s).mp (hsound s hs)).1, fun s hs => ((hentry s).mp (hsound s hs)).2,
      hdistinct⟩
  · rintro ⟨hid, hsession, hdistinct⟩
    exact ⟨fun s hs => (hentry s).mpr ⟨hid s hs, hsession s hs⟩, hdistinct,
      fun _ _ => List.not_mem_nil⟩

/-- **Validity is decided.** A session is found valid exactly when its table is sound; otherwise the
    first variable that breaks a rule is named, with the rule it breaks first. Only sound sessions
    and sound saved lists are read from documents. -/
theorem validity_decided :
    (∀ s : Session, s.violation? = none ↔ IsSoundTable s.table) ∧
    (∀ (s : Session) (violation : Violation), s.violation? = some violation ↔
      ∃ before v after, s.table = before ++ v :: after ∧ IsSoundTable before ∧
        v.BreaksFirst (before.map (·.id)) violation) ∧
    (∀ (text : String) (s : Session), Session.ofJson text = .ok s → IsSoundTable s.table) ∧
    (∀ (text : String) (s : Session), Session.ofYaml text = .ok s → IsSoundTable s.table) ∧
    ∀ (text : String) (list : List SavedSession),
      SavedSession.listOfJson text = .ok list → IsSoundList list := by
  refine ⟨fun s => tableViolation?_eq_none_iff_isSound, fun s _ => tableViolation?_eq_some_iff,
    ?_, ?_, ?_⟩
  · intro text s hread
    exact tableViolation?_eq_none_iff_isSound.mp (Session.valid_of_ofJson hread)
  · intro text s hread
    exact tableViolation?_eq_none_iff_isSound.mp (Session.valid_of_ofYaml hread)
  · intro text list hread
    exact savedViolation?_eq_none_iff_isSound.mp (SavedSession.valid_of_listOfJson hread)

/-- A result that is there is the one that is returned. -/
theorem eq_ok_of_toOption {ε α : Type} {result : Except ε α} {a : α}
    (h : result.toOption = some a) : result = .ok a := by
  cases result with
  | error e => exact absurd h nofun
  | ok b => exact congrArg Except.ok (Option.some.inj h)

/-- A variable between equal bounds, in a document of each kind. -/
theorem validity_decided_pump :
    let pump : Session :=
      { table := [{ id := "p", symbol := "p", value := 2, min := some 1, max := some 1 }]
        formula := "p" }
    let list : List SavedSession := [⟨"s", "", ⟨0⟩, pump⟩]
    (Session.ofJson pump.toJson.compact = .ok pump ∧
      Session.ofYaml "formula: p\nvariables: [{id: p, symbol: p, value: 2, min: 1, max: 1}]" =
        .ok pump ∧
      SavedSession.listOfJson (SavedSession.listToJson list) = .ok list) ∧
      IsSoundTable pump.table ∧ IsSoundList list := by
  intro pump list
  have hpump : pump.violation? = none := by decide +kernel
  have hlist : SavedSession.listOfJson (SavedSession.listToJson list) = .ok list :=
    SavedSession.listOfJson_listToJson (by decide +kernel) (by decide +kernel)
  have hyaml : Session.ofYaml
      "formula: p\nvariables: [{id: p, symbol: p, value: 2, min: 1, max: 1}]" = .ok pump :=
    eq_ok_of_toOption (by decide +kernel)
  exact ⟨⟨Session.ofJson_toJson hpump, hyaml, hlist⟩, validity_decided.2.2.2.1 _ _ hyaml,
    validity_decided.2.2.2.2 _ _ hlist⟩

end Reckoner
