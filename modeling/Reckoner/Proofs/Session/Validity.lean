import Reckoner.Session.Validity

/-!
# `Reckoner.Proofs.Session.Validity` — what the checks of a session decide

The checks walk through a list with the ids seen so far; the lemmas say what they decide about the
list as a whole.
-/

namespace Reckoner

/-- The ids of a list are new and distinct when the first one is new and the others are, that one
    being taken. -/
theorem fresh_cons_iff {α : Type} (id : α → String) (taken : List String) (a : α) (as : List α) :
    (((a :: as).map id).Nodup ∧ ∀ b ∈ a :: as, id b ∉ taken) ↔
      id a ∉ taken ∧ (as.map id).Nodup ∧ ∀ b ∈ as, id b ∉ id a :: taken := by
  rw [List.forall_mem_cons]
  simp only [List.map_cons, List.nodup_cons, List.mem_map, List.mem_cons, not_or, not_exists,
    not_and]
  constructor
  · rintro ⟨⟨hne, hnodup⟩, ha, hnew⟩
    exact ⟨ha, hnodup, fun b hb => ⟨hne b hb, hnew b hb⟩⟩
  · rintro ⟨ha, hnodup, hnew⟩
    exact ⟨⟨fun b hb => (hnew b hb).1, hnodup⟩, ha, fun b hb => (hnew b hb).2⟩

/-- A table breaks no rule when no variable does and all ids are new. -/
theorem tableViolation?_eq_none_iff {taken : List String} {table : List Variable} :
    tableViolation? taken table = none ↔
      (∀ v ∈ table, v.violation? = none) ∧ (table.map (·.id)).Nodup ∧
        ∀ v ∈ table, v.id ∉ taken := by
  induction table generalizing taken with
  | nil => simp [tableViolation?]
  | cons v vs ih =>
      rw [fresh_cons_iff, List.forall_mem_cons, tableViolation?]
      cases hv : v.violation? with
      | some violation => simp
      | none =>
          by_cases htaken : v.id ∈ taken
          · simp [htaken]
          · simp [htaken, ih]

/-- A saved list breaks no rule when no entry does and all ids are new. -/
theorem savedViolation?_eq_none_iff {taken : List String} {list : List SavedSession} :
    savedViolation? taken list = none ↔
      (∀ s ∈ list, s.violation? = none) ∧ (list.map (·.id)).Nodup ∧ ∀ s ∈ list, s.id ∉ taken := by
  induction list generalizing taken with
  | nil => simp [savedViolation?]
  | cons s rest ih =>
      rw [fresh_cons_iff, List.forall_mem_cons, savedViolation?]
      cases hs : s.violation? with
      | some violation => simp
      | none =>
          by_cases htaken : s.id ∈ taken
          · simp [htaken]
          · simp [htaken, ih]

/-- The ids of a valid session are distinct. -/
theorem Session.nodup_ids {s : Session} (h : s.violation? = none) : (s.table.map (·.id)).Nodup :=
  (tableViolation?_eq_none_iff.mp h).2.1

/-- A list of valid entries with distinct ids is valid. -/
theorem savedViolation?_eq_none {list : List SavedSession} (h : ∀ s ∈ list, s.violation? = none)
    (hids : (list.map (·.id)).Nodup) : savedViolation? [] list = none :=
  savedViolation?_eq_none_iff.mpr ⟨h, hids, fun _ _ => List.not_mem_nil⟩

/-- What stays of a valid list is valid. -/
theorem savedViolation?_eq_none_of_sublist {list rest : List SavedSession}
    (h : savedViolation? [] list = none) (hrest : rest.Sublist list) :
    savedViolation? [] rest = none := by
  obtain ⟨hentries, hids, -⟩ := savedViolation?_eq_none_iff.mp h
  exact savedViolation?_eq_none (fun saved hsaved => hentries saved (hrest.subset hsaved))
    ((hrest.map _).nodup hids)

end Reckoner
