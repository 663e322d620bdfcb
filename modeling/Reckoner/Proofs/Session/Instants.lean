import Reckoner.Proofs.Json.Decoded
import Reckoner.Proofs.Session.Document

/-!
# `Reckoner.Proofs.Session.Instants` — saved lists that are read can be written

An instant is read only if it lies in the range of the instants that have a text. So whatever text a
list of saved sessions was decoded from, every part of the list is read back from its own document.

## Contents
- **Instants.** `inRange_of_read?` and `inRange_of_decode`.
- **Saved lists.** `SavedSession.instants_of_listOfJson` and, for a part of the list,
  `SavedSession.listOfJson_of_sublist`. `SavedSession.length_of_listOfJson`: of a list that is
  written, valid or not, nothing else is read than as many entries.
-/

namespace Reckoner

open Json (Draft)

/-! ## Instants -/

theorem Timestamp.inRange_of_read? {text : String} {t : Timestamp}
    (h : Timestamp.read? text = some t) : t.inRange = true := by
  unfold Timestamp.read? Timestamp.ofChars? at h
  obtain ⟨⟨date, cs⟩, -, h⟩ := Option.bind_eq_some_iff.mp h
  dsimp only at h
  split at h
  -- the mark between date and time makes no difference
  all_goals
    obtain ⟨cs, -, h⟩ := Option.bind_eq_some_iff.mp h
    obtain ⟨⟨second, nanosecond, cs⟩, -, h⟩ := Option.bind_eq_some_iff.mp h
    obtain ⟨⟨offset, cs⟩, -, h⟩ := Option.bind_eq_some_iff.mp h
    dsimp only at h
    split at h
    · cases h
    · split at h
      · rename_i hrange
        obtain rfl := Option.some.inj h
        exact hrange
      · cases h

theorem Timestamp.inRange_of_decode {d : Draft} {t : Timestamp} (h : Timestamp.decode d = .ok t) :
    t.inRange = true := by
  obtain ⟨text, -, h⟩ := Json.exists_of_bind h
  cases hread : Timestamp.read? text with
  | none =>
      rw [hread] at h
      cases h
  | some t' =>
      rw [hread] at h
      cases h
      exact Timestamp.inRange_of_read? hread

/-! ## Saved lists -/

/-- A field of a saved session keeps the instant in range. -/
theorem inRange_of_set {r₀ r₁ : SavedFields} {name : String} {d : Draft}
    (hr : ∀ t, r₀.updatedAt = some t → t.inRange = true)
    (h : SavedSession.shape.set r₀ name d = .ok r₁) :
    ∀ t, r₁.updatedAt = some t → t.inRange = true := by
  unfold SavedSession.shape at h
  dsimp only at h
  split at h
  · obtain ⟨id, -, h⟩ := Json.exists_of_bind h
    cases h
    exact hr
  · obtain ⟨title, -, h⟩ := Json.exists_of_bind h
    cases h
    exact hr
  · obtain ⟨t, hdecoded, h⟩ := Json.exists_of_bind h
    cases h
    intro t' ht'
    obtain rfl := Option.some.inj ht'
    exact Timestamp.inRange_of_decode hdecoded
  · obtain ⟨session, -, h⟩ := Json.exists_of_bind h
    cases h
    exact hr
  · cases h
    exact hr

theorem SavedSession.inRange_of_asRecord {d : Draft} {s : SavedSession}
    (h : d.asRecord SavedSession.shape = .ok s) : s.updatedAt.inRange = true := by
  obtain ⟨r, hr, hfinish⟩ := Json.exists_of_asRecord inRange_of_set (fun t ht => by cases ht) h
  obtain ⟨id, -, hfinish⟩ := Option.bind_eq_some_iff.mp hfinish
  obtain ⟨title, -, hfinish⟩ := Option.bind_eq_some_iff.mp hfinish
  obtain ⟨t, ht, hfinish⟩ := Option.bind_eq_some_iff.mp hfinish
  obtain ⟨session, -, hfinish⟩ := Option.bind_eq_some_iff.mp hfinish
  cases hfinish
  exact hr t ht

/-- What is accepted has been decoded. -/
theorem SavedSession.decode_of_listOfJson {text : String} {list : List SavedSession}
    (h : SavedSession.listOfJson text = .ok list) :
    Json.decode (Draft.asList (Draft.asRecord SavedSession.shape)) text = .ok list := by
  unfold SavedSession.listOfJson at h
  split at h
  · cases h
  · rename_i hdecoded
    obtain ⟨-, rfl⟩ := accept_eq_ok h
    exact hdecoded

/-- **Every instant of a list that is read is in range.** -/
theorem SavedSession.instants_of_listOfJson {text : String} {list : List SavedSession}
    (h : SavedSession.listOfJson text = .ok list) : ∀ s ∈ list, s.updatedAt.inRange = true := by
  have hdecoded := SavedSession.decode_of_listOfJson h
  unfold Json.decode at hdecoded
  dsimp only at hdecoded
  split at hdecoded
  · cases hdecoded
  · rename_i read hread
    split at hdecoded
    · cases hdecoded
    · obtain rfl := Except.ok.inj hdecoded
      obtain ⟨drafts, ending, -, -, hitems⟩ := Json.items_of_asList hread
      intro s hs
      obtain ⟨d, -, hd⟩ := hitems s hs
      exact SavedSession.inRange_of_asRecord hd

/-- **A part of a list that is read is read back from its own document.** -/
theorem SavedSession.listOfJson_of_sublist {text : String} {list rest : List SavedSession}
    (h : SavedSession.listOfJson text = .ok list) (hrest : rest.Sublist list) :
    SavedSession.listOfJson (SavedSession.listToJson rest) = .ok rest := by
  have hvalid := savedViolation?_eq_none_of_sublist (SavedSession.valid_of_listOfJson h) hrest
  apply SavedSession.listOfJson_listToJson hvalid
  intro s hs
  exact SavedSession.instants_of_listOfJson h s (hrest.subset hs)

theorem length_ofItems (list : List Json) : (Draft.ofItems list).length = list.length := by
  induction list with
  | nil => rfl
  | cons item more ih => exact congrArg Nat.succ ih

/-- A written list is refused, or as many entries are read. -/
theorem SavedSession.length_of_listOfJson {list read : List SavedSession}
    (h : SavedSession.listOfJson (SavedSession.listToJson list) = .ok read) :
    read.length = list.length := by
  have hdecoded := SavedSession.decode_of_listOfJson h
  rw [SavedSession.listToJson, Json.decode_compact] at hdecoded
  obtain ⟨drafts, ending, harray, hlength, -⟩ := Json.items_of_asList hdecoded
  rw [Draft.ofJson] at harray
  obtain ⟨rfl, -⟩ := Draft.array.inj harray
  rw [hlength, length_ofItems, List.length_map]

end Reckoner
