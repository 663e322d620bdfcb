import Reckoner.Proofs.Storage
import Reckoner.Store

/-!
# `Reckoner.Proofs.Store.Documents` — the two documents of a store

Over a storage that does not fail, each document is read back as it was written, provided that its
text decodes to it, and writing one document leaves the other alone. Over any storage, a delete
writes the list without an entry or does nothing.
-/

namespace Reckoner.Store

variable {σ : Type} [Storage σ] {good : σ → Prop} {s : σ}

/-- The keys of the two documents. -/
def keys : List String := [lastKey, savedKey]

theorem lastKey_mem : lastKey ∈ keys := List.mem_cons_self

theorem savedKey_mem : savedKey ∈ keys := by simp [keys]

theorem lastKey_ne_savedKey : lastKey ≠ savedKey := by decide

/-! ## Texts -/

theorem readText_writeText (h : Storage.Reliable keys good) (hs : good s) {key : String}
    (hkey : key ∈ keys) (text : String) : readText (writeText s key text) key = some text := by
  rw [readText, writeText, h.get_set text hs hkey]

theorem readText_writeText_of_ne (h : Storage.Reliable keys good) (hs : good s)
    {key other : String} (hkey : key ∈ keys) (hother : other ∈ keys) (hne : other ≠ key)
    (text : String) : readText (writeText s key text) other = readText s other := by
  rw [readText, writeText, h.get_set_of_ne text hs hkey hother hne, readText]

/-- A storage without texts has no documents. -/
theorem read_of_empty (hempty : ∀ key ∈ keys, Storage.get s key = .ok none) :
    readSaved s = [] ∧ readLast s = none := by
  constructor
  · rw [readSaved, readText, hempty savedKey savedKey_mem]
    rfl
  · rw [readLast, readText, hempty lastKey lastKey_mem]
    rfl

/-! ## The saved list -/

/-- What is read is empty, or a stored text has been decoded to it. -/
theorem readSaved_cases (s : σ) :
    readSaved s = [] ∨ ∃ text, Storage.get s savedKey = .ok (some text) ∧
      SavedSession.listOfJson text = .ok (readSaved s) := by
  unfold readSaved readText
  cases hget : Storage.get s savedKey with
  | error e => exact .inl rfl
  | ok stored =>
      cases stored with
      | none => exact .inl rfl
      | some text =>
          dsimp only
          rw [Option.bind_some]
          cases hlist : SavedSession.listOfJson text with
          | error e => exact .inl rfl
          | ok list => exact .inr ⟨text, rfl, hlist⟩

theorem good_writeSaved (h : Storage.Reliable keys good) (hs : good s) (list : List SavedSession) :
    good (writeSaved s list) :=
  h.good_set _ hs savedKey_mem

/-- A list that fits is read back. -/
theorem readSaved_writeSaved (h : Storage.Reliable keys good) (hs : good s)
    {list : List SavedSession} (hfits : list.length ≤ capacity)
    (hdecodes : SavedSession.listOfJson (SavedSession.listToJson list) = .ok list) :
    readSaved (writeSaved s list) = list := by
  rw [readSaved, writeSaved, readText_writeText h hs savedKey_mem, List.take_of_length_le hfits]
  simp [hdecodes, Except.toOption]

theorem readLast_writeSaved (h : Storage.Reliable keys good) (hs : good s)
    (list : List SavedSession) : readLast (writeSaved s list) = readLast s := by
  rw [readLast, writeSaved,
    readText_writeText_of_ne h hs savedKey_mem lastKey_mem lastKey_ne_savedKey, readLast]

/-! ## Deletes -/

/-- A delete finds no entry and writes nothing, or it writes the others. -/
theorem delete_cases (s : σ) (id : String) :
    (∀ entry ∈ readSaved s, entry.id ≠ id) ∧ withoutId id (readSaved s) = readSaved s ∧
        delete s id = (readSaved s, s) ∨
      (∃ entry ∈ readSaved s, entry.id = id) ∧
        delete s id = (withoutId id (readSaved s), writeSaved s (withoutId id (readSaved s))) := by
  have hlength : (withoutId id (readSaved s)).length = (readSaved s).length ↔
      ∀ entry ∈ readSaved s, entry.id ≠ id := by
    simp [withoutId, List.length_filter_eq_length_iff]
  by_cases hnone : ∀ entry ∈ readSaved s, entry.id ≠ id
  · have hsame : withoutId id (readSaved s) = readSaved s :=
      List.filter_sublist.eq_of_length (hlength.mpr hnone)
    exact .inl ⟨hnone, hsame, by simp only [delete, hsame, beq_self_eq_true, if_true]⟩
  · have hshorter := mt hlength.mp hnone
    refine .inr ⟨by simpa using hnone, ?_⟩
    simp only [delete, beq_iff_eq, if_neg hshorter]

/-! ## The last session -/

theorem good_writeLast (h : Storage.Reliable keys good) (hs : good s) (session : Session) :
    good (writeLast s session) :=
  h.good_set _ hs lastKey_mem

theorem readLast_writeLast (h : Storage.Reliable keys good) (hs : good s) {session : Session}
    (hdecodes : Session.ofJson session.toJson.compact = .ok session) :
    readLast (writeLast s session) = some session := by
  rw [readLast, writeLast, readText_writeText h hs lastKey_mem]
  simp [hdecodes, Except.toOption]

theorem readSaved_writeLast (h : Storage.Reliable keys good) (hs : good s) (session : Session) :
    readSaved (writeLast s session) = readSaved s := by
  rw [readSaved, writeLast,
    readText_writeText_of_ne h hs lastKey_mem savedKey_mem lastKey_ne_savedKey.symm, readSaved]

end Reckoner.Store
