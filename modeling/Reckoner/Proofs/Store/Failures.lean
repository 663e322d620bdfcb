import Reckoner.Proofs.Store.Refinement

/-!
# `Reckoner.Proofs.Store.Failures` — a write that fails leaves the store as it was

Every update of a store reads, edits and writes one document, in one write. So over a storage where
any write may fail, an update whose write fails changes nothing that can be read, whatever texts are
stored; and no update touches any key but its own.

## Contents
- **Updates.** `Update`: requests, and the whole list put in place of another; `text?` is the one
  text an update writes, and `perform_eq` says that it does nothing else.
- **What is read.** `Unchanged`: all that can be read of a store is the same.
- **Failures.** `Update.Fails` and `get_perform`; `FailAll` for updates that follow each other.
- **Deletes.** Without an entry of the id, a delete writes nothing.
-/

namespace Reckoner.Store

variable {σ : Type} [Storage σ] {s s' : σ}

/-! ## Updates -/

/-- What may change a store: a request, or a list in place of the saved one. -/
inductive Update where
  | request (r : Request)
  | writeSaved (list : List SavedSession)

namespace Update

/-- The store after an update. -/
def perform (s : σ) : Update → σ
  | request r => (r.perform s).2
  | writeSaved list => Store.writeSaved s list

/-- The key that an update is about. -/
def key : Update → String
  | request (.writeLast _) => lastKey
  | _ => savedKey

/-- The text that an update writes, if it writes one. -/
def text? (s : σ) : Update → Option String
  | request (.save session title id drawnAt word now) =>
    let entry := Shelf.entry session title id drawnAt word now
    some (SavedSession.listToJson ((pushFront entry (readSaved s)).take capacity))
  | request (.delete id) =>
    if (readSaved s).any (·.id == id) then
      some (SavedSession.listToJson ((withoutId id (readSaved s)).take capacity))
    else none
  | request (.writeLast session) => some session.toJson.compact
  | request _ => none
  | writeSaved list => some (SavedSession.listToJson (list.take capacity))

end Update

/-- **An update writes its text under its key, and nothing else.** -/
theorem perform_eq (s : σ) (u : Update) :
    u.perform s =
      match u.text? s with
      | some text => writeText s u.key text
      | none => s := by
  cases u with
  | writeSaved list => rfl
  | request r =>
      cases r with
      | save session title id drawnAt word now =>
          show (save s session title (id.getD (freshId drawnAt word)) now).2 = _
          rw [save_eq]
          rfl
      | writeLast session => rfl
      | find id => rfl
      | readSaved => rfl
      | readLast => rfl
      | delete id =>
          show (delete s id).2 = _
          have hfound : (readSaved s).any (·.id == id) = true ↔
              ∃ entry ∈ readSaved s, entry.id = id := by simp
          simp only [Update.text?, hfound]
          rcases delete_cases s id with ⟨hnone, -, hdelete⟩ | ⟨hsome, hdelete⟩
          · have hmissing : ¬ ∃ entry ∈ readSaved s, entry.id = id := by simpa using hnone
            rw [hdelete, if_neg hmissing]
          · rw [hdelete, if_pos hsome]
            rfl

/-! ## What is read -/

/-- All that can be read of a store is the same as before. -/
structure Unchanged (s s' : σ) : Prop where
  texts : ∀ key, Storage.get s' key = Storage.get s key
  last : readLast s' = readLast s
  saved : readSaved s' = readSaved s
  found : ∀ id, find? s' id = find? s id

/-- Everything is read from the texts. -/
theorem unchanged_of_texts (h : ∀ key, Storage.get s' key = Storage.get s key) : Unchanged s s' := by
  have htext : ∀ key, readText s' key = readText s key := fun key => by
    rw [readText, readText, h key]
  have hsaved : readSaved s' = readSaved s := by
    rw [readSaved, readSaved, htext]
  refine ⟨h, ?_, hsaved, fun id => ?_⟩
  · rw [readLast, readLast, htext]
  · rw [find?, find?, hsaved]

/-! ## Failures -/

/-- The write of an update fails. -/
def Update.Fails (s : σ) (u : Update) : Prop :=
  ∃ text e, u.text? s = some text ∧ (Storage.set s u.key text).1 = .error e

/-- Updates that follow each other. -/
def performAll (s : σ) : List Update → σ
  | [] => s
  | u :: us => performAll (u.perform s) us

/-- The write of each of the updates fails. -/
def FailAll (s : σ) : List Update → Prop
  | [] => True
  | u :: us => u.Fails s ∧ FailAll (u.perform s) us

section Failures

variable {u : Update}

/-- An update whose write fails leaves all texts as they were. -/
theorem get_perform_of_fails (h : Storage.AllOrNothing σ) (hfails : u.Fails s) (key : String) :
    Storage.get (u.perform s) key = Storage.get s key := by
  obtain ⟨text, e, htext, herror⟩ := hfails
  rw [perform_eq, htext]
  exact h.get_of_error herror key

/-- An update whose write succeeds puts its text under its key. -/
theorem get_perform_of_written (h : Storage.AllOrNothing σ) {text : String}
    (htext : u.text? s = some text) (hok : (Storage.set s u.key text).1 = .ok ()) :
    Storage.get (u.perform s) u.key = .ok (some text) := by
  rw [perform_eq, htext]
  show Storage.get (Storage.set s u.key text).2 u.key = .ok (some text)
  rw [h.get_of_ok hok, if_pos rfl]

/-- The texts of other keys stay, whether the write succeeds, fails or is not made at all. -/
theorem get_perform_of_ne (h : Storage.AllOrNothing σ) (u : Update) {key : String}
    (hkey : key ≠ u.key) : Storage.get (u.perform s) key = Storage.get s key := by
  rw [perform_eq]
  cases u.text? s with
  | none => rfl
  | some text =>
      show Storage.get (Storage.set s u.key text).2 key = Storage.get s key
      cases hset : (Storage.set s u.key text).1 with
      | error e => exact h.get_of_error hset key
      | ok => rw [h.get_of_ok hset, if_neg hkey]

theorem Unchanged.trans {s₁ s₂ s₃ : σ} (h₁ : Unchanged s₁ s₂) (h₂ : Unchanged s₂ s₃) :
    Unchanged s₁ s₃ :=
  unchanged_of_texts fun key => (h₂.texts key).trans (h₁.texts key)

/-- However many updates fail one after the other, the store is as it was before the first. -/
theorem unchanged_of_failAll (h : Storage.AllOrNothing σ) {us : List Update} (hfail : FailAll s us) :
    Unchanged s (performAll s us) := by
  induction us generalizing s with
  | nil => exact unchanged_of_texts fun _ => rfl
  | cons u us ih =>
      obtain ⟨hu, hus⟩ := hfail
      have hfirst : Unchanged s (u.perform s) := unchanged_of_texts (get_perform_of_fails h hu)
      exact hfirst.trans (ih hus)

end Failures

/-! ## Deletes -/

/-- Where there is no entry of the id, a delete writes nothing. -/
theorem delete_of_notMem {id : String} (h : ∀ entry ∈ readSaved s, entry.id ≠ id) :
    delete s id = (readSaved s, s) := by
  rcases delete_cases s id with ⟨-, -, hdelete⟩ | ⟨⟨entry, hentry, hid⟩, -⟩
  · exact hdelete
  · exact absurd hid (h entry hentry)

/-- A list that cannot be decoded counts as empty. -/
theorem readSaved_of_unreadable {text : String} (htext : Storage.get s savedKey = .ok (some text))
    (h : ∀ list, SavedSession.listOfJson text ≠ .ok list) : readSaved s = [] := by
  rcases readSaved_cases s with hempty | ⟨other, hother, hlist⟩
  · exact hempty
  · rw [htext] at hother
    cases hother
    exact absurd hlist (h _)

/-- **A write that fails leaves the store as it was.** Over a storage where any write may fail and
    then changes nothing: an update whose write fails changes nothing that can be read, and neither do
    many of them that follow each other; an update whose write succeeds puts its text under its key.
    The texts of all other keys stay in every case. A delete of an id that no readable entry has
    writes nothing, so a list that cannot be decoded is not overwritten by a delete. -/
theorem failed_writes_change_nothing (h : Storage.AllOrNothing σ) (s : σ) :
    (∀ u : Update, u.Fails s → Unchanged s (u.perform s)) ∧
      (∀ us : List Update, FailAll s us → Unchanged s (performAll s us)) ∧
      (∀ (u : Update) (text : String), u.text? s = some text →
        (Storage.set s u.key text).1 = .ok () →
          Storage.get (u.perform s) u.key = .ok (some text)) ∧
      (∀ (u : Update) (key : String), key ≠ u.key →
        Storage.get (u.perform s) key = Storage.get s key) ∧
      (∀ id, (∀ entry ∈ readSaved s, entry.id ≠ id) → delete s id = (readSaved s, s)) ∧
      ∀ text id, Storage.get s savedKey = .ok (some text) →
        (∀ list, SavedSession.listOfJson text ≠ .ok list) → delete s id = ([], s) := by
  refine ⟨fun u hfails => unchanged_of_texts (get_perform_of_fails h hfails),
    fun us hfail => unchanged_of_failAll h hfail, fun u text => get_perform_of_written h,
    fun u key => get_perform_of_ne h u, fun id => delete_of_notMem, ?_⟩
  intro text id htext hunreadable
  have hempty := readSaved_of_unreadable htext hunreadable
  have hdelete : delete s id = (readSaved s, s) :=
    delete_of_notMem (by rw [hempty]; exact fun entry hentry => absurd hentry List.not_mem_nil)
  rw [hdelete, hempty]

/-- A memory that is full of a last session that cannot be decoded: there is no room for a list. -/
theorem full_memory_unchanged :
    let m : MemoryStorage := { entries := [(lastKey, "[")], quota := some 19 }
    let u : Update := .request (.save { formula := "1" } "T" (some "a") ⟨0⟩ 0 ⟨0⟩)
    Storage.AllOrNothing MemoryStorage ∧ FailAll m [u, u] ∧ Unchanged m (performAll m [u, u]) := by
  intro m u
  have hrefused : ∀ text, Storage.set m savedKey text = (.error (.quotaExceeded 19), m) := by
    intro text
    have hused : (m.insert savedKey text).used = 20 + text.utf8ByteSize + 19 := rfl
    have hset : m.set savedKey text = .error (.quotaExceeded 19) := if_neg (by omega)
    simp only [Storage.set, hset]
  obtain ⟨text, htext⟩ : ∃ text, u.text? m = some text := ⟨_, rfl⟩
  have herror : (Storage.set m u.key text).1 = .error (.quotaExceeded 19) :=
    congrArg Prod.fst (hrefused text)
  have hfails : u.Fails m := ⟨text, _, htext, herror⟩
  have hsame : u.perform m = m := by
    rw [perform_eq, htext]
    exact congrArg Prod.snd (hrefused text)
  have hfail : FailAll m [u, u] := ⟨hfails, by rw [hsame]; exact ⟨hfails, trivial⟩⟩
  exact ⟨MemoryStorage.allOrNothing, hfail,
    (failed_writes_change_nothing MemoryStorage.allOrNothing m).2.1 [u, u] hfail⟩

end Reckoner.Store
