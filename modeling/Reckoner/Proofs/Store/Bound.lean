import Reckoner.Proofs.Session.Instants
import Reckoner.Proofs.Store.Failures

/-!
# `Reckoner.Proofs.Store.Bound` — how long the saved list is

The list is cut to the capacity when it is written, not when it is read. So what is read is bounded
unless the text comes from elsewhere, and a delete tells more entries than are read next only if at
least two too many were stored.

## Contents
- **Writing.** `length_readSaved_writeSaved_le`: of a list that is written, valid or not, no more
  than the capacity is read.
- **Deletes.** `delete_of_mem`, `readSaved_delete_of_mem` and `delete_eq_readSaved_iff`.
- **Updates.** `length_readSaved_perform_le` for one, `length_readSaved_performAll_le` for all.
- **The bound.** `saved_list_bounded_iff`, and `crowded`, where it is passed.
-/

namespace Reckoner.Store

variable {σ : Type} [Storage σ] {good : σ → Prop} {s : σ}

/-! ## Writing -/

/-- Of a list that is written no more than the capacity is read. -/
theorem length_readSaved_writeSaved_le (hstorage : Storage.Reliable keys good) (hs : good s)
    (list : List SavedSession) : (readSaved (writeSaved s list)).length ≤ capacity := by
  rcases readSaved_cases (writeSaved s list) with hempty | ⟨text, htext, hlist⟩
  · rw [hempty]
    exact Nat.zero_le _
  · have hwritten : Storage.get (writeSaved s list) savedKey =
        .ok (some (SavedSession.listToJson (list.take capacity))) :=
      hstorage.get_set _ hs savedKey_mem
    rw [hwritten] at htext
    obtain rfl := Option.some.inj (Except.ok.inj htext)
    rw [SavedSession.length_of_listOfJson hlist]
    exact List.length_take_le _ _

/-! ## Deletes -/

section Deletes

variable {id : String}

/-- An entry that is found is taken out, and the others are written. -/
theorem delete_of_mem (h : ∃ entry ∈ readSaved s, entry.id = id) :
    delete s id = (withoutId id (readSaved s), writeSaved s (withoutId id (readSaved s))) := by
  rcases delete_cases s id with ⟨hnone, -⟩ | ⟨-, hdelete⟩
  · obtain ⟨entry, hentry, hid⟩ := h
    exact absurd hid (hnone entry hentry)
  · exact hdelete

/-- A list with an entry has been decoded. -/
theorem exists_text_of_mem {entry : SavedSession} (h : entry ∈ readSaved s) :
    ∃ text, SavedSession.listOfJson text = .ok (readSaved s) := by
  rcases readSaved_cases s with hempty | ⟨text, -, hlist⟩
  · rw [hempty] at h
    exact absurd h List.not_mem_nil
  · exact ⟨text, hlist⟩

/-- The entry that is taken out is the only one of its id. -/
theorem length_delete_of_mem (h : ∃ entry ∈ readSaved s, entry.id = id) :
    (delete s id).1.length + 1 = (readSaved s).length := by
  obtain ⟨entry, hentry, rfl⟩ := h
  obtain ⟨text, hlist⟩ := exists_text_of_mem hentry
  obtain ⟨-, hids, -⟩ := savedViolation?_eq_none_iff.mp (SavedSession.valid_of_listOfJson hlist)
  have hone : ((readSaved s).filter (·.id == entry.id)).length = 1 := by
    have hcount := List.count_eq_one_of_mem hids (List.mem_map_of_mem hentry)
    rw [List.count, List.countP_map, List.countP_eq_length_filter] at hcount
    exact hcount
  calc (delete s entry.id).1.length + 1
      = ((readSaved s).filter (!·.id == entry.id)).length +
          ((readSaved s).filter (·.id == entry.id)).length := by
        rw [hone]
        rfl
    _ = (readSaved s).length := by
        rw [List.length_eq_length_filter_add (l := readSaved s) (·.id == entry.id), Nat.add_comm]

/-- After an entry is taken out, as many of the others are read as fit. -/
theorem readSaved_delete_of_mem (hstorage : Storage.Reliable keys good) (hs : good s)
    (h : ∃ entry ∈ readSaved s, entry.id = id) :
    readSaved (delete s id).2 = (delete s id).1.take capacity := by
  rw [delete_of_mem h]
  obtain ⟨entry, hentry, -⟩ := h
  obtain ⟨text, hlist⟩ := exists_text_of_mem hentry
  have hdecodes : SavedSession.listOfJson
      (SavedSession.listToJson ((withoutId id (readSaved s)).take capacity)) =
        .ok ((withoutId id (readSaved s)).take capacity) :=
    SavedSession.listOfJson_of_sublist hlist
      ((List.take_sublist _ _).trans List.filter_sublist)
  calc readSaved (writeSaved s (withoutId id (readSaved s)))
      = readSaved (writeSaved s ((withoutId id (readSaved s)).take capacity)) := by
        rw [writeSaved, writeSaved, List.take_take, Nat.min_self]
    _ = (withoutId id (readSaved s)).take capacity :=
        readSaved_writeSaved hstorage hs (List.length_take_le _ _) hdecodes

/-- A delete tells what is read next if what is left fits, or if it does nothing. -/
theorem delete_eq_readSaved_iff (hstorage : Storage.Reliable keys good) (hs : good s) (id : String) :
    (delete s id).1 = readSaved (delete s id).2 ↔
      (readSaved s).length ≤ 26 ∨ ∀ entry ∈ readSaved s, entry.id ≠ id := by
  rcases delete_cases s id with ⟨hnone, -, hdelete⟩ | ⟨hsome, -⟩
  · rw [hdelete]
    exact iff_of_true rfl (.inr hnone)
  · have hlength := length_delete_of_mem hsome
    have hfound : ¬ ∀ entry ∈ readSaved s, entry.id ≠ id := by
      obtain ⟨entry, hentry, hid⟩ := hsome
      exact fun hnone => hnone entry hentry hid
    rw [readSaved_delete_of_mem hstorage hs hsome, eq_comm, List.take_eq_self_iff,
      or_iff_left hfound, capacity]
    omega

end Deletes

/-! ## Updates -/

/-- After an update the bound holds, or the list is the one that was read before. -/
theorem length_readSaved_perform_le (hstorage : Storage.Reliable keys good) (hs : good s)
    (u : Update) : good (u.perform s) ∧
      ((readSaved (u.perform s)).length ≤ capacity ∨ readSaved (u.perform s) = readSaved s) := by
  have hwrite : ∀ list, good (writeSaved s list) ∧
      ((readSaved (writeSaved s list)).length ≤ capacity ∨
        readSaved (writeSaved s list) = readSaved s) := fun list =>
    ⟨good_writeSaved hstorage hs list, .inl (length_readSaved_writeSaved_le hstorage hs list)⟩
  cases u with
  | writeSaved list => exact hwrite list
  | request r =>
      cases r with
      | save session title id drawnAt word now => exact hwrite _
      | delete id =>
          show good (delete s id).2 ∧ ((readSaved (delete s id).2).length ≤ capacity ∨
            readSaved (delete s id).2 = readSaved s)
          rcases delete_cases s id with ⟨-, -, hdelete⟩ | ⟨-, hdelete⟩
          · rw [hdelete]
            exact ⟨hs, .inr rfl⟩
          · rw [hdelete]
            exact hwrite _
      | writeLast session =>
          exact ⟨good_writeLast hstorage hs session, .inr (readSaved_writeLast hstorage hs session)⟩
      | find id => exact ⟨hs, .inr rfl⟩
      | readSaved => exact ⟨hs, .inr rfl⟩
      | readLast => exact ⟨hs, .inr rfl⟩

/-- So it is after any number of updates. -/
theorem length_readSaved_performAll_le (hstorage : Storage.Reliable keys good) (hs : good s)
    (us : List Update) : good (performAll s us) ∧
      ((readSaved (performAll s us)).length ≤ capacity ∨
        readSaved (performAll s us) = readSaved s) := by
  induction us generalizing s with
  | nil => exact ⟨hs, .inr rfl⟩
  | cons u us ih =>
      obtain ⟨hfirst, hstep⟩ := length_readSaved_perform_le hstorage hs u
      obtain ⟨hlast, hrun⟩ := ih hfirst
      refine ⟨hlast, ?_⟩
      rcases hrun with hbound | hsame
      · exact .inl hbound
      · show (readSaved (performAll (u.perform s) us)).length ≤ capacity ∨
          readSaved (performAll (u.perform s) us) = readSaved s
        rw [hsame]
        exact hstep

/-! ## The bound -/

/-- **The saved list is bounded unless a longer one was put in from elsewhere.** Over a storage that
    does not fail, at most 25 entries are read and every delete tells what is read next exactly if
    the stored text does not decode to more than 25 entries. The answer of one delete is what is read
    next exactly if at most 26 entries are read or none has the id; in all other cases the first 25
    of the answer are read next. Whatever updates are made, the list stays as it is or fits, and a
    list that fits at first keeps both properties. -/
theorem saved_list_bounded_iff (hstorage : Storage.Reliable keys good) (hs : good s) :
    (((readSaved s).length ≤ 25 ∧ ∀ id, (delete s id).1 = readSaved (delete s id).2) ↔
        ∀ text list, Storage.get s savedKey = .ok (some text) →
          SavedSession.listOfJson text = .ok list → list.length ≤ 25) ∧
      (∀ id, (delete s id).1 = readSaved (delete s id).2 ↔
        (readSaved s).length ≤ 26 ∨ ∀ entry ∈ readSaved s, entry.id ≠ id) ∧
      (∀ id, (∃ entry ∈ readSaved s, entry.id = id) →
        readSaved (delete s id).2 = (delete s id).1.take 25) ∧
      (∀ us : List Update, (readSaved (performAll s us)).length ≤ 25 ∨
        readSaved (performAll s us) = readSaved s) ∧
      ((readSaved s).length ≤ 25 → ∀ us : List Update,
        (readSaved (performAll s us)).length ≤ 25 ∧
          ∀ id, (delete (performAll s us) id).1 = readSaved (delete (performAll s us) id).2) := by
  have hagree : ∀ {s : σ}, good s → (readSaved s).length ≤ 25 →
      ∀ id, (delete s id).1 = readSaved (delete s id).2 := fun hs hbound id =>
    (delete_eq_readSaved_iff hstorage hs id).mpr (.inl (by omega))
  refine ⟨⟨fun ⟨hbound, _⟩ text list htext hlist => ?_, fun hdecodes => ?_⟩,
    delete_eq_readSaved_iff hstorage hs, fun id => readSaved_delete_of_mem hstorage hs,
    fun us => (length_readSaved_performAll_le hstorage hs us).2, fun hbound us => ?_⟩
  · have hread : readSaved s = list := by
      rw [readSaved, readText, htext, Option.bind_some, hlist]
      rfl
    rwa [← hread]
  · have hbound : (readSaved s).length ≤ 25 := by
      rcases readSaved_cases s with hempty | ⟨text, htext, hlist⟩
      · rw [hempty]
        exact Nat.zero_le _
      · exact hdecodes text _ htext hlist
    exact ⟨hbound, hagree hs hbound⟩
  · obtain ⟨hfinal, hrun⟩ := length_readSaved_performAll_le hstorage hs us
    have hkept : (readSaved (performAll s us)).length ≤ 25 := by
      rcases hrun with hfits | hsame
      · exact hfits
      · rwa [hsame]
    exact ⟨hkept, hagree hfinal hkept⟩

/-- 27 entries. -/
def crowd : List SavedSession :=
  (List.range 27).map fun n => ⟨toString n, "", ⟨0⟩, { formula := "1" }⟩

/-- A memory where another program has put more entries than the store would write. -/
def crowded : MemoryStorage := { entries := [(savedKey, SavedSession.listToJson crowd)] }

theorem readSaved_crowded : readSaved crowded = crowd := by
  have hvalid : savedViolation? [] crowd = none := by decide +kernel
  have hinstants : ∀ entry ∈ crowd, entry.updatedAt.inRange = true := by decide +kernel
  have htext : readText crowded savedKey = some (SavedSession.listToJson crowd) := rfl
  rw [readSaved, htext, Option.bind_some, SavedSession.listOfJson_listToJson hvalid hinstants]
  rfl

theorem mem_crowded : ∃ entry ∈ readSaved crowded, entry.id = "26" := by
  rw [readSaved_crowded]
  decide +kernel

/-- Of 26 entries that are left the first 25 are read next. -/
theorem crowded_cut : crowded.quota = none ∧
    Storage.Reliable keys (fun m : MemoryStorage => m.quota = none) ∧
    readSaved (delete crowded "26").2 = (delete crowded "26").1.take 25 := by
  refine ⟨rfl, MemoryStorage.reliable keys, ?_⟩
  obtain ⟨-, -, hcut, -⟩ := saved_list_bounded_iff (MemoryStorage.reliable keys) (s := crowded) rfl
  exact hcut "26" mem_crowded

/-- All 27 entries are read, and a delete tells one more than is read next. -/
theorem crowded_unbounded : 25 < (readSaved crowded).length ∧
    (delete crowded "26").1 ≠ readSaved (delete crowded "26").2 := by
  have hlength : (readSaved crowded).length = 27 := by
    rw [readSaved_crowded]
    exact List.length_map ..
  refine ⟨by omega, fun hsame => ?_⟩
  have hcases := (delete_eq_readSaved_iff (MemoryStorage.reliable keys) rfl "26").mp hsame
  rcases hcases with hfew | hnone
  · omega
  · obtain ⟨entry, hentry, hid⟩ := mem_crowded
    exact hnone entry hentry hid

end Reckoner.Store
