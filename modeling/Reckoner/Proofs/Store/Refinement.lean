import Reckoner.Proofs.Session.Document
import Reckoner.Proofs.Store.Documents
import Reckoner.Proofs.Store.Shelf

/-!
# `Reckoner.Proofs.Store.Refinement` — a store is a shelf

Every operation of a store decodes, checks, edits and writes a whole list. Over a storage that does
not fail its answers are those of the shelf, request by request, as long as the documents that are
written decode to themselves.

## Contents
- **The store.** `Request.perform`, the requests in terms of the operations.
- **One request.** `Refines` and `perform_refines`.
- **All requests.** `decodesBack_of_admissible` and `store_refines_shelf`.
-/

namespace Reckoner.Store

variable {σ : Type} [Storage σ] {good : σ → Prop}

/-! ## The store -/

/-- What a request does to a store. -/
def Request.perform (s : σ) : Request → Answer × σ
  | .save session title id drawnAt word now =>
    let (entry, s) := Store.save s session title (id.getD (freshId drawnAt word)) now
    (.saved entry, s)
  | .delete id =>
    let (list, s) := Store.delete s id
    (.list list, s)
  | .find id => (.found (Store.find? s id), s)
  | .writeLast session => (.done, Store.writeLast s session)
  | .readSaved => (.list (Store.readSaved s), s)
  | .readLast => (.last (Store.readLast s), s)

/-- The documents that requests give rise to decode to themselves: the sessions that are written,
    and the valid lists of entries that are saved. -/
structure DecodesBack (requests : List Request) : Prop where
  session : ∀ session ∈ requests.filterMap Request.written?,
    Session.ofJson session.toJson.compact = .ok session
  list : ∀ list ⊆ requests.filterMap Request.entry?, savedViolation? [] list = none →
    SavedSession.listOfJson (SavedSession.listToJson list) = .ok list

/-! ## One request -/

/-- The store reads what is on the shelf. -/
structure Refines (good : σ → Prop) (s : σ) (shelf : Shelf) : Prop where
  good : good s
  saved : readSaved s = shelf.entries
  last : readLast s = shelf.last

/-- Writing the entries of a shelf. -/
theorem Refines.writeSaved (hstorage : Storage.Reliable keys good) {s : σ} {shelf : Shelf}
    (h : Refines good s shelf) {entries : List SavedSession} (hfits : entries.length ≤ 25)
    (hdecodes : SavedSession.listOfJson (SavedSession.listToJson entries) = .ok entries) :
    Refines good (writeSaved s entries) { shelf with entries := entries } where
  good := good_writeSaved hstorage h.good entries
  saved := readSaved_writeSaved hstorage h.good hfits hdecodes
  last := (readLast_writeSaved hstorage h.good entries).trans h.last

/-- Writing the last session of a shelf. -/
theorem Refines.writeLast (hstorage : Storage.Reliable keys good) {s : σ} {shelf : Shelf}
    (h : Refines good s shelf) {session : Session}
    (hdecodes : Session.ofJson session.toJson.compact = .ok session) :
    Refines good (writeLast s session) { shelf with last := some session } where
  good := good_writeLast hstorage h.good session
  saved := (readSaved_writeLast hstorage h.good session).trans h.saved
  last := readLast_writeLast hstorage h.good hdecodes

/-- Deleting an id: the list is written anew only if it got shorter. -/
theorem Refines.delete (hstorage : Storage.Reliable keys good) {s : σ} {shelf : Shelf}
    (h : Refines good s shelf) {id : String} (hfits : (shelf.take id).entries.length ≤ 25)
    (hdecodes : SavedSession.listOfJson (SavedSession.listToJson (shelf.take id).entries) =
      .ok (shelf.take id).entries) :
    (delete s id).1 = (shelf.take id).entries ∧ Refines good (delete s id).2 (shelf.take id) := by
  have hrest : withoutId id (readSaved s) = (shelf.take id).entries := by
    rw [h.saved]
    rfl
  rcases Store.delete_cases s id with ⟨-, hsame, hdelete⟩ | ⟨-, hdelete⟩
  · rw [hsame] at hrest
    rw [hdelete]
    exact ⟨hrest, h.good, hrest, h.last⟩
  · rw [hdelete, hrest]
    exact ⟨rfl, h.writeSaved hstorage hfits hdecodes⟩

/-- **One request** is answered alike, and store and shelf stay together. -/
theorem perform_refines (hstorage : Storage.Reliable keys good) {s : σ} {shelf : Shelf}
    (h : Refines good s shelf) {r : Request} (hfits : (shelf.perform r).2.entries.length ≤ 25)
    (hlist : SavedSession.listOfJson (SavedSession.listToJson (shelf.perform r).2.entries) =
      .ok (shelf.perform r).2.entries)
    (hsession : ∀ session, r.written? = some session →
      Session.ofJson session.toJson.compact = .ok session) :
    (r.perform s).1 = (shelf.perform r).1 ∧ Refines good (r.perform s).2 (shelf.perform r).2 := by
  cases r with
  | save session title id drawnAt word now =>
      have hput := h.writeSaved hstorage hfits hlist
      simp only [Request.perform, save_eq, h.saved]
      exact ⟨rfl, hput⟩
  | delete id =>
      obtain ⟨hanswer, hrefines⟩ := h.delete hstorage hfits hlist
      exact ⟨congrArg Answer.list hanswer, hrefines⟩
  | find id =>
      refine ⟨?_, h⟩
      simp only [Request.perform, Store.find?, h.saved, Shelf.perform]
  | writeLast session => exact ⟨rfl, h.writeLast hstorage (hsession session rfl)⟩
  | readSaved => exact ⟨congrArg Answer.list h.saved, h⟩
  | readLast => exact ⟨congrArg Answer.last h.last, h⟩

/-! ## All requests -/

variable {requests : List Request}

/-- What admissible requests give rise to decodes to itself, if every entry is saved at an instant
    that has a text. -/
theorem decodesBack_of_admissible (hadmissible : ∀ r ∈ requests, r.isAdmissible = true)
    (hinstants : ∀ entry ∈ requests.filterMap Request.entry?, entry.updatedAt.inRange = true) :
    DecodesBack requests where
  session session hsession := by
    obtain ⟨r, hr, hwritten⟩ := List.mem_filterMap.mp hsession
    exact Session.ofJson_toJson (violation?_of_written? (hadmissible r hr) hwritten)
  list list hsubset hvalid :=
    SavedSession.listOfJson_listToJson hvalid fun entry hentry => hinstants entry (hsubset hentry)

/-- A shelf that holds nothing but what admissible requests save can be written and read back. -/
theorem decodes_of_recent (hadmissible : ∀ r ∈ requests, r.isAdmissible = true)
    (hjson : DecodesBack requests) {history : List SavedSession} {shelf : Shelf}
    (hshelf : shelf.Recent history) (hhistory : history ⊆ requests.filterMap Request.entry?) :
    SavedSession.listOfJson (SavedSession.listToJson shelf.entries) = .ok shelf.entries := by
  have hentries := List.Subset.trans hshelf.subset hhistory
  refine hjson.list _ hentries (savedViolation?_eq_none (fun entry hentry => ?_) hshelf.nodup_ids)
  obtain ⟨r, hr, hsaved⟩ := List.mem_filterMap.mp (hentries hentry)
  exact violation?_of_entry? (hadmissible r hr) hsaved

/-- The first requests have put a history on the shelf; the others are answered alike. -/
theorem serve_refines (hstorage : Storage.Reliable keys good)
    (hadmissible : ∀ r ∈ requests, r.isAdmissible = true) (hjson : DecodesBack requests)
    {rs : List Request} (hrs : rs ⊆ requests) {history : List SavedSession}
    (hhistory : history ⊆ requests.filterMap Request.entry?) {s : σ} {shelf : Shelf}
    (h : Refines good s shelf) (hshelf : shelf.Recent history) :
    (serve Request.perform s rs).1 = (serve Shelf.perform shelf rs).1 ∧
      Refines good (serve Request.perform s rs).2
        (serve Shelf.perform shelf rs).2 := by
  induction rs generalizing s shelf history with
  | nil => exact ⟨rfl, h⟩
  | cons r rs ih =>
      obtain ⟨hr, hrs⟩ := List.cons_subset.mp hrs
      have hhistory' : r.entry?.toList ++ history ⊆ requests.filterMap Request.entry? := by
        refine List.append_subset.mpr ⟨fun entry hentry => ?_, hhistory⟩
        exact List.mem_filterMap.mpr ⟨r, hr, Option.mem_toList.mp hentry⟩
      have hshelf' := hshelf.perform r
      obtain ⟨hanswer, hrefines⟩ := perform_refines hstorage h hshelf'.fits
        (decodes_of_recent hadmissible hjson hshelf' hhistory')
        (fun session hsession => hjson.session session (List.mem_filterMap.mpr ⟨r, hr, hsession⟩))
      obtain ⟨hanswers, hfinal⟩ := ih hrs hhistory' hrefines hshelf'
      rw [serve_cons, serve_cons, hanswer, hanswers]
      exact ⟨rfl, hfinal⟩

/-- **A store is a shelf.** Over a storage that does not fail and is empty at first, every sequence
    of admissible requests is answered as the shelf answers it; afterwards the store reads what is on
    the shelf. So ids are distinct, there are at most 25 entries, in the order of the latest saves
    and each as it was last saved; a delete tells what is read next; the last session is the one
    last written. -/
theorem store_refines_shelf (hstorage : Storage.Reliable keys good) {s : σ} (hs : good s)
    (hempty : ∀ key ∈ keys, Storage.get s key = .ok none)
    (hadmissible : ∀ r ∈ requests, r.isAdmissible = true) (hjson : DecodesBack requests) :
    let final := (serve Request.perform s requests).2
    let shelf := (serve Shelf.perform {} requests).2
    (serve Request.perform s requests).1 = (serve Shelf.perform {} requests).1 ∧
      readSaved final = shelf.entries ∧
      ((readSaved final).map (·.id)).Nodup ∧
      (readSaved final).length ≤ 25 ∧
      (readSaved final).Sublist (latest (requests.filterMap Request.entry?).reverse) ∧
      (∀ id, (delete final id).1 = readSaved (delete final id).2) ∧
      readLast final = (requests.filterMap Request.written?).getLast? := by
  intro final shelf
  obtain ⟨hsaved, hlast⟩ := read_of_empty hempty
  have hstart : Refines good s {} := ⟨hs, hsaved, hlast⟩
  obtain ⟨hanswers, hfinal⟩ := serve_refines hstorage hadmissible hjson (List.Subset.refl _)
    (List.nil_subset _) hstart .empty
  have hshelf : shelf.Recent (requests.filterMap Request.entry?).reverse := by
    simpa using Shelf.Recent.empty.serve requests
  have hlastShelf := last_serve {} requests
  refine ⟨hanswers, hfinal.saved, ?_, ?_, ?_, fun id => ?_, ?_⟩
  · rw [hfinal.saved]
    exact hshelf.nodup_ids
  · rw [hfinal.saved]
    exact hshelf.fits
  · rw [hfinal.saved]
    exact hshelf.sublist
  · -- one more delete, after the last request
    have htake := hshelf.take id
    obtain ⟨hanswer, hrefines⟩ := hfinal.delete hstorage htake.fits
      (decodes_of_recent hadmissible hjson htake (by simp))
    rw [hanswer]
    exact hrefines.saved.symm
  · rw [hfinal.last, hlastShelf]
    exact Option.or_none

/-- Two saves under one id, one without an id or a title, a last session, and a delete. -/
def overwriting : List Request :=
  [.save { formula := "1" } " T " (some "a") ⟨0⟩ 0 ⟨0⟩,
    .save { title := some "U ", formula := "2" } "\t" (some "a") ⟨0⟩ 0 ⟨0⟩,
    .save { formula := "3" } "" none ⟨5000000⟩ 255 ⟨0⟩,
    .writeLast { formula := "1" }, .readSaved, .delete "a"]

theorem isAdmissible_overwriting : ∀ r ∈ overwriting, r.isAdmissible = true := by decide +kernel

theorem decodesBack_overwriting : DecodesBack overwriting :=
  decodesBack_of_admissible isAdmissible_overwriting (by decide +kernel)

theorem serve_overwriting : (∀ r ∈ overwriting, r.isAdmissible = true) ∧ DecodesBack overwriting ∧
    (overwriting.filterMap Request.entry?).map (fun entry => (entry.id, entry.title)) =
      [("a", "T"), ("a", "U"), ("session-5-000000ff", "Untitled session")] ∧
    (serve Request.perform ({} : MemoryStorage) overwriting).1 =
      (serve Shelf.perform {} overwriting).1 := by
  have hempty : ∀ key ∈ keys, Storage.get ({} : MemoryStorage) key = .ok none := fun _ _ => rfl
  obtain ⟨hanswers, -⟩ := store_refines_shelf (MemoryStorage.reliable keys) rfl hempty
    isAdmissible_overwriting decodesBack_overwriting
  exact ⟨isAdmissible_overwriting, decodesBack_overwriting, by decide +kernel, hanswers⟩

end Reckoner.Store
