import Mathlib.Algebra.Group.Nat.Defs
import Mathlib.Data.List.DropRight
import Reckoner.Proofs.Session.Validity
import Reckoner.Store

/-!
# `Reckoner.Proofs.Store.Shelf` — a bounded list of the most recently saved

The shelf is what a store stands for: a list of entries and the last session, without any texts. A
save puts an entry in front of all others, a delete takes one out. Which title and id an entry has is
a rule of the shelf, and `save_eq` says that the store keeps to it.

## Contents
- **Entries.** `Shelf.entry`: what a session is filed as.
- **Requests.** `Request` and `Answer`; `serve` answers one request after the other.
- **The shelf.** `Shelf.perform`.
- **Recency.** `latest`: of a history of saves, the latest under each id; `Shelf.Recent`: what the
  shelf holds of them.
-/

namespace Reckoner.Store

/-! ## Entries -/

namespace Shelf

/-- A text without the blanks around it. -/
def stripped (text : String) : String :=
  String.ofList ((text.toList.dropWhile Text.isBlank).rdropWhile Text.isBlank)

/-- The title of an entry: the given one or else that of the session, whichever is the first to be
    more than blanks, without the blanks around it. -/
def titleOf (session : Session) (given : String) : String :=
  (((given :: session.title.toList).map stripped).find? (· != "")).getD "Untitled session"

/-- A word in eight hexadecimal digits. -/
def hexadecimal (word : UInt32) : List Char := (Nat.toDigits 16 word.toNat).leftpad 8 '0'

/-- The id of an entry: the given one, or one that is made of an instant and a random word. -/
def idOf (given : Option String) (drawnAt : Timestamp) (word : UInt32) : String :=
  given.getD
    ("session-" ++ toString drawnAt.milliseconds ++ "-" ++ String.ofList (hexadecimal word))

/-- What a session is filed as. -/
def entry (session : Session) (title : String) (id : Option String) (drawnAt : Timestamp)
    (word : UInt32) (now : Timestamp) : SavedSession :=
  ⟨idOf id drawnAt word, titleOf session title, now, session⟩

end Shelf

theorem trim_eq_stripped (text : String) : Text.trim text = Shelf.stripped text := rfl

/-- Titles are chosen by the shelf's rule. -/
theorem effectiveTitle_eq (session : Session) (given : String) :
    effectiveTitle session given = Shelf.titleOf session given := by
  unfold effectiveTitle Shelf.titleOf
  rw [List.map_cons, List.find?_cons, ← trim_eq_stripped]
  dsimp only
  cases Text.trim given != "" with
  | true => rfl
  | false =>
      cases session.title with
      | none => rfl
      | some own =>
          show ((some (Text.trim own)).filter (· != "")).getD _ =
            (List.find? _ [Shelf.stripped own]).getD _
          rw [Option.filter_some, List.find?_singleton, trim_eq_stripped]
          rfl

/-- A title of blanks gives way to the session's, and a session without one is untitled. -/
example :
    [Shelf.titleOf { title := some " Beam" } " Mine ", Shelf.titleOf { title := some " Beam" } " ",
      Shelf.titleOf { title := some " " } "", Shelf.titleOf {} "\t"] =
      ["Mine", "Beam", "Untitled session", "Untitled session"] := by
  decide +kernel

theorem hexDigit_eq_digitChar : ∀ n < 16, Json.hexDigit n = Nat.digitChar n := by decide

/-- The digits at the lowest places are those of the number, behind zeros. -/
theorem places_eq_leftpad (k n : Nat) (h : n < 16 ^ (k + 1)) :
    ((List.range (k + 1)).map fun i => Json.hexDigit (n / Nat.pow 16 (k - i) % 16)) =
      (Nat.toDigits 16 n).leftpad (k + 1) '0' := by
  induction k generalizing n with
  | zero =>
      have hsmall : n < 16 := by simpa using h
      have hdigit : n / Nat.pow 16 0 % 16 = n := by
        show n / 1 % 16 = n
        omega
      rw [Nat.toDigits_of_lt_base hsmall]
      show [Json.hexDigit (n / Nat.pow 16 0 % 16)] = [Nat.digitChar n]
      rw [hdigit, hexDigit_eq_digitChar n hsmall]
  | succ k ih =>
      -- the last digit is the rest of a division by 16, the others are those of the quotient
      have hlast : Json.hexDigit (n / Nat.pow 16 (k + 1 - (k + 1)) % 16) =
          Nat.digitChar (n % 16) := by
        rw [Nat.sub_self]
        show Json.hexDigit (n / 1 % 16) = _
        rw [Nat.div_one, hexDigit_eq_digitChar _ (Nat.mod_lt _ (by decide))]
      have hfront : ∀ i ∈ List.range (k + 1),
          Json.hexDigit (n / Nat.pow 16 (k + 1 - i) % 16) =
            Json.hexDigit (n / 16 / Nat.pow 16 (k - i) % 16) := by
        intro i hi
        have hplace : Nat.pow 16 (k + 1 - i) = 16 * Nat.pow 16 (k - i) := by
          rw [Nat.succ_sub (Nat.lt_succ_iff.mp (List.mem_range.mp hi)), Nat.pow_eq, Nat.pow_eq,
            Nat.pow_succ, Nat.mul_comm]
        rw [hplace, Nat.div_div_eq_div_mul]
      have hshift : n / 16 < 16 ^ (k + 1) := by
        rw [Nat.div_lt_iff_lt_mul (by decide), ← Nat.pow_succ]
        exact h
      rw [List.range_succ, List.map_append, List.map_singleton, hlast, List.map_congr_left hfront,
        ih _ hshift]
      rcases Nat.lt_or_ge n 16 with hsmall | hlarge
      · rw [Nat.div_eq_of_lt hsmall, Nat.mod_eq_of_lt hsmall, Nat.toDigits_of_lt_base hsmall]
        show List.replicate k '0' ++ ['0'] ++ _ = List.replicate (k + 1) '0' ++ _
        rw [← List.replicate_succ']
      · rw [Nat.toDigits_of_base_le (by decide) hlarge]
        simp [List.leftpad]

/-- Ids are made up by the shelf's rule. -/
theorem freshId_eq (given : Option String) (drawnAt : Timestamp) (word : UInt32) :
    given.getD (freshId drawnAt word) = Shelf.idOf given drawnAt word := by
  have hdigits := places_eq_leftpad 7 word.toNat word.toNat_lt
  unfold freshId Shelf.idOf Shelf.hexadecimal
  rw [← hdigits]

/-- **What is saved is what the shelf files**, in front of all that is read. -/
theorem save_eq {σ : Type} [Storage σ] (s : σ) (session : Session) (title : String)
    (id : Option String) (drawnAt : Timestamp) (word : UInt32) (now : Timestamp) :
    save s session title (id.getD (freshId drawnAt word)) now =
      (Shelf.entry session title id drawnAt word now,
        writeSaved s (pushFront (Shelf.entry session title id drawnAt word now) (readSaved s))) := by
  rw [save, freshId_eq, effectiveTitle_eq]
  rfl

/-- An id that is made up is not blank, so one is blank only if it was given. -/
theorem Shelf.isBlankText_idOf {id : Option String} (drawnAt : Timestamp) (word : UInt32)
    (h : ∀ given, id = some given → Text.isBlankText given = false) :
    Text.isBlankText (idOf id drawnAt word) = false := by
  cases id with
  | some given => exact h given rfl
  | none =>
      have hs : Text.isBlank 's' = false := by decide
      simp [idOf, Text.isBlankText, String.toList_append, hs]

/-! ## Requests -/

/-- What can be asked of a store. -/
inductive Request where
  /-- Save a session at an instant. Without an id, one is made of an instant and a random word. -/
  | save (session : Session) (title : String) (id : Option String) (drawnAt : Timestamp)
      (word : UInt32) (now : Timestamp)
  | delete (id : String)
  | find (id : String)
  | writeLast (session : Session)
  | readSaved
  | readLast

/-- What is given back. -/
inductive Answer where
  | saved (entry : SavedSession)
  | list (entries : List SavedSession)
  | found (entry : Option SavedSession)
  | last (session : Option Session)
  | done

namespace Request

/-- The entry that a request saves. -/
def entry? : Request → Option SavedSession
  | save session title id drawnAt word now =>
    some (Shelf.entry session title id drawnAt word now)
  | _ => none

/-- The session that a request writes as the last one. -/
def written? : Request → Option Session
  | writeLast session => some session
  | _ => none

/-- Only valid sessions are saved or written, and only under ids that are not blank. -/
def isAdmissible : Request → Bool
  | save session _ id _ _ _ => session.isValid && id.all (!Text.isBlankText ·)
  | writeLast session => session.isValid
  | _ => true

end Request

/-- Answers one request after the other. -/
def serve {τ : Type} (perform : τ → Request → Answer × τ) : τ → List Request → List Answer × τ
  | t, [] => ([], t)
  | t, r :: rs =>
    let (a, t) := perform t r
    let (as, t) := serve perform t rs
    (a :: as, t)

theorem serve_cons {τ : Type} (perform : τ → Request → Answer × τ) (t : τ) (r : Request)
    (rs : List Request) :
    serve perform t (r :: rs) =
      ((perform t r).1 :: (serve perform (perform t r).2 rs).1,
        (serve perform (perform t r).2 rs).2) := rfl

/-! ## The shelf -/

/-- Saved sessions, the most recent first, and the last session. -/
structure Shelf where
  entries : List SavedSession := []
  last : Option Session := none

namespace Shelf

/-- The entries with one in front, after any other of its id is taken out; only 25 are kept. -/
def put (shelf : Shelf) (entry : SavedSession) : Shelf :=
  { shelf with entries := (entry :: shelf.entries.filter (·.id != entry.id)).take 25 }

/-- The shelf without the entry of an id. -/
def take (shelf : Shelf) (id : String) : Shelf :=
  { shelf with entries := shelf.entries.filter (·.id != id) }

/-- What a request does to the shelf. -/
def perform (shelf : Shelf) : Request → Answer × Shelf
  | .save session title id drawnAt word now =>
    let entry := Shelf.entry session title id drawnAt word now
    (.saved entry, shelf.put entry)
  | .delete id => (.list (shelf.take id).entries, shelf.take id)
  | .find id => (.found (shelf.entries.find? (·.id == id)), shelf)
  | .writeLast session => (.done, { shelf with last := some session })
  | .readSaved => (.list shelf.entries, shelf)
  | .readLast => (.last shelf.last, shelf)

end Shelf

/-! ## Recency -/

/-- Of a history of saves, the most recent first, the latest under each id. -/
def latest : List SavedSession → List SavedSession
  | [] => []
  | entry :: history => entry :: (latest history).filter (·.id != entry.id)

theorem latest_sublist (history : List SavedSession) : (latest history).Sublist history := by
  induction history with
  | nil => exact .slnil
  | cons entry history ih => exact (List.filter_sublist.trans ih).cons_cons entry

theorem nodup_ids_latest (history : List SavedSession) :
    ((latest history).map (·.id)).Nodup := by
  induction history with
  | nil => exact List.nodup_nil
  | cons entry history ih =>
      rw [latest, List.map_cons, List.nodup_cons]
      constructor
      · rintro hmem
        obtain ⟨other, hother, hid⟩ := List.mem_map.mp hmem
        exact absurd hid (by simpa using (List.mem_filter.mp hother).2)
      · exact (List.filter_sublist.map _).nodup ih

/-- The shelf holds at most 25 of the latest saves, in their order. -/
structure Shelf.Recent (history : List SavedSession) (shelf : Shelf) : Prop where
  fits : shelf.entries.length ≤ 25
  sublist : shelf.entries.Sublist (latest history)

namespace Shelf.Recent

variable {history : List SavedSession} {shelf : Shelf}

theorem empty : Recent [] {} := ⟨Nat.zero_le _, .slnil⟩

/-- Ids are distinct. -/
theorem nodup_ids (h : shelf.Recent history) : (shelf.entries.map (·.id)).Nodup :=
  (h.sublist.map _).nodup (nodup_ids_latest history)

/-- Every entry has been saved. -/
theorem subset (h : shelf.Recent history) : shelf.entries ⊆ history :=
  List.Subset.trans h.sublist.subset (latest_sublist history).subset

theorem put (h : shelf.Recent history) (entry : SavedSession) :
    (shelf.put entry).Recent (entry :: history) where
  fits := List.length_take_le _ _
  sublist := (List.take_sublist _ _).trans ((h.sublist.filter _).cons_cons entry)

theorem take (h : shelf.Recent history) (id : String) : (shelf.take id).Recent history where
  fits := Nat.le_trans (List.length_filter_le _ _) h.fits
  sublist := List.filter_sublist.trans h.sublist

/-- **One request.** The history grows by what the request saves. -/
theorem perform (h : shelf.Recent history) (r : Request) :
    (shelf.perform r).2.Recent (r.entry?.toList ++ history) := by
  cases r with
  | save session title id drawnAt word now => exact h.put _
  | delete id => exact h.take id
  | find id => exact h
  | writeLast session => exact ⟨h.fits, h.sublist⟩
  | readSaved => exact h
  | readLast => exact h

/-- **All requests.** -/
theorem serve (h : shelf.Recent history) (rs : List Request) :
    (serve Shelf.perform shelf rs).2.Recent
      ((rs.filterMap Request.entry?).reverse ++ history) := by
  induction rs generalizing shelf history with
  | nil => exact h
  | cons r rs ih =>
      have hstep := ih (h.perform r)
      rw [serve_cons]
      cases hentry : r.entry? with
      | none => simpa [List.filterMap_cons, hentry] using hstep
      | some entry => simpa [List.filterMap_cons, hentry] using hstep

end Shelf.Recent

/-- The last session of the shelf is the one last written. -/
theorem last_serve (shelf : Shelf) (rs : List Request) :
    (serve Shelf.perform shelf rs).2.last =
      (rs.filterMap Request.written?).getLast?.or shelf.last := by
  induction rs generalizing shelf with
  | nil => rfl
  | cons r rs ih =>
      rw [serve_cons, ih]
      cases r with
      | writeLast session =>
          simp only [List.filterMap_cons, Request.written?, Shelf.perform, List.getLast?_cons]
          cases (rs.filterMap Request.written?).getLast? <;> rfl
      | save session title id drawnAt word now => rfl
      | delete id => rfl
      | find id => rfl
      | readSaved => rfl
      | readLast => rfl

/-! ## Rules -/

/-- What an admissible request saves breaks no rule. -/
theorem violation?_of_entry? {r : Request} (hr : r.isAdmissible = true) {entry : SavedSession}
    (h : r.entry? = some entry) : entry.violation? = none := by
  cases r with
  | save session title id drawnAt word now =>
      obtain rfl := Option.some.inj h
      obtain ⟨hsession, hid⟩ := Bool.and_eq_true_iff.mp hr
      have hblank : Text.isBlankText (Shelf.idOf id drawnAt word) = false := by
        refine Shelf.isBlankText_idOf drawnAt word fun given hgiven => ?_
        subst hgiven
        simpa using hid
      rw [SavedSession.violation?, Shelf.entry, hblank]
      simpa [Session.isValid] using hsession
  | delete id => exact absurd h (by simp [Request.entry?])
  | find id => exact absurd h (by simp [Request.entry?])
  | writeLast session => exact absurd h (by simp [Request.entry?])
  | readSaved => exact absurd h (by simp [Request.entry?])
  | readLast => exact absurd h (by simp [Request.entry?])

/-- What an admissible request writes breaks no rule. -/
theorem violation?_of_written? {r : Request} (hr : r.isAdmissible = true) {session : Session}
    (h : r.written? = some session) : session.violation? = none := by
  cases r with
  | writeLast session =>
      obtain rfl := Option.some.inj h
      exact Option.isNone_iff_eq_none.mp hr
  | save session title id drawnAt word now => exact absurd h (by simp [Request.written?])
  | delete id => exact absurd h (by simp [Request.written?])
  | find id => exact absurd h (by simp [Request.written?])
  | readSaved => exact absurd h (by simp [Request.written?])
  | readLast => exact absurd h (by simp [Request.written?])

end Reckoner.Store
