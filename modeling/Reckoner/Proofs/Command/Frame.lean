import Reckoner.Proofs.Command.SavedList

/-!
# `Reckoner.Proofs.Command.Frame` — what a command leaves as it is

A command that does not find what it needs leaves the storage as it is. One that loads a session
leaves exactly this session as the last one, without what it overrides for itself, also when its file
cannot be written in the end or its simulation takes too long. The saved list is touched by saving and deleting only.

## Contents
- **Needs.** `Provides`: the session of a source; `IsServed`: all that a command needs is there.
- **Refusals.** `run_of_not_served`.
- **Effects.** What a command that is served writes.
- **The frame.** `touched` keys, and `command_frame`.
-/

namespace Reckoner

/-- The source of the session that a command works on, if it works on one. -/
def Command.source? : Command → Option Command.Source
  | .evaluate source _ | .sweep source _ | .simulate source _ | .report source _ _
  | .saveSession source _ _ | .writeOut source _ _ => some source
  | .listSaved | .showSaved _ | .deleteSaved _ | .showLast => none

/-- The keys whose texts a command may change. -/
def Command.touched : Command → List String
  | .evaluate .. | .sweep .. | .simulate .. | .report .. | .writeOut .. => [Store.lastKey]
  | .saveSession .. => [Store.lastKey, Store.savedKey]
  | .deleteSaved _ => [Store.savedKey]
  | .listSaved | .showSaved _ | .showLast => []

namespace Command

variable {σ : Type} [Storage σ] {setting : Setting} {s : σ} {source : Source} {session : Session}

/-! ## Needs -/

/-- A source provides a session: its file can be read and holds one, else its id is that of a saved
    one, else there is a last one. -/
inductive Provides (setting : Setting) (s : σ) : Source → Session → Prop
  | file {path text : String} {saved : Option String} {session : Session}
      (content : setting.files path = some text)
      (read : (if isYamlFile path then Session.ofYaml text else Session.ofJson text) = .ok session) :
      Provides setting s ⟨some path, saved⟩ session
  | saved {id : String} {entry : SavedSession} (found : Store.find? s id = some entry) :
      Provides setting s ⟨none, some id⟩ entry.session
  | last {session : Session} (stored : Store.readLast s = some session) :
      Provides setting s ⟨none, none⟩ session

/-- What a command needs is there: a session to work on, an entry to show or to delete, a last session
    to show. -/
def IsServed (setting : Setting) (s : σ) : Command → Prop
  | .evaluate source _ | .sweep source _ | .simulate source _ | .report source _ _
  | .saveSession source _ _ | .writeOut source _ _ => ∃ session, Provides setting s source session
  | .showSaved id | .deleteSaved id => ∃ entry ∈ Store.readSaved s, entry.id = id
  | .showLast => ∃ session, Store.readLast s = some session
  | .listSaved => True

theorem readFile_eq_ok_iff {path : String} :
    readFile setting path = .ok session ↔ ∃ text, setting.files path = some text ∧
      (if isYamlFile path then Session.ofYaml text else Session.ofJson text) = .ok session := by
  unfold readFile
  cases setting.files path with
  | none =>
      constructor
      · intro h
        cases h
      · rintro ⟨text, htext, -⟩
        cases htext
  | some text =>
      dsimp only
      constructor
      · intro h
        refine ⟨text, rfl, ?_⟩
        split at h
        · rename_i read hread
          rw [hread, Except.ok.inj h]
        · cases h
      · rintro ⟨other, hother, hread⟩
        obtain rfl := Option.some.inj hother
        rw [hread]

theorem findSaved_eq_ok_iff {id : String} {entry : SavedSession} :
    findSaved s id = .ok entry ↔ Store.find? s id = some entry := by
  unfold findSaved
  cases Store.find? s id with
  | none =>
      constructor
      · intro h
        cases h
      · intro h
        cases h
  | some found =>
      constructor
      · intro h
        exact congrArg some (Except.ok.inj h)
      · intro h
        exact congrArg Except.ok (Option.some.inj h)

theorem provides_of_fetch (h : fetch setting source s = .ok session) :
    Provides setting s source session := by
  obtain ⟨file, saved⟩ := source
  -- a file comes before an entry of the list, and both before the last session
  cases file with
  | some path =>
      obtain ⟨text, htext, hread⟩ := readFile_eq_ok_iff.mp h
      exact .file htext hread
  | none =>
      cases saved with
      | some id =>
          unfold fetch at h
          dsimp only at h
          cases hfound : findSaved s id with
          | error e =>
              rw [hfound] at h
              cases h
          | ok entry =>
              rw [hfound] at h
              obtain rfl := Except.ok.inj h
              exact .saved (findSaved_eq_ok_iff.mp hfound)
      | none =>
          unfold fetch at h
          dsimp only at h
          cases hlast : Store.readLast s with
          | none =>
              rw [hlast] at h
              cases h
          | some stored =>
              rw [hlast] at h
              obtain rfl := Except.ok.inj h
              exact .last hlast

theorem Provides.fetch_eq (h : Provides setting s source session) :
    fetch setting source s = .ok session := by
  cases h with
  | file content read => exact readFile_eq_ok_iff.mpr ⟨_, content, read⟩
  | saved found =>
      show (findSaved s _).map _ = _
      rw [findSaved_eq_ok_iff.mpr found]
      rfl
  | last stored =>
      unfold fetch
      dsimp only
      rw [stored]

/-- **What is fetched** is what the source provides. -/
theorem fetch_eq_ok_iff : fetch setting source s = .ok session ↔ Provides setting s source session :=
  ⟨provides_of_fetch, Provides.fetch_eq⟩

/-- A saved session that is found is an entry of the list. -/
theorem exists_entry_iff {id : String} :
    (∃ entry ∈ Store.readSaved s, entry.id = id) ↔ ∃ entry, Store.find? s id = some entry := by
  have hfind : (Store.find? s id).isSome = true ↔ ∃ entry ∈ Store.readSaved s, (entry.id == id) = true :=
    List.find?_isSome
  rw [← Option.isSome_iff_exists, hfind]
  simp only [beq_iff_eq]

/-- The list that is read breaks no rule, whatever text is stored. -/
theorem savedViolation?_readSaved (s : σ) : savedViolation? [] (Store.readSaved s) = none := by
  rcases Store.readSaved_cases s with hempty | ⟨text, -, hlist⟩
  · rw [hempty]
    rfl
  · exact SavedSession.valid_of_listOfJson hlist

/-- **What is provided is valid**, in every state of the storage: each document has been checked. -/
theorem Provides.valid (h : Provides setting s source session) : session.violation? = none := by
  cases h with
  | file content read => exact valid_of_readFile (readFile_eq_ok_iff.mpr ⟨_, content, read⟩)
  | @saved id entry found =>
      have hentries := (savedViolation?_eq_none_iff.mp (savedViolation?_readSaved s)).1
      exact entry.session_valid (hentries entry (List.mem_of_find?_eq_some found))
  | last stored => exact valid_of_readLast stored

/-! ## Refusals -/

theorem withSession_of_not_provided (h : ¬ ∃ session, Provides setting s source session)
    (next : Session → σ → Product × σ) :
    ∃ e, withSession setting source s next = (.error e, s) := by
  cases hfetch : fetch setting source s with
  | ok session => exact absurd ⟨session, fetch_eq_ok_iff.mp hfetch⟩ h
  | error e => exact ⟨e, withSession_error hfetch next⟩

theorem findSaved_of_no_entry {id : String} (h : ¬ ∃ entry ∈ Store.readSaved s, entry.id = id) :
    ∃ e, findSaved s id = .error e := by
  rw [exists_entry_iff] at h
  cases hfound : findSaved s id with
  | ok entry => exact absurd ⟨entry, findSaved_eq_ok_iff.mp hfound⟩ h
  | error e => exact ⟨e, rfl⟩

/-- A command with a source is served when the source provides a session. -/
theorem isServed_iff_of_source {command : Command} (hsource : command.source? = some source) :
    IsServed setting s command ↔ ∃ session, Provides setting s source session := by
  cases command with
  | listSaved | showSaved | deleteSaved | showLast => cases hsource
  | _ =>
      obtain rfl := Option.some.inj hsource
      exact Iff.rfl

/-- All commands with a source load it first. -/
theorem run_eq_withSession (setting : Setting) (s : σ) {command : Command}
    (hsource : command.source? = some source) :
    ∃ next, Command.run setting command s = withSession setting source s next := by
  cases command with
  | listSaved | showSaved | deleteSaved | showLast => cases hsource
  | _ =>
      obtain rfl := Option.some.inj hsource
      exact ⟨_, by rw [Command.run]⟩

/-- **A command that does not find what it needs** fails, and the storage stays as it is. -/
theorem run_of_not_served {command : Command} (h : ¬ IsServed setting s command) :
    ∃ e, Command.run setting command s = (.error e, s) := by
  cases hsource : command.source? with
  | some source =>
      rw [isServed_iff_of_source hsource] at h
      obtain ⟨next, hrun⟩ := run_eq_withSession setting s hsource
      rw [hrun]
      exact withSession_of_not_provided h next
  | none =>
      cases command with
      | listSaved => exact absurd trivial h
      | showSaved id =>
          obtain ⟨e, he⟩ := findSaved_of_no_entry h
          refine ⟨e, ?_⟩
          rw [Command.run, he]
          rfl
      | deleteSaved id =>
          obtain ⟨e, he⟩ := findSaved_of_no_entry h
          refine ⟨e, ?_⟩
          rw [Command.run, he]
      | showLast =>
          cases hlast : Store.readLast s with
          | some session => exact absurd ⟨session, hlast⟩ h
          | none =>
              refine ⟨.noLastSession, ?_⟩
              rw [Command.run, hlast]
      | _ => cases hsource

/-! ## Effects -/

/-- **A command that loads a session** has a product, and writes the session as the last one; a save
    writes a list after that. -/
theorem run_of_provides {command : Command} (hsource : command.source? = some source)
    (h : Provides setting s source session) :
    (∃ product, (Command.run setting command s).1 = .ok product) ∧
      ((Command.run setting command s).2 = Store.writeLast s session ∨
        Store.savedKey ∈ command.touched ∧ ∃ list,
          (Command.run setting command s).2 = Store.writeSaved (Store.writeLast s session) list) := by
  have hfetch := fetch_eq_ok_iff.mpr h
  cases command with
  | saveSession other title id =>
      obtain rfl := Option.some.inj hsource
      rw [run_saveSession title id hfetch]
      exact ⟨⟨_, rfl⟩, .inr ⟨List.mem_cons_of_mem _ List.mem_cons_self, _, rfl⟩⟩
  | listSaved | showSaved | deleteSaved | showLast => cases hsource
  | _ =>
      obtain rfl := Option.some.inj hsource
      rw [Command.run, withSession_ok hfetch]
      exact ⟨⟨_, rfl⟩, .inl rfl⟩

/-- **A command that loads no session** writes nothing, unless it deletes an entry of the list. -/
theorem run_of_no_source (setting : Setting) (s : σ) {command : Command}
    (hsource : command.source? = none) :
    (Command.run setting command s).2 = s ∨
      Store.savedKey ∈ command.touched ∧ ∃ list,
        (Command.run setting command s).2 = Store.writeSaved s list := by
  cases command with
  | listSaved => exact .inl rfl
  | showSaved id => exact .inl rfl
  | showLast =>
      left
      rw [Command.run]
      cases Store.readLast s <;> rfl
  | deleteSaved id =>
      rw [Command.run]
      cases findSaved s id with
      | error e => exact .inl rfl
      | ok entry =>
          show (Store.delete s id).2 = s ∨ _ ∧ ∃ list, (Store.delete s id).2 = _
          unfold Store.delete
          dsimp only
          split
          · exact .inl rfl
          · exact .inr ⟨List.mem_cons_self, _, rfl⟩
  | _ => cases hsource

/-- A product can be reported in the end unless the simulation took too long or the file could not be
    written. -/
theorem answer_of_ok {command : Command} {written inTime : Bool} {product : Product} {e : RunError}
    (h : answer command written inTime (.ok product) = .error e) :
    (inTime = false ∧ command.simulates = true ∧ e = .unfinished) ∨
      written = false ∧ ∃ path content, product = .file path content ∧ e = .unwritable path := by
  change (if command.simulates && !inTime then .error .unfinished else product.report written) =
    Except.error e at h
  split at h
  · rename_i hlate
    obtain ⟨hsimulates, hinTime⟩ := Bool.and_eq_true_iff.mp hlate
    exact .inl ⟨by simpa using hinTime, hsimulates, (Except.error.inj h).symm⟩
  · right
    cases product with
    | print text => cases h
    | file path content =>
        cases written with
        | true => cases h
        | false => exact ⟨rfl, path, content, rfl, (Except.error.inj h).symm⟩

/-! ## The frame -/

variable {good : σ → Prop} {keys : List String} {key : String}

theorem get_writeLast_of_ne (hstorage : Storage.Reliable keys good) (hkeys : Store.keys ⊆ keys)
    (hs : good s) (hkey : key ∈ keys) (hne : key ≠ Store.lastKey) (session : Session) :
    Storage.get (Store.writeLast s session) key = Storage.get s key :=
  hstorage.get_set_of_ne _ hs (hkeys Store.lastKey_mem) hkey hne

theorem get_writeSaved_of_ne (hstorage : Storage.Reliable keys good) (hkeys : Store.keys ⊆ keys)
    (hs : good s) (hkey : key ∈ keys) (hne : key ≠ Store.savedKey) (list : List SavedSession) :
    Storage.get (Store.writeSaved s list) key = Storage.get s key :=
  hstorage.get_set_of_ne _ hs (hkeys Store.savedKey_mem) hkey hne

theorem lastKey_mem_touched {command : Command} (hsource : command.source? = some source) :
    Store.lastKey ∈ command.touched := by
  cases command with
  | listSaved | showSaved | deleteSaved | showLast => cases hsource
  | _ => exact List.mem_cons_self

/-- **All other keys** keep their texts, whatever the command, and whether it is served or not. -/
theorem get_run_of_not_touched (hstorage : Storage.Reliable keys good) (hkeys : Store.keys ⊆ keys)
    (hs : good s) {command : Command} (hkey : key ∈ keys) (hnot : key ∉ command.touched) :
    Storage.get (Command.run setting command s).2 key = Storage.get s key := by
  have hne (other : String) (hother : other ∈ command.touched) : key ≠ other :=
    fun heq => hnot (heq ▸ hother)
  by_cases hserved : IsServed setting s command
  · cases hsource : command.source? with
    | none =>
        rcases run_of_no_source setting s hsource with hrun | ⟨hsaved, list, hrun⟩
        · rw [hrun]
        · rw [hrun, get_writeSaved_of_ne hstorage hkeys hs hkey (hne _ hsaved)]
    | some source =>
        obtain ⟨session, hprovides⟩ := (isServed_iff_of_source hsource).mp hserved
        -- the last session is written first, and a save writes the list on top of it
        have hlast := get_writeLast_of_ne hstorage hkeys hs hkey (hne _ (lastKey_mem_touched hsource))
          session
        have hgood := Store.good_writeLast (hstorage.mono hkeys) hs session
        rcases (run_of_provides hsource hprovides).2 with hrun | ⟨hsaved, list, hrun⟩
        · rw [hrun, hlast]
        · rw [hrun, get_writeSaved_of_ne hstorage hkeys hgood hkey (hne _ hsaved), hlast]
  · obtain ⟨e, hrun⟩ := run_of_not_served hserved
    rw [hrun]

/-- **Commands touch what they are about.** Over a storage that does not fail, in each of its states,
    with any files and for every command: if what it needs is not there, it fails and leaves the
    storage as it is. If it works on a session, this very session is the last one afterwards, and the
    only failures left come after that: a simulation that is not waited for any longer, and a file that
    cannot be written. All texts but those under the keys
    it touches stay as they are; only saving and deleting touch the saved list. -/
theorem command_frame (hstorage : Storage.Reliable keys good) (hkeys : Store.keys ⊆ keys)
    (hs : good s) (setting : Setting) (command : Command) :
    let result := (Command.run setting command s).1
    let after := (Command.run setting command s).2
    (¬ IsServed setting s command →
        after = s ∧ ∀ written inTime, ∃ e, answer command written inTime result = .error e) ∧
      (∀ source session, command.source? = some source → Provides setting s source session →
        Store.readLast after = some session ∧
          ∀ written inTime e, answer command written inTime result = .error e →
            (inTime = false ∧ command.simulates = true ∧ e = .unfinished) ∨
              written = false ∧ ∃ path, e = .unwritable path) ∧
      (∀ key ∈ keys, key ∉ command.touched → Storage.get after key = Storage.get s key) ∧
      (Store.savedKey ∈ command.touched ↔
        (∃ source title id, command = .saveSession source title id) ∨
          ∃ id, command = .deleteSaved id) := by
  intro result after
  refine ⟨?_, ?_, fun key => get_run_of_not_touched hstorage hkeys hs, ?_⟩
  · intro hserved
    obtain ⟨e, hrun⟩ := run_of_not_served hserved
    have hresult : result = .error e := congrArg Prod.fst hrun
    refine ⟨congrArg Prod.snd hrun, fun written inTime => ⟨e, ?_⟩⟩
    rw [hresult]
    rfl
  · intro source session hsource hprovides
    have hstored := hstorage.mono hkeys
    have hread : Store.readLast (Store.writeLast s session) = some session :=
      Store.readLast_writeLast hstored hs (Session.ofJson_toJson hprovides.valid)
    obtain ⟨⟨product, hproduct⟩, hafter⟩ := run_of_provides hsource hprovides
    constructor
    · rcases hafter with hrun | ⟨-, list, hrun⟩
      · rw [show after = _ from hrun, hread]
      · rw [show after = _ from hrun,
          Store.readLast_writeSaved hstored (Store.good_writeLast hstored hs session), hread]
    · intro written inTime e herror
      rw [show result = _ from hproduct] at herror
      exact (answer_of_ok herror).imp_right fun ⟨hwritten, path, _, _, he⟩ => ⟨hwritten, path, he⟩
  · cases command <;> simp [touched, Store.lastKey_ne_savedKey.symm]

/-- A memory with a text of another program and a list that does not decode. -/
def cluttered : MemoryStorage := { entries := [("theme", "dark"), (Store.savedKey, "[")] }

/-- Writes the session of a file to another file. -/
def exportTo (path : String) : Command := .writeOut { file := some "s.json" } .json (some path)

/-- An entry that is not there cannot be deleted, and nothing is. A session that cannot be written to
    a file is the last one all the same. -/
theorem cluttered_frame :
    (Command.run plainSetting (.deleteSaved "a") cluttered).2 = cluttered ∧
      (∃ e, answer (.deleteSaved "a") true true
        (Command.run plainSetting (.deleteSaved "a") cluttered).1 = .error e) ∧
      answer (exportTo "missing/s.json") false true
        (Command.run plainSetting (exportTo "missing/s.json") cluttered).1 =
          .error (.unwritable "missing/s.json") ∧
      Store.readLast (Command.run plainSetting (exportTo "missing/s.json") cluttered).2 =
        some plainSession ∧
      ∀ key ∈ ["theme", Store.savedKey],
        Storage.get (Command.run plainSetting (exportTo "missing/s.json") cluttered).2 key =
          Storage.get cluttered key := by
  have hkeys : Store.keys ⊆ "theme" :: Store.keys := List.subset_cons_self _ _
  have hframe (command : Command) :=
    command_frame (MemoryStorage.reliable ("theme" :: Store.keys)) hkeys
      (show cluttered.quota = none from rfl) plainSetting command
  have hempty : (Store.readSaved cluttered).isEmpty = true := by decide +kernel
  have hmissing : ¬ IsServed plainSetting cluttered (.deleteSaved "a") := by
    rintro ⟨entry, hentry, -⟩
    rw [List.isEmpty_iff.mp hempty] at hentry
    exact absurd hentry List.not_mem_nil
  have hprovides : Provides plainSetting cluttered { file := some "s.json" } plainSession :=
    fetch_eq_ok_iff.mp (fetch_plain cluttered)
  obtain ⟨hrefused, -⟩ := hframe (.deleteSaved "a")
  obtain ⟨hsame, herror⟩ := hrefused hmissing
  obtain ⟨-, hloaded, hothers, -⟩ := hframe (exportTo "missing/s.json")
  refine ⟨hsame, herror true true, ?_, (hloaded _ _ rfl hprovides).1, ?_⟩
  · rw [exportTo, Command.run, withSession_ok (fetch_plain cluttered)]
    rfl
  · have hlisted : ∀ key ∈ ["theme", Store.savedKey],
        key ∈ "theme" :: Store.keys ∧ key ∉ (exportTo "missing/s.json").touched := by
      decide
    intro key hkey
    exact hothers key (hlisted key hkey).1 (hlisted key hkey).2

end Command

end Reckoner
