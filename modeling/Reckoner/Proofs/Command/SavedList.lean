import Reckoner.Command.Run
import Reckoner.Proofs.Session.Document
import Reckoner.Proofs.Store.Documents
import Reckoner.Proofs.Store.Shelf

/-!
# `Reckoner.Proofs.Command.SavedList` — commands keep the saved list

Over a storage that does not fail, the text of the saved list is absent or decodes, whatever
commands are carried out: everything that is saved has been read from a document that was checked.
The id alone comes from the command line. A blank one is written like any other, but a list with it
is refused when it is read, so such a save loses the whole list.

## Contents
- **The list.** `Keeps`: a storage keeps a list of saved sessions.
- **Loading.** What is loaded is valid, and loading leaves the list alone.
- **One command.** `listAfter` and `Keeps.run`.
- **All commands.** `saved_list_kept`.
- **Blank ids.** `Keeps.run_blank`.
-/

namespace Reckoner.Command

variable {σ : Type} [Storage σ] {good : σ → Prop} {s : σ} {list : List SavedSession}

/-! ## The list -/

/-- A storage keeps a list: it has no text and the list is empty, or its text decodes to the
    list. -/
structure Keeps (good : σ → Prop) (s : σ) (list : List SavedSession) : Prop where
  good : good s
  fits : list.length ≤ Store.capacity
  text : Storage.get s Store.savedKey = .ok none ∧ list = [] ∨
    ∃ text, Storage.get s Store.savedKey = .ok (some text) ∧
      SavedSession.listOfJson text = .ok list
  instants : ∀ saved ∈ list, saved.updatedAt.inRange = true

namespace Keeps

theorem readSaved (h : Keeps good s list) : Store.readSaved s = list := by
  rcases h.text with ⟨hnone, rfl⟩ | ⟨text, hsome, hlist⟩
  · rw [Store.readSaved, Store.readText, hnone]
    rfl
  · rw [Store.readSaved, Store.readText, hsome]
    simp [hlist, Except.toOption]

theorem valid (h : Keeps good s list) : savedViolation? [] list = none := by
  rcases h.text with ⟨-, rfl⟩ | ⟨text, -, hlist⟩
  · rfl
  · exact SavedSession.valid_of_listOfJson hlist

/-- A list that fits is written as it is. -/
theorem get_writeSaved (hstorage : Storage.Reliable Store.keys good) (hs : good s)
    (hfits : list.length ≤ Store.capacity) :
    Storage.get (Store.writeSaved s list) Store.savedKey =
      .ok (some (SavedSession.listToJson list)) := by
  rw [Store.writeSaved, List.take_of_length_le hfits]
  exact hstorage.get_set _ hs Store.savedKey_mem

/-- A valid list that fits can be written. -/
theorem writeSaved (hstorage : Storage.Reliable Store.keys good) (hs : good s)
    (hfits : list.length ≤ Store.capacity) (hvalid : savedViolation? [] list = none)
    (hinstants : ∀ saved ∈ list, saved.updatedAt.inRange = true) :
    Keeps good (Store.writeSaved s list) list where
  good := Store.good_writeSaved hstorage hs list
  fits := hfits
  text := .inr ⟨SavedSession.listToJson list, get_writeSaved hstorage hs hfits,
    SavedSession.listOfJson_listToJson hvalid hinstants⟩
  instants := hinstants

theorem writeLast (hstorage : Storage.Reliable Store.keys good) (h : Keeps good s list)
    (session : Session) : Keeps good (Store.writeLast s session) list where
  good := Store.good_writeLast hstorage h.good session
  fits := h.fits
  text := by
    rw [Store.writeLast, Store.writeText, hstorage.get_set_of_ne _ h.good Store.lastKey_mem
      Store.savedKey_mem Store.lastKey_ne_savedKey.symm]
    exact h.text
  instants := h.instants

theorem mem_pushFront {saved other : SavedSession} (h : other ∈ Store.pushFront saved list) :
    other = saved ∨ other ∈ list.filter fun other => other.id != saved.id :=
  List.mem_cons.mp (List.mem_of_mem_take h)

/-- A valid entry can be put in front. -/
theorem pushFront (hstorage : Storage.Reliable Store.keys good) (h : Keeps good s list)
    {saved : SavedSession} (hsaved : saved.violation? = none)
    (hinstant : saved.updatedAt.inRange = true) :
    Keeps good (Store.writeSaved s (Store.pushFront saved list)) (Store.pushFront saved list) := by
  have hrest : (list.filter fun other => other.id != saved.id).Sublist list := List.filter_sublist
  obtain ⟨hentries, hids, -⟩ :=
    savedViolation?_eq_none_iff.mp (savedViolation?_eq_none_of_sublist h.valid hrest)
  have hnew : saved.id ∉ (list.filter fun other => other.id != saved.id).map (·.id) := by
    rintro htaken
    obtain ⟨other, hother, hid⟩ := List.mem_map.mp htaken
    exact absurd hid (by simpa using (List.mem_filter.mp hother).2)
  refine writeSaved hstorage h.good (List.length_take_le _ _) ?_ fun other hother => ?_
  · refine savedViolation?_eq_none (fun other hother => ?_) ?_
    · rcases mem_pushFront hother with rfl | hold
      · exact hsaved
      · exact hentries other hold
    · exact ((List.take_sublist _ _).map _).nodup (List.nodup_cons.mpr ⟨hnew, hids⟩)
  · rcases mem_pushFront hother with rfl | hold
    · exact hinstant
    · exact h.instants other (hrest.subset hold)

/-- Entries can be deleted. Nothing is written when there is none of that id. -/
theorem delete (hstorage : Storage.Reliable Store.keys good) (h : Keeps good s list) (id : String) :
    Keeps good (Store.delete s id).2 (Store.withoutId id list) := by
  have hrest : (Store.withoutId id list).Sublist list := List.filter_sublist
  rcases Store.delete_cases s id with ⟨-, hsame, hdelete⟩ | ⟨-, hdelete⟩
  · rw [h.readSaved] at hsame
    rw [hdelete, hsame]
    exact h
  · have hvalid := savedViolation?_eq_none_of_sublist h.valid hrest
    rw [hdelete, h.readSaved]
    exact writeSaved hstorage h.good (hrest.length_le.trans h.fits) hvalid
      fun saved hsaved => h.instants saved (hrest.subset hsaved)

end Keeps

/-! ## Loading -/

section Loading

variable {setting : Setting} {source : Source} {session : Session}

theorem valid_of_readFile {path : String} (h : readFile setting path = .ok session) :
    session.violation? = none := by
  unfold readFile at h
  split at h
  · exact absurd h nofun
  · split at h
    · rename_i read hread
      obtain rfl := Except.ok.inj h
      split at hread
      · exact Session.valid_of_ofYaml hread
      · exact Session.valid_of_ofJson hread
    · exact absurd h nofun

/-- A file whose text is written as JSON. -/
theorem fetch_file (s : σ) {path text : String} (htext : setting.files path = some text)
    (hjson : isYamlFile path = false) (hread : Session.ofJson text = .ok session) :
    fetch setting { file := some path } s = .ok session := by
  simp [fetch, readFile, htext, hjson, hread]

theorem valid_of_readLast (h : Store.readLast s = some session) : session.violation? = none := by
  unfold Store.readLast at h
  obtain ⟨text, -, hread⟩ := Option.bind_eq_some_iff.mp h
  cases hsession : Session.ofJson text with
  | error e =>
      rw [hsession] at hread
      exact absurd hread nofun
  | ok read =>
      rw [hsession] at hread
      obtain rfl := Option.some.inj hread
      exact Session.valid_of_ofJson hsession

theorem mem_of_findSaved {id : String} {saved : SavedSession} (h : findSaved s id = .ok saved) :
    saved ∈ Store.readSaved s := by
  unfold findSaved at h
  split at h
  · rename_i found hfound
    obtain rfl := Except.ok.inj h
    exact List.mem_of_find?_eq_some hfound
  · exact absurd h nofun

/-- **Whatever is loaded is valid**, because every document has been checked. -/
theorem Keeps.valid_of_fetch (h : Keeps good s list) (hfetch : fetch setting source s = .ok session) :
    session.violation? = none := by
  unfold fetch at hfetch
  split at hfetch
  · exact valid_of_readFile hfetch
  · rename_i id _ _
    cases hfound : findSaved s id with
    | error e =>
        rw [hfound] at hfetch
        exact absurd hfetch nofun
    | ok saved =>
        rw [hfound] at hfetch
        obtain rfl := Except.ok.inj hfetch
        have hmem := mem_of_findSaved hfound
        rw [h.readSaved] at hmem
        exact saved.session_valid ((savedViolation?_eq_none_iff.mp h.valid).1 saved hmem)
  · split at hfetch
    · rename_i read hread
      obtain rfl := Except.ok.inj hfetch
      exact valid_of_readLast hread
    · exact absurd hfetch nofun

/-- Loading and going on with what is loaded. -/
theorem withSession_ok (hfetch : fetch setting source s = .ok session)
    (next : Session → σ → Product × σ) :
    withSession setting source s next =
      (.ok (next session (Store.writeLast s session)).1,
        (next session (Store.writeLast s session)).2) := by
  rw [withSession, load, hfetch]

theorem withSession_error {e : RunError} (hfetch : fetch setting source s = .error e)
    (next : Session → σ → Product × σ) : withSession setting source s next = (.error e, s) := by
  rw [withSession, load, hfetch]

end Loading

/-! ## One command -/

/-- The entry that a session is saved as. -/
def entryOf (setting : Setting) (title : String) (id : Option String) (session : Session) :
    SavedSession :=
  Store.Shelf.entry session title id setting.now setting.word setting.now

/-- The saved list after a command: a save puts an entry in front, a delete takes one out, and
    nothing else changes it. -/
def listAfter (setting : Setting) (command : Command) (s : σ) (list : List SavedSession) :
    List SavedSession :=
  match command with
  | .saveSession source title id =>
    match fetch setting source s with
    | .ok session => Store.pushFront (entryOf setting title id session) list
    | .error _ => list
  | .deleteSaved id => Store.withoutId id list
  | _ => list

/-- A command that saves under a blank id. -/
def NamesBlankId : Command → Prop
  | .saveSession _ _ (some id) => Text.isBlankText id = true
  | _ => False

/-- An entry is valid if its session is and its id is not blank. -/
theorem valid_entryOf {setting : Setting} {title : String} {id : Option String} {session : Session}
    (hsession : session.violation? = none) (hid : ∀ name, id = some name → Text.isBlankText name = false) :
    (entryOf setting title id session).violation? = none := by
  have hblank : Text.isBlankText (entryOf setting title id session).id = false :=
    Store.Shelf.isBlankText_idOf setting.now setting.word hid
  rw [SavedSession.violation?, hblank]
  exact hsession

/-- Saving a session that can be loaded. -/
theorem run_saveSession {setting : Setting} {source : Source} {session : Session} (title : String)
    (id : Option String) (hfetch : fetch setting source s = .ok session) :
    Command.run setting (.saveSession source title id) s =
      (.ok (setting.present (entryOf setting title id session).toJson ("saved " ++
          (entryOf setting title id session).id ++ " (" ++
          (entryOf setting title id session).title ++ ")\n")),
        Store.writeSaved (Store.writeLast s session)
          (Store.pushFront (entryOf setting title id session)
            (Store.readSaved (Store.writeLast s session)))) := by
  rw [Command.run, withSession_ok hfetch]
  dsimp only
  rw [Store.save_eq]
  rfl

/-- Loading leaves the list alone. -/
theorem Keeps.withSession (hstorage : Storage.Reliable Store.keys good) (h : Keeps good s list)
    (setting : Setting) (source : Source) (product : Session → Product) :
    Keeps good (withSession setting source s fun session s => (product session, s)).2 list := by
  cases hfetch : fetch setting source s with
  | error e =>
      rw [withSession_error hfetch]
      exact h
  | ok session =>
      rw [withSession_ok hfetch]
      exact h.writeLast hstorage session

/-- What is not found cannot be taken out. -/
theorem Keeps.withoutId_of_error (h : Keeps good s list) {id : String} {e : RunError}
    (hfound : findSaved s id = .error e) : Store.withoutId id list = list := by
  unfold findSaved at hfound
  split at hfound
  · exact absurd hfound nofun
  · rename_i hnone
    rw [Store.find?, h.readSaved, List.find?_eq_none] at hnone
    exact List.filter_eq_self.mpr fun saved hsaved => by simpa using hnone saved hsaved

/-- A save under an id that is not blank puts its entry in front of a list that is kept. -/
theorem Keeps.run_save (hstorage : Storage.Reliable Store.keys good) (h : Keeps good s list)
    {setting : Setting} (hnow : setting.now.inRange = true) {source : Source} {title : String}
    {id : Option String} (hid : ¬ NamesBlankId (.saveSession source title id)) {session : Session}
    (hfetch : fetch setting source s = .ok session) :
    Keeps good (Command.run setting (.saveSession source title id) s).2
      (Store.pushFront (entryOf setting title id session) list) := by
  have hlast := h.writeLast hstorage session
  have hsession := h.valid_of_fetch hfetch
  rw [run_saveSession title id hfetch, hlast.readSaved]
  refine hlast.pushFront hstorage (valid_entryOf hsession fun name hname => ?_) hnow
  subst hname
  exact Bool.eq_false_iff.mpr hid

/-- **One command** that names no blank id leaves a list that is kept. -/
theorem Keeps.run (hstorage : Storage.Reliable Store.keys good) (h : Keeps good s list)
    {setting : Setting} (hnow : setting.now.inRange = true) {command : Command}
    (hid : ¬ NamesBlankId command) :
    Keeps good (Command.run setting command s).2 (listAfter setting command s list) := by
  cases command with
  -- what is computed from a session that is loaded writes nothing but the last session
  | evaluate source expectation => exact h.withSession hstorage setting source _
  | sweep source change => exact h.withSession hstorage setting source _
  | simulate source change => exact h.withSession hstorage setting source _
  | report source swept simulated => exact h.withSession hstorage setting source _
  | writeOut source format target => exact h.withSession hstorage setting source _
  | listSaved => exact h
  | showSaved id => exact h
  | saveSession source title id =>
      cases hfetch : fetch setting source s with
      | error e =>
          rw [Command.run, withSession_error hfetch]
          simp only [listAfter, hfetch]
          exact h
      | ok session =>
          simp only [listAfter, hfetch]
          exact h.run_save hstorage hnow hid hfetch
  | deleteSaved id =>
      unfold Command.run listAfter
      dsimp only
      cases hfound : findSaved s id with
      | error e =>
          rw [h.withoutId_of_error hfound]
          exact h
      | ok saved => exact h.delete hstorage id
  | showLast =>
      unfold Command.run listAfter
      dsimp only
      split
      · exact h
      · exact h

/-! ## All commands -/

/-- The storage after some commands, each in its setting. -/
def runAll (s : σ) : List (Setting × Command) → σ
  | [] => s
  | (setting, command) :: more => runAll (Command.run setting command s).2 more

theorem runAll_concat (s : σ) (commands : List (Setting × Command)) (setting : Setting)
    (command : Command) :
    runAll s (commands ++ [(setting, command)]) =
      (Command.run setting command (runAll s commands)).2 := by
  induction commands generalizing s with
  | nil => rfl
  | cons c more ih => exact ih _

/-- The text of the saved list is absent or decodes. -/
def IsReadable (s : σ) : Prop :=
  Storage.get s Store.savedKey = .ok none ∨
    ∃ text list, Storage.get s Store.savedKey = .ok (some text) ∧
      SavedSession.listOfJson text = .ok list

/-- The saved list is read, and is shown to whoever asks for it. -/
def Shows (s : σ) (list : List SavedSession) : Prop :=
  Store.readSaved s = list ∧
    ∀ viewer : Setting, Command.run viewer .listSaved s = (.ok (showList viewer list), s)

theorem Keeps.isReadable (h : Keeps good s list) : IsReadable s :=
  h.text.imp And.left fun ⟨text, htext, hlist⟩ => ⟨text, list, htext, hlist⟩

theorem shows_readSaved (s : σ) : Shows s (Store.readSaved s) := ⟨rfl, fun _ => rfl⟩

/-- A storage without texts keeps the empty list. -/
theorem Keeps.of_empty (hs : good s) (hempty : ∀ key ∈ Store.keys, Storage.get s key = .ok none) :
    Keeps good s [] where
  good := hs
  fits := Nat.zero_le _
  text := .inl ⟨hempty _ Store.savedKey_mem, rfl⟩
  instants := fun _ h => absurd h List.not_mem_nil

/-- **All commands** that name no blank id leave a list that is kept. -/
theorem Keeps.runAll (hstorage : Storage.Reliable Store.keys good) (h : Keeps good s list)
    {commands : List (Setting × Command)}
    (hcommands : ∀ c ∈ commands, c.1.now.inRange = true ∧ ¬ NamesBlankId c.2) :
    ∃ after, Keeps good (runAll s commands) after := by
  induction commands generalizing s list with
  | nil => exact ⟨list, h⟩
  | cons c more ih =>
      obtain ⟨hnow, hid⟩ := hcommands c List.mem_cons_self
      exact ih (h.run hstorage hnow hid) fun d hd => hcommands d (List.mem_cons_of_mem _ hd)

/-- **Commands do not lose what is saved.** Over a storage that does not fail and is empty at first,
    after any commands that name no blank id the text of the saved list is absent or decodes. If then
    a save succeeds whose id is not blank, the list shows the saved entry in front, and behind it
    all entries it showed before, except for the one of that id and what is pushed past the 25th
    place. -/
theorem saved_list_kept (hstorage : Storage.Reliable Store.keys good) {s : σ} (hs : good s)
    (hempty : ∀ key ∈ Store.keys, Storage.get s key = .ok none)
    {commands : List (Setting × Command)}
    (hcommands : ∀ c ∈ commands, c.1.now.inRange = true ∧ ¬ NamesBlankId c.2) :
    IsReadable (runAll s commands) ∧
      ∀ {setting : Setting} {source : Source} {title : String} {id : Option String}
        {product : Product}, setting.now.inRange = true →
        ¬ NamesBlankId (.saveSession source title id) →
        (Command.run setting (.saveSession source title id) (runAll s commands)).1 = .ok product →
        ∃ before session, Shows (runAll s commands) before ∧
          fetch setting source (runAll s commands) = .ok session ∧
          Shows (Command.run setting (.saveSession source title id) (runAll s commands)).2
            ((entryOf setting title id session ::
              before.filter fun other =>
                other.id != (entryOf setting title id session).id).take 25) := by
  obtain ⟨before, hbefore⟩ := (Keeps.of_empty hs hempty).runAll hstorage hcommands
  refine ⟨hbefore.isReadable, ?_⟩
  intro setting source title id product hnow hid hok
  have hshown := shows_readSaved (runAll s commands)
  rw [hbefore.readSaved] at hshown
  cases hfetch : fetch setting source (runAll s commands) with
  | error e =>
      rw [Command.run, withSession_error hfetch] at hok
      exact absurd hok nofun
  | ok session =>
      have hafter := hbefore.run_save hstorage hnow hid hfetch
      have hsaved := shows_readSaved
        (Command.run setting (.saveSession source title id) (runAll s commands)).2
      rw [hafter.readSaved] at hsaved
      exact ⟨before, session, hshown, rfl, hsaved⟩

/-- A session with a formula and nothing else. -/
def plainSession : Session := { formula := "1" }

/-- A setting in which every file holds that session. -/
def plainSetting : Setting where
  json := false
  files _ := some plainSession.toJson.compact
  now := ⟨0⟩
  word := 0
  seed := 0

/-- Saves the session of a file under an id. -/
def saveAs (id : String) : Command := .saveSession { file := some "s.json" } "" (some id)

theorem fetch_plain (s : σ) :
    fetch plainSetting { file := some "s.json" } s = .ok plainSession :=
  fetch_file s rfl (by decide +kernel) (Session.ofJson_toJson (by decide +kernel))

/-- The memory after one save. -/
theorem keeps_one_save :
    Keeps (fun m : MemoryStorage => m.quota = none) (runAll {} [(plainSetting, saveAs "a")])
      [entryOf plainSetting "" (some "a") plainSession] := by
  have hstart : Keeps (fun m : MemoryStorage => m.quota = none) {} [] :=
    .of_empty rfl fun _ _ => rfl
  have hid : ¬ NamesBlankId (saveAs "a") := Bool.eq_false_iff.mp (by decide +kernel)
  rw [runAll, runAll]
  exact hstart.run_save (MemoryStorage.reliable Store.keys)
    (show plainSetting.now.inRange = true by decide +kernel) hid (fetch_plain _)

/-- Two saves under different ids: both are shown, the later one in front. -/
theorem shows_two_saves :
    (∀ c ∈ [(plainSetting, saveAs "a")], c.1.now.inRange = true ∧ ¬ NamesBlankId c.2) ∧
      Shows (Command.run plainSetting (saveAs "b")
        (runAll ({} : MemoryStorage) [(plainSetting, saveAs "a")])).2
        [entryOf plainSetting "" (some "b") plainSession,
          entryOf plainSetting "" (some "a") plainSession] := by
  have hcommands : ∀ c ∈ [(plainSetting, saveAs "a")],
      c.1.now.inRange = true ∧ ¬ NamesBlankId c.2 := by
    intro c hc
    obtain rfl := List.mem_singleton.mp hc
    exact ⟨by decide +kernel, Bool.eq_false_iff.mp (by decide +kernel)⟩
  have hid : ¬ NamesBlankId (saveAs "b") := Bool.eq_false_iff.mp (by decide +kernel)
  have hempty : ∀ key ∈ Store.keys, Storage.get ({} : MemoryStorage) key = .ok none :=
    fun _ _ => rfl
  obtain ⟨-, hsave⟩ :=
    saved_list_kept (MemoryStorage.reliable Store.keys) rfl hempty hcommands
  have hrun := congrArg Prod.fst (run_saveSession "" (some "b")
    (fetch_plain (runAll ({} : MemoryStorage) [(plainSetting, saveAs "a")])))
  obtain ⟨before, session, hbefore, hfetch, hafter⟩ :=
    hsave (by decide +kernel) hid hrun
  rw [fetch_plain] at hfetch
  obtain rfl := Except.ok.inj hfetch
  obtain rfl : _ = before := keeps_one_save.readSaved.symm.trans hbefore.1
  exact ⟨hcommands, hafter⟩

/-! ## Blank ids -/

/-- A list with a blank id in front breaks a rule. -/
theorem savedViolation?_pushFront {saved : SavedSession} (hblank : Text.isBlankText saved.id = true) :
    savedViolation? [] (Store.pushFront saved list) = some .blankSavedId := by
  have hviolation : saved.violation? = some .blankSavedId := by
    rw [SavedSession.violation?, if_pos hblank]
  change savedViolation? [] (saved :: List.take 24 _) = _
  rw [savedViolation?, hviolation]

/-- Such a list is refused when it is read. -/
theorem Keeps.listOfJson_pushFront (h : Keeps good s list) {saved : SavedSession}
    (hsession : saved.session.IsFinite) (hinstant : saved.updatedAt.inRange = true)
    (hblank : Text.isBlankText saved.id = true) :
    SavedSession.listOfJson (SavedSession.listToJson (Store.pushFront saved list)) =
      .error (.invalid .blankSavedId) := by
  obtain ⟨hentries, -, -⟩ := savedViolation?_eq_none_iff.mp h.valid
  rw [SavedSession.listOfJson_listToJson_eq, savedViolation?_pushFront hblank]
  · rfl
  · intro other hother
    rcases Keeps.mem_pushFront hother with rfl | hold
    · exact hsession
    · exact Session.isFinite_of_valid
        (other.session_valid (hentries other (List.mem_of_mem_filter hold)))
  · intro other hother
    rcases Keeps.mem_pushFront hother with rfl | hold
    · exact hinstant
    · exact h.instants other (List.mem_of_mem_filter hold)

/-- A list whose text is refused is shown as empty. -/
theorem shows_nil_of_refused {text : String} {e : DocumentError}
    (htext : Storage.get s Store.savedKey = .ok (some text))
    (hrefused : SavedSession.listOfJson text = .error e) : ¬ IsReadable s ∧ Shows s [] := by
  constructor
  · rintro (hnone | ⟨other, read, hother, hread⟩)
    · rw [htext] at hnone
      exact absurd hnone nofun
    · rw [htext] at hother
      obtain rfl := Option.some.inj (Except.ok.inj hother)
      rw [hrefused] at hread
      exact absurd hread nofun
  · have hempty : Store.readSaved s = [] := by
      rw [Store.readSaved, Store.readText, htext]
      simp [hrefused, Except.toOption]
    have hshown := shows_readSaved s
    rw [hempty] at hshown
    exact hshown

/-- **A blank id loses the list.** A save under a blank id succeeds, and the text it leaves does not
    decode: the list is shown as empty. -/
theorem Keeps.run_blank (hstorage : Storage.Reliable Store.keys good) (h : Keeps good s list)
    {setting : Setting} (hnow : setting.now.inRange = true) {source : Source} {title id : String}
    {session : Session} (hfetch : fetch setting source s = .ok session)
    (hblank : Text.isBlankText id = true) :
    ¬ IsReadable (Command.run setting (.saveSession source title (some id)) s).2 ∧
      Shows (Command.run setting (.saveSession source title (some id)) s).2 [] := by
  have hlast := h.writeLast hstorage session
  have hsession := Session.isFinite_of_valid (h.valid_of_fetch hfetch)
  rw [run_saveSession title (some id) hfetch, hlast.readSaved]
  exact shows_nil_of_refused
    (Keeps.get_writeSaved hstorage hlast.good (List.length_take_le _ _))
    (h.listOfJson_pushFront hsession hnow hblank)

/-- After a save under an id, a save under a blank one succeeds as well, and neither is shown. -/
theorem blank_id_hides_earlier_save :
    Shows (runAll ({} : MemoryStorage) [(plainSetting, saveAs "a")])
        [entryOf plainSetting "" (some "a") plainSession] ∧
      (∃ product, (Command.run plainSetting (saveAs " ")
        (runAll ({} : MemoryStorage) [(plainSetting, saveAs "a")])).1 = .ok product) ∧
      ¬ IsReadable (runAll ({} : MemoryStorage)
        [(plainSetting, saveAs "a"), (plainSetting, saveAs " ")]) ∧
      Shows (runAll ({} : MemoryStorage)
        [(plainSetting, saveAs "a"), (plainSetting, saveAs " ")]) [] := by
  have hshown := shows_readSaved (runAll ({} : MemoryStorage) [(plainSetting, saveAs "a")])
  rw [keeps_one_save.readSaved] at hshown
  have hfetch := fetch_plain (runAll ({} : MemoryStorage) [(plainSetting, saveAs "a")])
  have hconcat := runAll_concat ({} : MemoryStorage) [(plainSetting, saveAs "a")] plainSetting
    (saveAs " ")
  rw [List.cons_append, List.nil_append] at hconcat
  rw [hconcat]
  refine ⟨hshown, ⟨_, congrArg Prod.fst (run_saveSession "" (some " ") hfetch)⟩, ?_⟩
  exact keeps_one_save.run_blank (MemoryStorage.reliable Store.keys)
    (show plainSetting.now.inRange = true by decide +kernel) hfetch (by decide +kernel)

end Reckoner.Command
