import Reckoner.Proofs.Storage
import Reckoner.Proofs.Text.Words
import Reckoner.Storage.Directory

/-!
# `Reckoner.Proofs.Storage.Directory` — files in a directory are a map from keys to texts

Each key has a file of its own, and no file is ever written in place: a text is prepared beside it
and renamed onto it. So a directory serves its keys as a plain map does, and a write that is cut off
anywhere has either happened or not.

## Contents
- **Entries.** What is found under a name after an entry was put there or taken away.
- **Names.** `IsKey`, the names of a key's files, and `resolve`: they lead nowhere but into the
  directory itself.
- **Steps.** A step changes the entries of its own names only.
- **Events.** Operations, and writes that are cut off, on directories and on maps.
- **Maps.** `Represents`: the map that a directory stands for, which every event keeps.
- **Runs.** `directory_serves_map`.
-/

namespace Reckoner

/-- The names whose entries a step changes. -/
def DirectoryStep.names : DirectoryStep → List String
  | .create => []
  | .write name _ => [name]
  | .rename source target => [source, target]
  | .delete name => [name]

namespace Directory

variable {d d' : Directory} {name : String}

/-! ## Entries -/

theorem find?_insert_self (d : Directory) (name : String) (entry : DirectoryEntry) :
    (d.insert name entry).find? name = some entry := by
  simp [find?, insert]

theorem find?_insert_of_ne {target : String} (d : Directory) (entry : DirectoryEntry)
    (h : name ≠ target) : (d.insert target entry).find? name = d.find? name := by
  have hne : (name == target) = false := by simpa using h
  rw [find?, insert, List.lookup_cons, hne]
  exact lookup_filter_of_ne h d.entries

theorem find?_without_of_ne {target : String} (d : Directory) (h : name ≠ target) :
    ({ d with entries := d.without target } : Directory).find? name = d.find? name :=
  lookup_filter_of_ne h d.entries

theorem find?_without_self (d : Directory) (name : String) :
    ({ d with entries := d.without name } : Directory).find? name = none :=
  lookup_filter_self name d.entries

/-! ## Names -/

/-- A key: not empty, not hidden, and of letters, digits, dots, underscores and dashes only. -/
structure IsKey (key : String) : Prop where
  ne_empty : key ≠ ""
  shown : key.toList.head? ≠ some '.'
  chars : ∀ c ∈ key.toList, c.isAlphanum = true ∨ c = '.' ∨ c = '_' ∨ c = '-'

theorem isKey_iff {key : String} : isKey key = true ↔ IsKey key := by
  have hchar : ∀ c, isKeyChar c = true ↔ c.isAlphanum = true ∨ c = '.' ∨ c = '_' ∨ c = '-' := by
    simp [isKeyChar, or_assoc]
  unfold isKey
  cases hkey : key.toList with
  | nil =>
      have hempty : key = "" := String.toList_inj.mp hkey
      exact iff_of_false Bool.false_ne_true fun h => h.ne_empty hempty
  | cons c cs =>
      have hempty : key ≠ "" := fun h => List.cons_ne_nil c cs (hkey.symm.trans (by rw [h]; rfl))
      simp only [Bool.and_eq_true, bne_iff_ne, ne_eq, List.all_eq_true, hchar]
      constructor
      · rintro ⟨⟨hshown, hc⟩, hcs⟩
        refine ⟨hempty, ?_, ?_⟩
        · rw [hkey]
          exact fun h => hshown (Option.some.inj h)
        · rw [hkey]
          exact List.forall_mem_cons.mpr ⟨hc, hcs⟩
      · rintro ⟨-, hshown, hchars⟩
        rw [hkey] at hshown hchars
        obtain ⟨hc, hcs⟩ := List.forall_mem_cons.mp hchars
        exact ⟨⟨fun h => hshown (congrArg some h), hc⟩, hcs⟩

theorem toList_fileName (key : String) :
    (fileName key).toList = key.toList ++ ['.', 'j', 's', 'o', 'n'] := by
  rw [fileName, String.toList_append]
  rfl

theorem toList_draftName (key : String) :
    (draftName key).toList = key.toList ++ ['.', 'j', 's', 'o', 'n', '.', 't', 'm', 'p'] := by
  rw [draftName, String.toList_append]
  rfl

/-- Each key has a file of its own. -/
theorem fileName_ne_of_ne {key other : String} (h : other ≠ key) :
    fileName other ≠ fileName key := by
  intro heq
  have hlists := congrArg String.toList heq
  rw [toList_fileName, toList_fileName] at hlists
  exact h (String.toList_inj.mp (List.append_cancel_right hlists))

/-- Where one key prepares a text, no key keeps one. -/
theorem fileName_ne_draftName (key other : String) : fileName key ≠ draftName other := by
  intro heq
  have hlists := congrArg (·.toList.getLast?) heq
  simp [toList_fileName, toList_draftName] at hlists

/-- Where a path leads from a directory: an empty part or a dot stays, two dots go up. -/
def resolve (root : List String) (path : String) : List String :=
  (Text.splitOn (· == '/') path.toList).foldl
    (fun place part =>
      if part = [] ∨ part = ['.'] then place
      else if part = ['.', '.'] then place.dropLast
      else place ++ [String.ofList part])
    root

/-- The names that an operation on a key may look at. -/
def namesOf (key : String) : List String := [fileName key, draftName key]

/-- A name behind a key's characters leads into the directory it is read in. -/
theorem resolve_of_key (root : List String) {key : String} (hkey : IsKey key)
    {ending : List Char} (hname : name.toList = key.toList ++ ending) (hending : '/' ∉ ending) :
    resolve root name = root ++ [name] := by
  have hslash : ∀ c ∈ name.toList, (c == '/') = false := by
    intro c hc
    rw [hname, List.mem_append] at hc
    rw [beq_eq_false_iff_ne]
    rintro rfl
    rcases hc with hc | hc
    · exact absurd (hkey.chars _ hc) (by decide)
    · exact hending hc
  obtain ⟨c, cs, hcs⟩ := List.exists_cons_of_ne_nil (l := key.toList) fun h =>
    hkey.ne_empty (String.toList_inj.mp h)
  have hdot : c ≠ '.' := fun h => hkey.shown (by rw [hcs, h]; rfl)
  rw [resolve, Text.splitOn_of_run hslash, List.foldl_cons, List.foldl_nil, String.ofList_toList,
    hname, hcs, List.cons_append]
  rw [if_neg (by simp [hdot]), if_neg (by simp [hdot])]

/-! ## Steps -/

/-- A step leaves the limit of names and the entries of other names alone. -/
theorem frame_apply {step : DirectoryStep} (h : d.apply step = some d') :
    d'.nameLimit = d.nameLimit ∧ ∀ name ∉ step.names, d'.find? name = d.find? name := by
  cases step with
  | create =>
      obtain rfl := Option.some.inj h
      exact ⟨rfl, fun _ _ => rfl⟩
  | write target content =>
      rw [apply] at h
      split at h
      · obtain rfl := Option.some.inj h
        exact ⟨rfl, fun name hname => find?_insert_of_ne d _ (mt List.mem_singleton.mpr hname)⟩
      · exact absurd h nofun
  | rename source target =>
      rw [apply] at h
      split at h
      · split at h
        · obtain rfl := Option.some.inj h
          refine ⟨rfl, fun name hname => ?_⟩
          simp only [DirectoryStep.names, List.mem_cons, List.not_mem_nil, or_false, not_or] at hname
          rw [find?_insert_of_ne _ _ hname.2, find?_without_of_ne d hname.1]
        · exact absurd h nofun
      · exact absurd h nofun
  | delete target =>
      rw [apply] at h
      split at h
      · exact absurd h nofun
      · split at h
        · exact absurd h nofun
        · obtain rfl := Option.some.inj h
          exact ⟨rfl, fun name hname => find?_without_of_ne d (mt List.mem_singleton.mpr hname)⟩

/-- Steps leave the limit of names and the entries of other names alone, whether they are done or
    stopped. -/
theorem frame_run (d : Directory) (steps : List DirectoryStep) :
    (d.run steps).2.nameLimit = d.nameLimit ∧
      ∀ name, (∀ step ∈ steps, name ∉ step.names) → (d.run steps).2.find? name = d.find? name := by
  induction steps generalizing d with
  | nil => exact ⟨rfl, fun _ _ => rfl⟩
  | cons step steps ih =>
      rw [run]
      cases happly : d.apply step with
      | none => exact ⟨rfl, fun _ _ => rfl⟩
      | some d' =>
          obtain ⟨hlimit, hfind⟩ := frame_apply happly
          obtain ⟨hlimit', hfind'⟩ := ih d'
          refine ⟨hlimit'.trans hlimit, fun name hname => ?_⟩
          obtain ⟨hstep, hsteps⟩ := List.forall_mem_cons.mp hname
          exact (hfind' name hsteps).trans (hfind name hstep)

/-! ## Events -/

/-- Where steps are cut off: so many of them were taken, and of the next one, if it writes a file, so
    many bytes. -/
structure Cut where
  steps : Nat
  bytes : Option Nat

/-- The directory that steps leave which are cut off. -/
def cutOff (d : Directory) (steps : List DirectoryStep) (cut : Cut) : Directory :=
  match d.run (steps.take cut.steps), (steps.drop cut.steps).head?, cut.bytes with
  | (true, d'), some (.write name content), some count =>
    if d'.admitsFile name then d'.insert name (.file (content.extract 0 count)) else d'
  | (_, d'), _, _ => d'

/-- What may happen to a directory that serves as a storage. -/
inductive Event where
  | get (key : String)
  | set (key text : String)
  | remove (key : String)
  /-- A write that is cut off, and never answered. -/
  | cutOff (key text : String) (cut : Cut)

/-- The key of an event. -/
def Event.key : Event → String
  | .get key | .set key _ | .remove key | .cutOff key _ _ => key

/-- The answer to an operation: for a read, the text. -/
abbrev Answer := Except StorageError (Option String)

/-- The answer to an event, if there is one, and the directory behind it. -/
def perform (d : Directory) : Event → Option Answer × Directory
  | .get key => (some (Storage.get d key), d)
  | .set key text =>
    let (result, d') := Storage.set d key text
    (some (result.map fun _ => none), d')
  | .remove key =>
    let (result, d') := Storage.remove d key
    (some (result.map fun _ => none), d')
  | .cutOff key text cut =>
    (none, if isKey key then d.cutOff (setSteps key text.toUTF8) cut else d)

/-- The answers to events in turn, and the directory behind them. -/
def performAll (d : Directory) : List Event → List (Option Answer) × Directory
  | [] => ([], d)
  | e :: es =>
    let (answer, d') := d.perform e
    let (answers, d'') := d'.performAll es
    (answer :: answers, d'')

/-- Texts under keys, and nothing else. -/
abbrev Texts := String → Option String

/-- The texts with another one, or none, under a key. -/
def Texts.put (m : Texts) (key : String) (text : Option String) : Texts :=
  fun other => if other = key then text else m other

/-- The answer to an event with a name that is no key. -/
def Event.refusal : Event → Option Answer
  | .cutOff .. => none
  | e => some (.error (.invalidKey e.key))

/-- How a map of texts serves an event: names that are no keys are refused, and a write that is cut
    off is done or not. -/
inductive Serves (m : Texts) : Event → Option Answer → Texts → Prop where
  | refused {e : Event} : ¬ IsKey e.key → Serves m e e.refusal m
  | get {key : String} : IsKey key → Serves m (.get key) (some (.ok (m key))) m
  | set {key text : String} : IsKey key →
      Serves m (.set key text) (some (.ok none)) (m.put key (some text))
  | remove {key : String} : IsKey key →
      Serves m (.remove key) (some (.ok none)) (m.put key none)
  | lost {key text : String} {cut : Cut} : IsKey key → Serves m (.cutOff key text cut) none m
  | done {key text : String} {cut : Cut} : IsKey key →
      Serves m (.cutOff key text cut) none (m.put key (some text))

/-- How a map of texts serves events in turn. -/
inductive ServesAll : Texts → List Event → List (Option Answer) → Texts → Prop where
  | nil {m : Texts} : ServesAll m [] [] m
  | cons {m m' m'' : Texts} {e : Event} {es : List Event} {answer : Option Answer}
      {answers : List (Option Answer)} :
      Serves m e answer m' → ServesAll m' es answers m'' →
        ServesAll m (e :: es) (answer :: answers) m''

/-! ## Maps -/

/-- The directory stands for a map: the file of each key holds the text of the key, and no folder is
    in the way of a text that is prepared. -/
structure Represents (d : Directory) (m : Texts) : Prop where
  files : ∀ key, IsKey key →
    d.find? (fileName key) = (m key).map fun text => .file text.toUTF8
  drafts : ∀ key, IsKey key → d.find? (draftName key) ≠ some .folder

/-- The names of a key's files are not too long; without a limit none is. -/
def Fits (d : Directory) (key : String) : Prop :=
  ∀ limit, d.nameLimit = some limit → (draftName key).utf8ByteSize ≤ limit

section Keys

variable {m : Texts} {key : String}

theorem fileName_size_le (key : String) :
    (fileName key).utf8ByteSize ≤ (draftName key).utf8ByteSize := by
  rw [fileName, draftName, String.utf8ByteSize_append, String.utf8ByteSize_append]
  exact Nat.add_le_add_left (by decide) _

/-- A directory refuses no name that is at most as long as that of a draft that fits. -/
theorem Fits.refusesName (hfits : d.Fits key)
    (hsize : name.utf8ByteSize ≤ (draftName key).utf8ByteSize) : d.refusesName name = false := by
  unfold Directory.refusesName
  cases hlimit : d.nameLimit with
  | none => simp
  | some limit =>
      have hle := hfits limit hlimit
      simp only [Option.any_some, Bool.and_eq_false_imp, decide_eq_false_iff_not]
      omega

theorem any_isFolder_eq_false {entry : Option DirectoryEntry} (h : entry ≠ some .folder) :
    entry.any DirectoryEntry.isFolder = false := by
  rcases entry with _ | content | _
  · rfl
  · rfl
  · exact absurd rfl h

/-- A file may be put under a name of the key in a directory that is there. -/
theorem Fits.admitsFile (hfits : d.Fits key) (hpresent : d.present = true)
    (hname : name.utf8ByteSize ≤ (draftName key).utf8ByteSize)
    (hfolder : d.find? name ≠ some .folder) : d.admitsFile name = true := by
  simp [Directory.admitsFile, hpresent, hfits.refusesName hname, any_isFolder_eq_false hfolder]

theorem Represents.not_folder (h : d.Represents m) (hkey : IsKey key) :
    d.find? (fileName key) ≠ some .folder := by
  rw [h.files key hkey]
  cases m key with
  | none => exact nofun
  | some text => exact nofun

/-- That the directory is there changes nothing. -/
theorem Represents.create (h : d.Represents m) :
    ({ d with present := true } : Directory).Represents m :=
  ⟨h.files, h.drafts⟩

/-- A draft changes nothing, whatever is in it. -/
theorem Represents.draft (h : d.Represents m) (key : String) (content : ByteArray) :
    (d.insert (draftName key) (.file content)).Represents m where
  files other hother := by
    rw [find?_insert_of_ne d _ (fileName_ne_draftName other key), h.files other hother]
  drafts other hother := by
    by_cases hname : draftName other = draftName key
    · rw [hname, find?_insert_self]
      exact nofun
    · rw [find?_insert_of_ne d _ hname]
      exact h.drafts other hother

/-- A draft that has become the file of its key is the text of the key. -/
theorem Represents.publish (h : d.Represents m) (key text : String) :
    (({ d with entries := d.without (draftName key) } : Directory).insert (fileName key)
      (.file text.toUTF8)).Represents (m.put key (some text)) where
  files other hother := by
    by_cases hname : other = key
    · rw [hname, find?_insert_self, Texts.put, if_pos rfl]
      rfl
    · rw [find?_insert_of_ne _ _ (fileName_ne_of_ne hname),
        find?_without_of_ne d (fileName_ne_draftName other key), h.files other hother, Texts.put,
        if_neg hname]
  drafts other hother := by
    rw [find?_insert_of_ne _ _ (fileName_ne_draftName key other).symm]
    by_cases hname : draftName other = draftName key
    · rw [hname, find?_without_self]
      exact nofun
    · rw [find?_without_of_ne d hname]
      exact h.drafts other hother

/-- A key whose file is gone has no text. -/
theorem Represents.delete (h : d.Represents m) (key : String) :
    ({ d with entries := d.without (fileName key) } : Directory).Represents (m.put key none) where
  files other hother := by
    by_cases hname : other = key
    · rw [hname, find?_without_self, Texts.put, if_pos rfl]
      rfl
    · rw [find?_without_of_ne d (fileName_ne_of_ne hname), h.files other hother, Texts.put,
        if_neg hname]
  drafts other hother := by
    rw [find?_without_of_ne d (fileName_ne_draftName key other).symm]
    exact h.drafts other hother

/-! ## Operations -/

theorem fromUTF8?_toUTF8 (text : String) : String.fromUTF8? text.toUTF8 = some text := by
  unfold String.fromUTF8?
  exact dif_pos text.isValidUTF8

/-- What a key reads is its text in the map. -/
theorem Represents.read (h : d.Represents m) (hkey : IsKey key) (hfits : d.Fits key) :
    d.read (fileName key) = .ok (m key) := by
  rw [Directory.read, hfits.refusesName (fileName_size_le key), if_neg Bool.false_ne_true,
    h.files key hkey]
  cases m key with
  | none => rfl
  | some text =>
      dsimp only [Option.map_some]
      rw [fromUTF8?_toUTF8]

/-- The directory once a draft is complete. -/
def drafted (d : Directory) (key : String) (content : ByteArray) : Directory :=
  ({ d with present := true } : Directory).insert (draftName key) (.file content)

/-- The directory once a draft has become the file of its key. -/
def published (d : Directory) (key : String) (content : ByteArray) : Directory :=
  ({ d.drafted key content with entries := (d.drafted key content).without (draftName key) } :
    Directory).insert (fileName key) (.file content)

theorem apply_write (h : d.Represents m) (hkey : IsKey key) (hfits : d.Fits key)
    (content : ByteArray) :
    ({ d with present := true } : Directory).apply (.write (draftName key) content) =
      some (d.drafted key content) := by
  have hadmits : ({ d with present := true } : Directory).admitsFile (draftName key) = true :=
    Fits.admitsFile hfits rfl (Nat.le_refl _) (h.drafts key hkey)
  rw [apply, if_pos hadmits, drafted]

theorem apply_rename (h : d.Represents m) (hkey : IsKey key) (hfits : d.Fits key)
    (content : ByteArray) :
    (d.drafted key content).apply (.rename (draftName key) (fileName key)) =
      some (d.published key content) := by
  have hadmits : (d.drafted key content).admitsFile (fileName key) = true :=
    Fits.admitsFile hfits rfl (fileName_size_le key)
      ((h.create.draft key content).not_folder hkey)
  rw [apply, drafted, find?_insert_self]
  dsimp only
  rw [← drafted, if_pos hadmits, published]

theorem run_cons {step : DirectoryStep} {steps : List DirectoryStep} (h : d.apply step = some d') :
    d.run (step :: steps) = d'.run steps := by
  rw [run, h]

/-- A write ends with its draft as the file of the key. -/
theorem run_setSteps (h : d.Represents m) (hkey : IsKey key) (hfits : d.Fits key)
    (content : ByteArray) : d.run (setSteps key content) = (true, d.published key content) := by
  have hcreate : d.apply .create = some { d with present := true } := rfl
  rw [setSteps, run_cons hcreate, run_cons (apply_write h hkey hfits content),
    run_cons (apply_rename h hkey hfits content), run]

/-- The file of a key is taken away. -/
theorem run_delete (h : d.Represents m) (hkey : IsKey key) (hfits : d.Fits key) :
    d.run [.delete (fileName key)] = (true, { d with entries := d.without (fileName key) }) := by
  have hdelete : d.apply (.delete (fileName key)) =
      some { d with entries := d.without (fileName key) } := by
    rw [apply, hfits.refusesName (fileName_size_le key), if_neg Bool.false_ne_true, h.files key hkey]
    cases m key with
    | none => rfl
    | some text => rfl
  rw [run_cons hdelete, run]

theorem Represents.drafted (h : d.Represents m) (key : String) (content : ByteArray) :
    (d.drafted key content).Represents m :=
  h.create.draft key content

theorem Represents.published (h : d.Represents m) (key text : String) :
    (d.published key text.toUTF8).Represents (m.put key (some text)) :=
  (h.drafted key text.toUTF8).publish key text

/-- **A write that is cut off has happened or not.** Until the draft is renamed only the draft has
    changed, however much of it was written; afterwards nothing is left to do. -/
theorem Represents.cutOff (h : d.Represents m) (hkey : IsKey key) (hfits : d.Fits key)
    (text : String) (cut : Cut) :
    (d.cutOff (setSteps key text.toUTF8) cut).Represents m ∨
      (d.cutOff (setSteps key text.toUTF8) cut).Represents (m.put key (some text)) := by
  obtain ⟨steps, bytes⟩ := cut
  match steps with
  | 0 => exact .inl h
  | 1 =>
      -- the folder is there, and as much of the draft as was written
      left
      have hadmits : ({ d with present := true } : Directory).admitsFile (draftName key) = true :=
        Fits.admitsFile hfits rfl (Nat.le_refl _) (h.drafts key hkey)
      cases bytes with
      | none => exact h.create
      | some count =>
          show Represents (if _ then _ else _) m
          rw [if_pos hadmits]
          exact h.drafted key _
  | 2 =>
      -- the draft is complete, and still has its own name
      left
      have hrun : d.run ((setSteps key text.toUTF8).take 2) = (true, d.drafted key text.toUTF8) :=
        (run_cons rfl).trans (run_cons (apply_write h hkey hfits _))
      have hcut : d.cutOff (setSteps key text.toUTF8) ⟨2, bytes⟩ = d.drafted key text.toUTF8 := by
        rw [Directory.cutOff, hrun]
        rfl
      rw [hcut]
      exact h.drafted key _
  | steps + 3 =>
      right
      have hlength : (setSteps key text.toUTF8).length ≤ steps + 3 := Nat.le_add_left 3 steps
      have hcut : d.cutOff (setSteps key text.toUTF8) ⟨steps + 3, bytes⟩ =
          d.published key text.toUTF8 := by
        rw [Directory.cutOff, List.take_of_length_le hlength, List.drop_of_length_le hlength,
          run_setSteps h hkey hfits]
        rfl
      rw [hcut]
      exact h.published key text

/-! ## Runs -/

theorem set_of_key (h : d.Represents m) (hkey : IsKey key) (hfits : d.Fits key) (text : String) :
    Storage.set d key text = (.ok (), d.published key text.toUTF8) := by
  show d.operate key (setSteps key text.toUTF8) = _
  rw [operate, if_pos (isKey_iff.mpr hkey), run_setSteps h hkey hfits]

theorem remove_of_key (h : d.Represents m) (hkey : IsKey key) (hfits : d.Fits key) :
    Storage.remove d key = (.ok (), { d with entries := d.without (fileName key) }) := by
  show d.operate key [.delete (fileName key)] = _
  rw [operate, if_pos (isKey_iff.mpr hkey), run_delete h hkey hfits]

end Keys

/-- A name that is no key is refused, and the directory stays as it is. -/
theorem perform_of_not_key (d : Directory) {e : Event} (h : ¬ IsKey e.key) :
    d.perform e = (e.refusal, d) := by
  have hkey : isKey e.key = false := Bool.eq_false_iff.mpr (mt isKey_iff.mp h)
  cases e with
  | get key =>
      show (some (if isKey key then _ else _), d) = _
      rw [show isKey key = false from hkey]
      rfl
  | set key text =>
      have hset : Storage.set d key text = (.error (.invalidKey key), d) := by
        show d.operate key _ = _
        rw [operate, show isKey key = false from hkey]
        rfl
      rw [perform, hset]
      rfl
  | remove key =>
      have hremove : Storage.remove d key = (.error (.invalidKey key), d) := by
        show d.operate key _ = _
        rw [operate, show isKey key = false from hkey]
        rfl
      rw [perform, hremove]
      rfl
  | cutOff key text cut =>
      rw [perform, show isKey key = false from hkey]
      rfl

/-- **An event** on a directory that stands for a map is served as the map serves it. -/
theorem perform_serves {m : Texts} (h : d.Represents m) {e : Event}
    (hfits : IsKey e.key → d.Fits e.key) :
    ∃ m', Serves m e (d.perform e).1 m' ∧ (d.perform e).2.Represents m' := by
  by_cases hkey : IsKey e.key
  · have hfits := hfits hkey
    cases e with
    | get key =>
        replace hkey : IsKey key := hkey
        refine ⟨m, ?_, h⟩
        have hget : Storage.get d key = .ok (m key) := by
          show (if isKey key then d.read (fileName key) else _) = _
          rw [if_pos (isKey_iff.mpr hkey), h.read hkey hfits]
        rw [perform, hget]
        exact .get hkey
    | set key text =>
        replace hkey : IsKey key := hkey
        rw [perform, set_of_key h hkey hfits]
        exact ⟨_, .set hkey, h.published key text⟩
    | remove key =>
        replace hkey : IsKey key := hkey
        rw [perform, remove_of_key h hkey hfits]
        exact ⟨_, .remove hkey, h.delete key⟩
    | cutOff key text cut =>
        replace hkey : IsKey key := hkey
        rw [perform, if_pos (isKey_iff.mpr hkey)]
        -- the renaming decides: before it the map is as it was, behind it the text is written
        rcases h.cutOff hkey hfits text cut with hlost | hdone
        · exact ⟨_, .lost hkey, hlost⟩
        · exact ⟨_, .done hkey, hdone⟩
  · rw [perform_of_not_key d hkey]
    exact ⟨m, .refused hkey, h⟩

/-- Steps on the names of a key, done, stopped or cut off, leave other names alone. -/
theorem frame_cutOff (d : Directory) (steps : List DirectoryStep) (cut : Cut) :
    (d.cutOff steps cut).nameLimit = d.nameLimit ∧
      ∀ name, (∀ step ∈ steps, name ∉ step.names) →
        (d.cutOff steps cut).find? name = d.find? name := by
  obtain ⟨hlimit, hfind⟩ := frame_run d (steps.take cut.steps)
  have hfind' : ∀ name, (∀ step ∈ steps, name ∉ step.names) →
      (d.run (steps.take cut.steps)).2.find? name = d.find? name := fun name hname =>
    hfind name fun step hstep => hname step (List.mem_of_mem_take hstep)
  unfold cutOff
  generalize hd' : d.run (steps.take cut.steps) = result at hlimit hfind' ⊢
  split
  · rename_i d' target content count hhead hbytes
    split
    · refine ⟨hlimit, fun name hname => ?_⟩
      have htarget : DirectoryStep.write target content ∈ steps :=
        List.mem_of_mem_drop (List.mem_of_mem_head? hhead)
      rw [find?_insert_of_ne d' _ (mt List.mem_singleton.mpr (hname _ htarget))]
      exact hfind' name hname
    · exact ⟨hlimit, hfind'⟩
  · exact ⟨hlimit, hfind'⟩

/-- A write is about the names of its key. -/
theorem names_setSteps (key : String) (content : ByteArray) :
    ∀ step ∈ setSteps key content, step.names ⊆ namesOf key := by
  simp [setSteps, DirectoryStep.names, namesOf]

/-- A removal is about the file of its key. -/
theorem names_delete (key : String) :
    ∀ step ∈ [DirectoryStep.delete (fileName key)], step.names ⊆ namesOf key := by
  simp [DirectoryStep.names, namesOf]

/-- The directory behind an operation on a key is that behind its steps. -/
theorem operate_snd {key : String} (hkey : IsKey key) (steps : List DirectoryStep) :
    (d.operate key steps).2 = (d.run steps).2 := by
  rw [operate, if_pos (isKey_iff.mpr hkey)]
  cases hrun : d.run steps with
  | mk isDone d' => cases isDone <;> rfl

/-- Operations on a key answer the same when their steps end in the same way. -/
theorem operate_fst {key : String} (hkey : IsKey key) {steps : List DirectoryStep}
    (h : (d.run steps).1 = (d'.run steps).1) :
    (d.operate key steps).1 = (d'.operate key steps).1 := by
  rw [operate, operate, if_pos (isKey_iff.mpr hkey), if_pos (isKey_iff.mpr hkey)]
  generalize d.run steps = result at h ⊢
  generalize d'.run steps = result' at h ⊢
  obtain ⟨isDone, after⟩ := result
  obtain ⟨isDone', after'⟩ := result'
  obtain rfl : isDone = isDone' := h
  cases isDone <;> rfl

/-- An event changes the entries of its own key's names only, and never the limit of names. -/
theorem frame_perform (d : Directory) (e : Event) :
    (d.perform e).2.nameLimit = d.nameLimit ∧
      ∀ name ∉ namesOf e.key, (d.perform e).2.find? name = d.find? name := by
  by_cases hkey : IsKey e.key
  · cases e with
    | get key => exact ⟨rfl, fun _ _ => rfl⟩
    | set key text =>
        obtain ⟨hlimit, hfind⟩ := frame_run d (setSteps key text.toUTF8)
        have hresult : (d.perform (.set key text)).2 = (d.run (setSteps key text.toUTF8)).2 :=
          operate_snd hkey _
        rw [hresult]
        exact ⟨hlimit, fun name hname => hfind name fun step hstep hmem =>
          hname (names_setSteps key _ step hstep hmem)⟩
    | remove key =>
        obtain ⟨hlimit, hfind⟩ := frame_run d [.delete (fileName key)]
        have hresult : (d.perform (.remove key)).2 = (d.run [.delete (fileName key)]).2 :=
          operate_snd hkey _
        rw [hresult]
        exact ⟨hlimit, fun name hname => hfind name fun step hstep hmem =>
          hname (names_delete key step hstep hmem)⟩
    | cutOff key text cut =>
        obtain ⟨hlimit, hfind⟩ := frame_cutOff d (setSteps key text.toUTF8) cut
        have hresult : (d.perform (.cutOff key text cut)).2 =
            d.cutOff (setSteps key text.toUTF8) cut := if_pos (isKey_iff.mpr hkey)
        rw [hresult]
        exact ⟨hlimit, fun name hname => hfind name fun step hstep hmem =>
          hname (names_setSteps key _ step hstep hmem)⟩
  · rw [perform_of_not_key d hkey]
    exact ⟨rfl, fun _ _ => rfl⟩

/-- **A directory serves as a map of texts.** -/
theorem performAll_serves {m : Texts} (h : d.Represents m) {es : List Event}
    (hfits : ∀ e ∈ es, IsKey e.key → d.Fits e.key) :
    ∃ m', ServesAll m es (d.performAll es).1 m' ∧ (d.performAll es).2.Represents m' := by
  induction es generalizing d m with
  | nil => exact ⟨m, .nil, h⟩
  | cons e es ih =>
      obtain ⟨he, hes⟩ := List.forall_mem_cons.mp hfits
      obtain ⟨m', hserves, hm'⟩ := perform_serves h he
      have hfits' : ∀ e' ∈ es, IsKey e'.key → (d.perform e).2.Fits e'.key :=
        fun e' he' hkey limit hlimit =>
          hes e' he' hkey limit ((frame_perform d e).1 ▸ hlimit)
      obtain ⟨m'', hservesAll, hm''⟩ := ih hm' hfits'
      exact ⟨m'', .cons hserves hservesAll, hm''⟩

/-- Two directories look the same under the given names. -/
structure AgreeOn (names : List String) (d d' : Directory) : Prop where
  present : d.present = d'.present
  nameLimit : d.nameLimit = d'.nameLimit
  find? : ∀ name ∈ names, d.find? name = d'.find? name

section Agreement

variable {names : List String} {target : String}

theorem AgreeOn.refusesName (h : AgreeOn names d d') (name : String) :
    d.refusesName name = d'.refusesName name := by
  rw [Directory.refusesName, Directory.refusesName, h.present, h.nameLimit]

theorem AgreeOn.admitsFile (h : AgreeOn names d d') (hname : name ∈ names) :
    d.admitsFile name = d'.admitsFile name := by
  rw [Directory.admitsFile, Directory.admitsFile, h.present, h.refusesName, h.find? name hname]

theorem AgreeOn.insert (h : AgreeOn names d d') (target : String) (entry : DirectoryEntry) :
    AgreeOn names (d.insert target entry) (d'.insert target entry) where
  present := h.present
  nameLimit := h.nameLimit
  find? name hname := by
    by_cases htarget : name = target
    · rw [htarget, find?_insert_self, find?_insert_self]
    · rw [find?_insert_of_ne d _ htarget, find?_insert_of_ne d' _ htarget, h.find? name hname]

theorem AgreeOn.without (h : AgreeOn names d d') (target : String) :
    AgreeOn names { d with entries := d.without target }
      { d' with entries := d'.without target } where
  present := h.present
  nameLimit := h.nameLimit
  find? name hname := by
    by_cases htarget : name = target
    · rw [htarget, find?_without_self, find?_without_self]
    · rw [find?_without_of_ne d htarget, find?_without_of_ne d' htarget, h.find? name hname]

/-- A step on names under which two directories look the same is done on both or on neither. -/
theorem AgreeOn.apply (h : AgreeOn names d d') {step : DirectoryStep} (hstep : step.names ⊆ names) :
    Option.Rel (AgreeOn names) (d.apply step) (d'.apply step) := by
  cases step with
  | create => exact .some ⟨rfl, h.nameLimit, h.find?⟩
  | write target content =>
      rw [Directory.apply, Directory.apply, h.admitsFile (hstep (List.mem_singleton_self _))]
      split
      · exact .some (h.insert target _)
      · exact .none
  | rename source target =>
      rw [Directory.apply, Directory.apply, h.find? source (hstep (by simp [DirectoryStep.names])),
        h.admitsFile (hstep (by simp [DirectoryStep.names]))]
      split
      · split
        · exact .some ((h.without source).insert target _)
        · exact .none
      · exact .none
  | delete target =>
      rw [Directory.apply, Directory.apply, h.refusesName,
        h.find? target (hstep (List.mem_singleton_self _))]
      split
      · exact .none
      · split
        · exact .none
        · exact .some (h.without target)

theorem AgreeOn.run (h : AgreeOn names d d') {steps : List DirectoryStep}
    (hsteps : ∀ step ∈ steps, step.names ⊆ names) : (d.run steps).1 = (d'.run steps).1 := by
  induction steps generalizing d d' with
  | nil => rfl
  | cons step steps ih =>
      obtain ⟨hstep, hsteps⟩ := List.forall_mem_cons.mp hsteps
      have hrel := h.apply hstep
      rw [Directory.run, Directory.run]
      generalize d.apply step = after at hrel ⊢
      generalize d'.apply step = after' at hrel ⊢
      cases hrel with
      | none => rfl
      | some hagree => exact ih hagree hsteps

/-- The answer to an operation depends on the names of its key only. -/
theorem AgreeOn.perform {e : Event} (h : AgreeOn (namesOf e.key) d d') :
    (d.perform e).1 = (d'.perform e).1 := by
  by_cases hkey : IsKey e.key
  · cases e with
    | get key =>
        have hread : d.read (fileName key) = d'.read (fileName key) := by
          rw [Directory.read, Directory.read, h.refusesName,
            h.find? (fileName key) List.mem_cons_self]
        exact congrArg some (ite_congr rfl (fun _ => hread) fun _ => rfl)
    | set key text =>
        have hrun := h.run (names_setSteps key text.toUTF8)
        exact congrArg some (congrArg (Except.map _) (operate_fst hkey hrun))
    | remove key =>
        have hrun := h.run (names_delete key)
        exact congrArg some (congrArg (Except.map _) (operate_fst hkey hrun))
    | cutOff key text cut => rfl
  · rw [perform_of_not_key d hkey, perform_of_not_key d' hkey]

end Agreement

/-- **A directory serves its keys as a plain map does.** Names that are no keys are refused and change
    nothing. An operation on a key reads and changes only names of that key, which all lead into the
    directory itself; no file that another key reads is among them. Whatever operations follow each
    other on a directory that stands for a map, and whichever writes are cut off: the answers are
    those of the map, where each of those writes has happened or not. -/
theorem directory_serves_map :
    (∀ (d : Directory) (e : Event), ¬ IsKey e.key → d.perform e = (e.refusal, d)) ∧
    (∀ (d : Directory) (e : Event), ∀ name ∉ namesOf e.key,
      (d.perform e).2.find? name = d.find? name) ∧
    (∀ (d d' : Directory) (e : Event), AgreeOn (namesOf e.key) d d' →
      (d.perform e).1 = (d'.perform e).1) ∧
    (∀ key, IsKey key → ∀ name ∈ namesOf key, ∀ root, resolve root name = root ++ [name]) ∧
    (∀ key other, other ≠ key → fileName other ∉ namesOf key) ∧
    ∀ (d : Directory) (m : Texts), d.Represents m → ∀ es : List Event,
      (∀ e ∈ es, IsKey e.key → d.Fits e.key) →
        ∃ m', ServesAll m es (d.performAll es).1 m' ∧ (d.performAll es).2.Represents m' := by
  refine ⟨fun d e h => perform_of_not_key d h, fun d e => (frame_perform d e).2,
    fun d d' e h => h.perform, ?_, ?_, ?_⟩
  · intro key hkey name hname root
    rcases List.mem_cons.mp hname with rfl | hname
    · exact resolve_of_key root hkey (toList_fileName key) (by decide)
    · obtain rfl := List.mem_singleton.mp hname
      exact resolve_of_key root hkey (toList_draftName key) (by decide)
  · intro key other hne hmem
    rcases List.mem_cons.mp hmem with hfile | hdraft
    · exact fileName_ne_of_ne hne hfile
    · exact fileName_ne_draftName other key (List.mem_singleton.mp hdraft)
  · intro d m h es hfits
    exact performAll_serves h hfits

/-- Two keys, a draft that an earlier crash has left behind, and writes that are cut off while the
    draft is written and before it is renamed. -/
theorem directory_serves_map_torn :
    let d : Directory :=
      { present := true
        entries := [(draftName "a", .file ⟨#[0xff]⟩), (fileName "a", .file "1".toUTF8)] }
    let m : Texts := fun key => if key = "a" then some "1" else none
    let es : List Event :=
      [.cutOff "a" "2" ⟨1, some 0⟩, .get "a", .set "a.json" "3", .cutOff "a.json" "4" ⟨2, none⟩,
        .get "../a", .get "a.json", .remove "a", .get "a"]
    d.Represents m ∧ (∀ e ∈ es, IsKey e.key → d.Fits e.key) ∧
      ∃ m', ServesAll m es (d.performAll es).1 m' ∧ (d.performAll es).2.Represents m' := by
  intro d m es
  have hd : d.Represents m := by
    constructor
    · intro key _
      have hdraft : (fileName key == draftName "a") = false := by
        simpa using fileName_ne_draftName key "a"
      by_cases ha : key = "a"
      · subst ha
        simp [d, m, find?, List.lookup_cons, hdraft]
      · have hfile : (fileName key == fileName "a") = false := by
          simpa using fileName_ne_of_ne ha
        simp [d, m, find?, List.lookup_cons, hdraft, hfile, ha]
    · intro key _ hfolder
      obtain ⟨before, after, hentries, -⟩ := List.lookup_eq_some_iff.mp hfolder
      have hmem : (draftName key, DirectoryEntry.folder) ∈ d.entries := by simp [hentries]
      simp [d] at hmem
  have hsizes : ∀ e ∈ es, (draftName e.key).utf8ByteSize ≤ 255 := by decide +kernel
  have hfits : ∀ e ∈ es, IsKey e.key → d.Fits e.key := by
    intro e he _ limit hlimit
    obtain rfl : 255 = limit := Option.some.inj hlimit
    exact hsizes e he
  exact ⟨hd, hfits, directory_serves_map.2.2.2.2.2 d m hd es hfits⟩

end Directory

end Reckoner
