import Mathlib
import Reckoner.Proofs.Storage

/-!
# `Reckoner.Proofs.Storage.Quota` — the memory keeps within its quota

A memory with a quota never holds more bytes than that, keys counted with their texts, and it
refuses a text only if the total would exceed the quota once the text stood in place of the earlier
one of its key.

## Contents
- **Sizes.** `IsMap`: each key is stored once, so the entries are what is read; `used_eq`: the bytes
  of all entries, and `sizeAt`: those that one key takes. `used_without` is the balance of an entry
  that is taken out.
- **Calls.** `Call`, `perform` and `performAll`; `lastText`: the text of a key as the answers to the
  calls tell it.
- **The invariant.** `Keeps`: what every call keeps.
- **Runs.** `quota_kept`.
-/

namespace Reckoner.MemoryStorage

variable {m : MemoryStorage} {quota : Nat}

/-! ## Sizes -/

/-- Every key is stored once, and the entries are what is read. -/
structure IsMap (m : MemoryStorage) : Prop where
  nodup : (m.entries.map (·.1)).Nodup
  mem_iff : ∀ key text, (key, text) ∈ m.entries ↔ m.get key = some text

/-- The bytes that are used are those of all keys and of all texts. -/
theorem used_eq (m : MemoryStorage) :
    m.used = (m.entries.map fun entry => entry.1.utf8ByteSize + entry.2.utf8ByteSize).sum := by
  rw [List.sum_eq_foldr, List.foldr_map]
  rfl

/-- The bytes that a key takes: its own and those of its text, if it has one. -/
def sizeAt (m : MemoryStorage) (key : String) : Nat :=
  match m.get key with
  | some text => key.utf8ByteSize + text.utf8ByteSize
  | none => 0

theorem lookup_eq_none {entries : List (String × String)} {key : String}
    (h : key ∉ entries.map (·.1)) : entries.lookup key = none := by
  rw [List.lookup_eq_none_iff]
  intro entry hentry
  have hne : key ≠ entry.1 := fun heq => h (heq ▸ List.mem_map_of_mem hentry)
  simpa using hne

/-- Among distinct keys, a pair is an entry exactly if it is found. -/
theorem mem_iff_lookup {entries : List (String × String)} (h : (entries.map (·.1)).Nodup)
    {key text : String} :
    (key, text) ∈ entries ↔ entries.lookup key = some text := by
  induction entries with
  | nil => simp
  | cons entry entries ih =>
      obtain ⟨name, content⟩ := entry
      obtain ⟨hnew, hrest⟩ := List.nodup_cons.mp h
      rw [List.mem_cons, ih hrest, List.lookup_cons]
      by_cases hname : key = name
      · -- the first entry is the one; no other has its key
        subst hname
        have hnone : entries.lookup key = none := lookup_eq_none hnew
        simp [hnone, eq_comm]
      · have hne : (key == name) = false := by simpa using hname
        rw [hne]
        simp [hname]

theorem isMap_of_nodup (h : (m.entries.map (·.1)).Nodup) : m.IsMap :=
  ⟨h, fun _ _ => mem_iff_lookup h⟩

theorem nodup_without (h : m.IsMap) (key : String) : ((m.without key).map (·.1)).Nodup :=
  (List.filter_sublist.map _).nodup h.nodup

/-- Taking an entry out frees the bytes that its key takes. -/
theorem used_without (h : m.IsMap) (key : String) : (m.remove key).used + m.sizeAt key = m.used := by
  obtain ⟨entries, quota⟩ := m
  have hnodup : (entries.map (·.1)).Nodup := h.nodup
  clear h
  simp only [used, sizeAt, remove, without, get]
  induction entries with
  | nil => rfl
  | cons entry entries ih =>
      obtain ⟨name, content⟩ := entry
      obtain ⟨hnew, hrest⟩ := List.nodup_cons.mp hnodup
      have hbalance := ih hrest
      rw [List.lookup_cons, List.foldr_cons]
      by_cases hname : name = key
      · subst hname
        have hnone : entries.lookup name = none := lookup_eq_none hnew
        rw [hnone] at hbalance
        rw [List.filter_cons_of_neg (by simp), beq_self_eq_true]
        simp only [entrySize] at hbalance ⊢
        omega
      · have hne : (key == name) = false := by simpa using Ne.symm hname
        rw [List.filter_cons_of_pos (by simpa using hname), List.foldr_cons, hne]
        simp only
        omega

/-- A text takes the place of the earlier one of its key. -/
theorem used_insert (h : m.IsMap) (key text : String) :
    (m.insert key text).used + m.sizeAt key =
      m.used + (key.utf8ByteSize + text.utf8ByteSize) := by
  have hbalance := used_without h key
  have hinsert : (m.insert key text).used =
      key.utf8ByteSize + text.utf8ByteSize + (m.remove key).used := rfl
  omega

theorem isMap_remove (h : m.IsMap) (key : String) : (m.remove key).IsMap :=
  isMap_of_nodup (nodup_without h key)

theorem isMap_insert (h : m.IsMap) (key text : String) : (m.insert key text).IsMap := by
  apply isMap_of_nodup
  refine List.nodup_cons.mpr ⟨fun hmem => ?_, nodup_without h key⟩
  obtain ⟨entry, hentry, hkey⟩ := List.mem_map.mp hmem
  exact absurd hkey (by simpa using (List.mem_filter.mp hentry).2)

/-! ## Calls -/

/-- A call that changes a storage. -/
inductive Call where
  | set (key text : String)
  | remove (key : String)

/-- The key that a call is about. -/
def Call.key : Call → String
  | set key _ => key
  | remove key => key

/-- What a call leaves under its key when it is carried out. -/
def Call.text? : Call → Option String
  | set _ text => some text
  | remove _ => none

/-- Carries out a call. -/
def perform (m : MemoryStorage) : Call → Except StorageError Unit × MemoryStorage
  | .set key text => Storage.set m key text
  | .remove key => Storage.remove m key

/-- Calls with their answers, in order. -/
abbrev History := List (Call × Except StorageError Unit)

/-- Carries out one call after the other. -/
def performAll (m : MemoryStorage) : List Call → History × MemoryStorage
  | [] => ([], m)
  | c :: cs =>
    let (answer, m) := m.perform c
    let (history, m) := m.performAll cs
    ((c, answer) :: history, m)

/-- The text of a key after calls that were answered: that of the last successful `set`, unless the
    key was removed since. -/
def lastText (key : String) (history : History) : Option String :=
  ((history.filter fun call => call.1.key == key && call.2.isOk).getLast?).bind (·.1.text?)

theorem lastText_append_of_ok {history : History} {c : Call} {answer : Except StorageError Unit}
    (h : answer = .ok ()) (key : String) :
    lastText key (history ++ [(c, answer)]) =
      if key = c.key then c.text? else lastText key history := by
  subst h
  unfold lastText
  rw [List.filter_append]
  by_cases hkey : key = c.key
  · rw [if_pos hkey, List.filter_cons_of_pos (by simp [hkey, Except.isOk, Except.toBool]),
      List.filter_nil, List.getLast?_concat]
    rfl
  · have hne : c.key ≠ key := Ne.symm hkey
    rw [if_neg hkey, List.filter_cons_of_neg (by simp [hne]), List.filter_nil, List.append_nil]

theorem lastText_append_of_error {history : History} {c : Call}
    {answer : Except StorageError Unit} {e : StorageError} (h : answer = .error e) (key : String) :
    lastText key (history ++ [(c, answer)]) = lastText key history := by
  subst h
  unfold lastText
  rw [List.filter_append, List.filter_cons_of_neg (by simp [Except.isOk, Except.toBool]),
    List.filter_nil, List.append_nil]

/-! ## The invariant -/

/-- A storage keeps its quota, and holds what the answers to the calls so far have promised. -/
structure Keeps (quota : Nat) (history : History) (m : MemoryStorage) : Prop where
  quota_eq : m.quota = some quota
  isMap : m.IsMap
  used_le : m.used ≤ quota
  get_eq : ∀ key, m.get key = lastText key history

/-- A text is accepted exactly if the quota is kept with it in place of the earlier one. -/
theorem set_eq (hquota : m.quota = some quota) (hmap : m.IsMap) (key text : String) :
    Storage.set m key text =
      if m.used + (key.utf8ByteSize + text.utf8ByteSize) ≤ quota + m.sizeAt key then
        (.ok (), m.insert key text)
      else (.error (.quotaExceeded quota), m) := by
  have hbalance := used_insert hmap key text
  simp only [Storage.set, set, hquota]
  by_cases hfits : (m.insert key text).used ≤ quota
  · rw [if_pos hfits, if_pos (by omega)]
  · rw [if_neg hfits, if_neg (by omega)]

theorem get_remove_eq (m : MemoryStorage) (key other : String) :
    (m.remove key).get other = if other = key then none else m.get other := by
  by_cases hother : other = key
  · rw [if_pos hother, hother]
    exact lookup_filter_self key m.entries
  · rw [if_neg hother]
    exact m.get_without hother

/-- **One call** keeps the quota and what is promised. -/
theorem Keeps.perform {history : History} (h : Keeps quota history m) (c : Call) :
    Keeps quota (history ++ [(c, (m.perform c).1)]) (m.perform c).2 := by
  cases c with
  | set key text =>
      have hbalance := used_insert h.isMap key text
      show Keeps quota (history ++ [(.set key text, (Storage.set m key text).1)])
        (Storage.set m key text).2
      rw [set_eq h.quota_eq h.isMap]
      split
      · have hused : (m.insert key text).used ≤ quota := by omega
        refine ⟨h.quota_eq, isMap_insert h.isMap key text, hused, fun other => ?_⟩
        rw [lastText_append_of_ok rfl, get_insert_eq, h.get_eq]
        rfl
      · refine ⟨h.quota_eq, h.isMap, h.used_le, fun other => ?_⟩
        rw [lastText_append_of_error rfl, h.get_eq]
  | remove key =>
      have hbalance := used_without h.isMap key
      have hused : (m.remove key).used ≤ quota := Nat.le_trans (by omega) h.used_le
      refine ⟨h.quota_eq, isMap_remove h.isMap key, hused, fun other => ?_⟩
      show (m.remove key).get other = lastText other (history ++ [(.remove key, .ok ())])
      rw [lastText_append_of_ok rfl, get_remove_eq, h.get_eq]
      rfl

/-! ## Runs -/

/-- **All calls.** -/
theorem Keeps.performAll {history : History} (h : Keeps quota history m) (calls : List Call) :
    Keeps quota (history ++ (m.performAll calls).1) (m.performAll calls).2 := by
  induction calls generalizing m history with
  | nil =>
      rw [MemoryStorage.performAll, List.append_nil]
      exact h
  | cons c cs ih =>
      have hrest := ih (h.perform c)
      rw [List.append_assoc] at hrest
      exact hrest

theorem keeps_empty (quota : Nat) : Keeps quota [] { quota := some quota } where
  quota_eq := rfl
  isMap := isMap_of_nodup List.nodup_nil
  used_le := Nat.zero_le quota
  get_eq _ := rfl

/-- **The memory keeps within its quota, and refuses only what would exceed it.** After any calls on
    an empty memory with a quota, each key is stored once, and the bytes of all keys and texts together
    are no more than the quota. A further text is accepted exactly if the total, with the text in place of the
    earlier one of its key, keeps the quota; then its key alone changes, and otherwise nothing does.
    What is read is the text of the last accepted call on the key. -/
theorem quota_kept (quota : Nat) (calls : List Call) :
    let history := (performAll { quota := some quota } calls).1
    let m := (performAll { quota := some quota } calls).2
    m.IsMap ∧ m.used ≤ quota ∧
      m.used = (m.entries.map fun entry => entry.1.utf8ByteSize + entry.2.utf8ByteSize).sum ∧
      (∀ key text,
        if m.used + (key.utf8ByteSize + text.utf8ByteSize) ≤ quota + m.sizeAt key then
          (Storage.set m key text).1 = .ok () ∧
            ∀ other, Storage.get (Storage.set m key text).2 other =
              if other = key then .ok (some text) else Storage.get m other
        else Storage.set m key text = (.error (.quotaExceeded quota), m)) ∧
      (∀ key, (Storage.remove m key).1 = .ok () ∧
        ∀ other, Storage.get (Storage.remove m key).2 other =
          if other = key then .ok none else Storage.get m other) ∧
      ∀ key, Storage.get m key = .ok (lastText key history) := by
  intro history m
  have hkeeps : Keeps quota history m := (keeps_empty quota).performAll calls
  refine ⟨hkeeps.isMap, hkeeps.used_le, m.used_eq, fun key text => ?_,
    fun key => ⟨rfl, fun other => ?_⟩, fun key => congrArg Except.ok (hkeeps.get_eq key)⟩
  · have hset := set_eq hkeeps.quota_eq hkeeps.isMap key text
    split
    · rename_i hfits
      have hok : (Storage.set m key text).1 = .ok () := by rw [hset, if_pos hfits]
      exact ⟨hok, allOrNothing.get_of_ok hok⟩
    · rename_i hexceeds
      rw [hset, if_neg hexceeds]
  · show Except.ok ((m.remove key).get other) = _
    rw [get_remove_eq]
    exact apply_ite Except.ok _ _ _

/-- A text that grows counts once; one that does not fit, in bytes and not in characters, leaves all
    as it was, and there is room again once the key is gone. -/
example :
    ((performAll { quota := some 10 } [.set "k" "12345", .set "k" "123456789", .set "é" "x",
      .remove "k", .set "é" "12345678", .set "é" "123456789"]).1.map (·.2.isOk),
    (performAll { quota := some 10 } [.set "k" "12345", .set "é" "1234"]).2.get "k") =
      ([true, true, false, true, true, false], some "12345") := by
  decide +kernel

end Reckoner.MemoryStorage
