import Reckoner.Storage.Memory

/-!
# `Reckoner.Proofs.Storage` — what can be relied on

`Storage.Reliable` lists what a document under a key can rely on where nothing fails; the memory
without a quota is such a storage. `Storage.AllOrNothing` is what is left where any write may fail;
the memory is such a storage with every quota.
-/

namespace Reckoner

/-- In good states no operation under the keys fails, a write is read back, and it leaves the other
    keys alone. -/
structure Storage.Reliable {σ : Type} [Storage σ] (keys : List String) (good : σ → Prop) :
    Prop where
  get_ok : ∀ {s key}, good s → key ∈ keys → ∃ text, get s key = .ok text
  set_ok : ∀ {s key} (text), good s → key ∈ keys → (set s key text).1 = .ok ()
  good_set : ∀ {s key} (text), good s → key ∈ keys → good (set s key text).2
  get_set : ∀ {s key} (text), good s → key ∈ keys → get (set s key text).2 key = .ok (some text)
  get_set_of_ne : ∀ {s key other} (text), good s → key ∈ keys → other ∈ keys → other ≠ key →
    get (set s key text).2 other = get s other

/-- What some keys can rely on, fewer keys can. -/
theorem Storage.Reliable.mono {σ : Type} [Storage σ] {keys more : List String} {good : σ → Prop}
    (h : Reliable more good) (hsub : keys ⊆ more) : Reliable keys good where
  get_ok := fun hs hkey => h.get_ok hs (hsub hkey)
  set_ok := fun text hs hkey => h.set_ok text hs (hsub hkey)
  good_set := fun text hs hkey => h.good_set text hs (hsub hkey)
  get_set := fun text hs hkey => h.get_set text hs (hsub hkey)
  get_set_of_ne := fun text hs hkey hother => h.get_set_of_ne text hs (hsub hkey) (hsub hother)

/-- Where any write may fail: a text takes its place under its key and changes nothing else that is
    read, or the write fails and changes nothing. -/
structure Storage.AllOrNothing (σ : Type) [Storage σ] : Prop where
  get_of_ok : ∀ {s : σ} {key text}, (set s key text).1 = .ok () →
    ∀ other, get (set s key text).2 other = if other = key then .ok (some text) else get s other
  get_of_error : ∀ {s : σ} {key text e}, (set s key text).1 = .error e →
    ∀ other, get (set s key text).2 other = get s other

/-- Entries of other keys are looked up behind those of a key that is taken out. -/
theorem lookup_filter_of_ne {β : Type} {key other : String} (h : other ≠ key)
    (entries : List (String × β)) :
    (entries.filter fun entry => entry.1 != key).lookup other = entries.lookup other := by
  induction entries with
  | nil => rfl
  | cons entry entries ih =>
      obtain ⟨name, value⟩ := entry
      by_cases hname : name = key
      · have hne : (other == name) = false := by simpa [hname] using h
        rw [List.filter_cons_of_neg (by simpa using hname), List.lookup_cons, hne, ih]
      · rw [List.filter_cons_of_pos (by simpa using hname), List.lookup_cons, List.lookup_cons, ih]

/-- A key that is taken out is not found any more. -/
theorem lookup_filter_self {β : Type} (key : String) (entries : List (String × β)) :
    (entries.filter fun entry => entry.1 != key).lookup key = none := by
  rw [List.lookup_eq_none_iff]
  intro entry hentry
  have hne : entry.1 ≠ key := by simpa using (List.mem_filter.mp hentry).2
  simpa using hne.symm

namespace MemoryStorage

theorem get_insert (m : MemoryStorage) (key text : String) :
    (m.insert key text).get key = some text := by
  simp [get, insert]

theorem get_without (m : MemoryStorage) {key other : String} (h : other ≠ key) :
    (m.without key).lookup other = m.get other :=
  lookup_filter_of_ne h m.entries

theorem get_insert_of_ne (m : MemoryStorage) {key other : String} (text : String)
    (h : other ≠ key) : (m.insert key text).get other = m.get other := by
  have hne : (other == key) = false := by simpa using h
  rw [← m.get_without h]
  simp only [get, insert, List.lookup_cons, hne]

theorem get_insert_eq (m : MemoryStorage) (key text other : String) :
    (m.insert key text).get other = if other = key then some text else m.get other := by
  by_cases hother : other = key
  · rw [if_pos hother, hother, get_insert]
  · rw [if_neg hother, get_insert_of_ne m text hother]

/-- A write is done or refused, whatever the quota. -/
theorem set_cases (m : MemoryStorage) (key text : String) :
    Storage.set m key text = (.ok (), m.insert key text) ∨
      ∃ e, Storage.set m key text = (.error e, m) := by
  simp only [Storage.set, set]
  cases m.quota with
  | none => exact .inl rfl
  | some quota =>
      by_cases hfits : (m.insert key text).used ≤ quota
      · exact .inl (by simp only [if_pos hfits])
      · exact .inr ⟨.quotaExceeded quota, by simp only [if_neg hfits]⟩

/-- **With every quota the memory writes a text or changes nothing.** -/
theorem allOrNothing : Storage.AllOrNothing MemoryStorage where
  get_of_ok {m key text} hok other := by
    rcases m.set_cases key text with hset | ⟨e, hset⟩
    · rw [hset]
      show Except.ok ((m.insert key text).get other) = _
      rw [get_insert_eq]
      exact apply_ite Except.ok _ _ _
    · rw [hset] at hok
      cases hok
  get_of_error {m key text e} herror other := by
    rcases m.set_cases key text with hset | ⟨e', hset⟩
    · rw [hset] at herror
      cases herror
    · rw [hset]

/-- Without a quota every write is done. -/
theorem set_eq_insert {m : MemoryStorage} (h : m.quota = none) (key text : String) :
    Storage.set m key text = (.ok (), m.insert key text) := by
  simp only [Storage.set, set, h]

/-- **Without a quota the memory does not fail**, whatever the keys. -/
theorem reliable (keys : List String) :
    Storage.Reliable keys fun m : MemoryStorage => m.quota = none where
  get_ok := fun {m key} _ _ => ⟨m.get key, rfl⟩
  set_ok := fun text hquota _ => by rw [set_eq_insert hquota]
  good_set := fun text hquota _ => by
    rw [set_eq_insert hquota]
    exact hquota
  get_set := fun {m key} text hquota _ => by
    rw [set_eq_insert hquota]
    exact congrArg Except.ok (m.get_insert key text)
  get_set_of_ne := fun {m key other} text hquota _ _ hne => by
    rw [set_eq_insert hquota]
    exact congrArg Except.ok (m.get_insert_of_ne text hne)

end MemoryStorage

end Reckoner
