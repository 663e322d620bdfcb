import Reckoner.Json.Decode

/-!
# `Reckoner.Proofs.Json.Decoded` — what is known of decoded values

Whatever text they come from, the items of a decoded list have been decoded one by one, and a record
has been put together by its fields only: what every field keeps holds of the record.

## Contents
- **Steps.** `exists_of_bind`.
- **Lists.** `items_of_asList`.
- **Records.** `exists_of_asRecord`.
-/

namespace Reckoner.Json

open Document (Decoded Shape)

variable {α : Type}

/-! ## Steps -/

theorem exists_of_bind {β : Type} {x : Decoded α} {f : α → Decoded β} {b : β}
    (h : (x >>= f) = .ok b) : ∃ a, x = .ok a ∧ f a = .ok b := by
  cases x with
  | error e => cases h
  | ok a => exact ⟨a, rfl, h⟩

/-! ## Lists -/

/-- A list of values comes from as many drafts, and each value from one of them. -/
theorem items_of_mapM {decode : Draft → Decoded α} {drafts : List Draft} {list : List α}
    (h : drafts.mapM decode = .ok list) :
    list.length = drafts.length ∧ ∀ a ∈ list, ∃ d ∈ drafts, decode d = .ok a := by
  induction drafts generalizing list with
  | nil =>
      cases h
      exact ⟨rfl, fun a ha => absurd ha List.not_mem_nil⟩
  | cons d ds ih =>
      rw [List.mapM_cons] at h
      obtain ⟨first, hfirst, h⟩ := exists_of_bind h
      obtain ⟨more, hmore, h⟩ := exists_of_bind h
      obtain ⟨hlength, hitems⟩ := ih hmore
      cases h
      refine ⟨congrArg Nat.succ hlength, fun a ha => ?_⟩
      rcases List.mem_cons.mp ha with rfl | ha
      · exact ⟨d, List.mem_cons_self, hfirst⟩
      · obtain ⟨d', hd', hdecoded⟩ := hitems a ha
        exact ⟨d', List.mem_cons_of_mem d hd', hdecoded⟩

/-- Only an array is decoded as a list. -/
theorem items_of_asList {decode : Draft → Decoded α} {d : Draft} {list : List α}
    (h : d.asList decode = .ok list) :
    ∃ drafts ending, d = .array drafts ending ∧ list.length = drafts.length ∧
      ∀ a ∈ list, ∃ d' ∈ drafts, decode d' = .ok a := by
  cases d with
  | array drafts ending =>
      obtain ⟨values, hvalues, h⟩ := exists_of_bind h
      obtain ⟨_, _, h⟩ := exists_of_bind h
      cases h
      exact ⟨drafts, ending, rfl, items_of_mapM hvalues⟩
  | null => cases h
  | bool value => cases h
  | number literal => cases h
  | string text => cases h
  | object members ending => cases h
  | cut at_ => cases h

/-! ## Records -/

section Records

variable {ρ : Type} {shape : Shape Draft ρ α} {P : ρ → Prop} {ρ₀ ρ₁ : ρ}

/-- Members keep what every field keeps. -/
theorem fromMembers_keeps
    (hset : ∀ {ρ₀ name d ρ₁}, P ρ₀ → shape.set ρ₀ name d = .ok ρ₁ → P ρ₁)
    {list : List (Option String × Draft)} (hstart : P ρ₀)
    (h : fromMembers shape ρ₀ list = .ok ρ₁) : P ρ₁ := by
  induction list generalizing ρ₀ with
  | nil =>
      cases h
      exact hstart
  | cons member rest ih =>
      obtain ⟨name, d⟩ := member
      cases name with
      | none => cases h
      | some name =>
          rw [fromMembers] at h
          by_cases hname : name ∈ shape.fields
          · rw [if_pos hname] at h
            cases hhas : shape.has ρ₀ name with
            | true =>
                rw [hhas] at h
                cases h
            | false =>
                rw [hhas] at h
                obtain ⟨ρ₂, hfield, h⟩ := exists_of_bind h
                exact ih (hset hstart hfield) h
          · -- a member of another name is passed over
            rw [if_neg hname] at h
            obtain ⟨_, -, h⟩ := exists_of_bind h
            exact ih hstart h

/-- So do the items of a list that takes the place of an object. -/
theorem fromItems_keeps
    (hset : ∀ {ρ₀ name d ρ₁}, P ρ₀ → shape.set ρ₀ name d = .ok ρ₁ → P ρ₁)
    {names : List String} {list : List Draft} {left : Nat} (hstart : P ρ₀)
    (h : fromItems shape ρ₀ names list = .ok (ρ₁, left)) : P ρ₁ := by
  induction list generalizing ρ₀ names with
  | nil =>
      cases names <;> cases h <;> exact hstart
  | cons d rest ih =>
      cases names with
      | nil =>
          cases h
          exact hstart
      | cons name names =>
          rw [fromItems] at h
          obtain ⟨ρ₂, hfield, h⟩ := exists_of_bind h
          exact ih (hset hstart hfield) h

theorem finish_of_close {a : α} (h : shape.close ρ₁ = .ok a) : shape.finish ρ₁ = some a := by
  unfold Shape.close at h
  cases hfinish : shape.finish ρ₁ with
  | none =>
      rw [hfinish] at h
      cases h
  | some b =>
      rw [hfinish] at h
      cases h
      rfl

/-- **A record is put together by its fields**: what holds at the start and is kept by every field
    holds of what the record is made of. -/
theorem exists_of_asRecord
    (hset : ∀ {ρ₀ name d ρ₁}, P ρ₀ → shape.set ρ₀ name d = .ok ρ₁ → P ρ₁)
    (hstart : P shape.start) {d : Draft} {a : α} (h : d.asRecord shape = .ok a) :
    ∃ ρ₁, P ρ₁ ∧ shape.finish ρ₁ = some a := by
  cases d with
  | object list ending =>
      obtain ⟨ρ₁, hmembers, h⟩ := exists_of_bind h
      obtain ⟨_, -, h⟩ := exists_of_bind h
      exact ⟨ρ₁, fromMembers_keeps hset hstart hmembers, finish_of_close h⟩
  | array list ending =>
      obtain ⟨⟨ρ₁, left⟩, hitems, h⟩ := exists_of_bind h
      dsimp only at h
      by_cases hleft : 0 < left
      · rw [if_pos hleft] at h
        cases h
      rw [if_neg hleft] at h
      obtain ⟨_, -, h⟩ := exists_of_bind h
      exact ⟨ρ₁, fromItems_keeps hset hstart hitems, finish_of_close h⟩
  | null => cases h
  | bool value => cases h
  | number literal => cases h
  | string text => cases h
  | cut at_ => cases h

end Records

end Reckoner.Json
