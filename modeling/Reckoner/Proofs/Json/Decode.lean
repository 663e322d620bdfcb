import Reckoner.Proofs.Json.Compact

/-!
# `Reckoner.Proofs.Json.Decode` — written values are decoded

The decoders applied to the drafts of written values: each leaf, list and record gives what was
written.

## Contents
- **Leaves.** `asString_string`, `asFloat_number`, `asWord_whole`.
- **Options and lists.** `asOption_some` with its cases, `asList_array`.
- **Records.** `Fills`: members fill the fields of a record one after the other.
-/

namespace Reckoner.Json

open Document (Decoded Shape)

/-! ## Leaves -/

theorem asString_string (s : String) : Draft.asString (.ofJson (.string s)) = .ok s := rfl

theorem ofJson_number {x : Float} (h : x.isFinite = true) :
    Draft.ofJson (.number x) = .number (numberChars x) := by
  rw [Draft.ofJson, if_pos h]

theorem asFloat_number {x : Float} (h : x.isFinite = true) :
    Draft.asFloat (.ofJson (.number x)) = .ok x := by
  rw [ofJson_number h]
  exact literalFloat_numberChars h

theorem asWord_whole (n : UInt64) : Draft.asWord (.ofJson (.whole n.toNat)) = .ok n := by
  have hchars : wholeChars n.toNat = Decimal.digitsOf n.toNat := by
    simp [wholeChars]
  have hdigits : (Decimal.digitsOf n.toNat).all Char.isDigit = true :=
    List.all_eq_true.mpr fun _ => Decimal.isDigit_of_mem_digitsOf
  have hfits : n.toNat < UInt64.size := n.toNat_lt
  unfold Draft.ofJson Draft.asWord
  dsimp only
  rw [hchars, hdigits, Decimal.natOfDigits_digitsOf, decide_eq_true hfits, UInt64.ofNat_toNat]
  rfl

/-! ## Options and lists -/

section Containers

variable {α : Type} {decode : Draft → Decoded α}

/-- What is not null is decoded as what it is. -/
theorem asOption_some {d : Draft} {a : α} (hnull : d ≠ .null) (h : decode d = .ok a) :
    Draft.asOption decode d = .ok (some a) := by
  unfold Draft.asOption
  split
  · exact absurd rfl hnull
  · rw [h]
    rfl

theorem asOption_string {s : String} {a : α} (h : decode (.ofJson (.string s)) = .ok a) :
    Draft.asOption decode (.ofJson (.string s)) = .ok (some a) :=
  asOption_some Draft.noConfusion h

theorem asOption_whole (n : UInt64) :
    Draft.asOption Draft.asWord (.ofJson (.whole n.toNat)) = .ok (some n) :=
  asOption_some Draft.noConfusion (asWord_whole n)

theorem asOption_number {x : Float} (h : x.isFinite = true) :
    Draft.asOption Draft.asFloat (.ofJson (.number x)) = .ok (some x) := by
  refine asOption_some ?_ (asFloat_number h)
  rw [ofJson_number h]
  exact Draft.noConfusion

theorem asList_array {encode : α → Json} {list : List α}
    (h : ∀ a ∈ list, decode (.ofJson (encode a)) = .ok a) :
    Draft.asList decode (.ofJson (.array (list.map encode))) = .ok list := by
  have hitems : (Draft.ofItems (list.map encode)).mapM decode = .ok list := by
    induction list with
    | nil => rfl
    | cons a as ih =>
        rw [List.map_cons, Draft.ofItems, List.mapM_cons, h a List.mem_cons_self,
          ih fun b hb => h b (List.mem_cons_of_mem _ hb)]
        rfl
  unfold Draft.ofJson Draft.asList
  dsimp only
  rw [hitems]
  rfl

end Containers

/-! ## Records -/

section Records

variable {ρ α : Type} {shape : Shape Draft ρ α} {ρ₀ ρ₁ ρ₂ : ρ} {name : String}
  {more : List (String × Json)}

/-- Members fill a record that is partly read. -/
def Fills (shape : Shape Draft ρ α) (ρ₀ : ρ) (list : List (String × Json)) (ρ₁ : ρ) : Prop :=
  fromMembers shape ρ₀ (Draft.ofMembers list) = .ok ρ₁

theorem Fills.nil : Fills shape ρ₀ [] ρ₀ := rfl

/-- A member of a field that is not there yet. -/
theorem Fills.member {content : Json} (hname : name ∈ shape.fields)
    (hnew : shape.has ρ₀ name = false) (hset : shape.set ρ₀ name (.ofJson content) = .ok ρ₁)
    (h : Fills shape ρ₁ more ρ₂) : Fills shape ρ₀ ((name, content) :: more) ρ₂ := by
  unfold Fills Draft.ofMembers fromMembers
  rw [if_pos hname, hnew, hset]
  exact h

/-- A member that may be absent. -/
theorem Fills.optional {β : Type} {encode : β → Json} {o : Option β} (update : Option β → ρ)
    (hname : name ∈ shape.fields) (hnew : shape.has ρ₀ name = false) (hnone : update none = ρ₀)
    (hsome : ∀ b, o = some b → shape.set ρ₀ name (.ofJson (encode b)) = .ok (update (some b)))
    (h : Fills shape (update o) more ρ₂) :
    Fills shape ρ₀ (optionalMember name encode o ++ more) ρ₂ := by
  cases o with
  | none =>
      rw [hnone] at h
      exact h
  | some b => exact .member hname hnew (hsome b rfl) h

/-- The field of a value that is decoded. -/
theorem set_ok {β γ : Type} {x : Decoded β} {b : β} (h : x = .ok b) (f : β → Decoded γ) :
    (x >>= f) = f b := by
  rw [h]
  rfl

/-- The record that the members of an object fill. -/
theorem asRecord_object {list : List (String × Json)} {a : α} (h : Fills shape shape.start list ρ₁)
    (hfinish : shape.finish ρ₁ = some a) : Draft.asRecord shape (.ofJson (.object list)) = .ok a := by
  unfold Fills at h
  unfold Draft.ofJson Draft.asRecord
  dsimp only
  rw [h]
  unfold Shape.close
  simp only [bind, Except.bind, closing, hfinish]

end Records

end Reckoner.Json
