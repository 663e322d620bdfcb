import Reckoner.Proofs.Yaml.Read

/-!
# `Reckoner.Proofs.Yaml.Decode` — written values are decoded

The decoders applied to the nodes of written values. A text that is heard as a word for nothing is
no text; all else gives what was heard.

## Contents
- **Yields.** `Yields`: what a decoder gives, and when.
- **Leaves.** Texts, numbers and choices, and the same where they may be absent.
- **Lists and records.** `yields_list`, and `Fills`: members fill the fields of a record one after
  the other.
-/

namespace Reckoner.Yaml

open Document (Decoded Shape)

/-! ## Yields -/

section Yields

variable {α β : Type} {p q : Bool} {x : Decoded α} {a : α}

/-- A decoder gives a value under a condition, and refuses otherwise. -/
def Yields (p : Bool) (x : Decoded α) (a : α) : Prop := x = if p then .ok a else .error .mismatched

theorem Yields.of_ok (h : x = .ok a) : Yields true x a := h

theorem Yields.bind {f : α → Decoded β} {b : β} (h : Yields p x a) (hf : Yields q (f a) b) :
    Yields (p && q) (x >>= f) b := by
  unfold Yields at *
  rw [h]
  cases p with
  | true => exact hf
  | false => rfl

/-- The field of a value that is decoded. -/
theorem Yields.set {f : α → Decoded β} {b : β} (h : Yields p x a) (hf : f a = .ok b) :
    Yields p (x >>= f) b := by
  have hbind := h.bind (Yields.of_ok hf)
  rwa [Bool.and_true] at hbind

end Yields

/-! ## Leaves -/

/-- What is heard of a text. -/
def heardText (text : String) : String := String.ofList (heardOf text.toList)

/-- A text that is not heard as a word for nothing. -/
def isAudible (text : String) : Bool := !(Node.ofJson (.string text)).isNull

/-- What is heard of a text that may be absent. -/
def heardOption (text : String) : Option String :=
  if (Node.ofJson (.string text)).isAbsent then none else some (heardText text)

theorem yields_string (text : String) :
    Yields (isAudible text) (Node.asString (.ofJson (.string text))) (heardText text) := by
  have hstring : Node.asString (.ofJson (.string text)) =
      if (Node.ofJson (.string text)).isNull then .error .mismatched
      else .ok (heardText text) := rfl
  rw [Yields, hstring, isAudible]
  cases (Node.ofJson (.string text)).isNull with
  | true => rfl
  | false => rfl

theorem isNull_of_not_absent {n : Node} (h : n.isAbsent = false) : n.isNull = false := by
  cases n with
  | scalar spelling tag text =>
      cases spelling with
      | plain =>
          cases tag <;> first | exact h | exact absurd h nofun
      | quoted => rfl
      | block => rfl
  | list items => rfl
  | mapping entries => rfl

theorem asOption_string (text : String) :
    Node.asOption Node.asString (.ofJson (.string text)) = .ok (heardOption text) := by
  rw [Node.asOption, heardOption]
  split
  · rfl
  · rename_i habsent
    have hnull := isNull_of_not_absent (Bool.eq_false_iff.mpr habsent)
    have hread := yields_string text
    rw [isAudible, hnull] at hread
    rw [hread]
    rfl

/-- A plain text is no word for nothing. -/
theorem not_isNullText_plain {cs : List Char} (h : isPlain cs = true) :
    Node.isNullText cs = false := by
  have hne := (isBare_of_isPlain h).ne_nil
  have hword : isWord nullWords cs = false := by
    unfold isPlain at h
    split at h
    · exact absurd h Bool.false_ne_true
    · simp only [Bool.and_eq_true, Bool.not_eq_true'] at h
      exact h.1.1.1.1.1.1.1.1
  simp only [Node.isNullText, Bool.or_eq_false_iff, List.isEmpty_eq_false_iff, beq_eq_false_iff_ne]
  refine ⟨⟨hne, ?_⟩, fun hnull => ?_⟩
  · rintro rfl
    exact absurd hword (by decide)
  · rw [isWord, hnull] at hword
    exact absurd hword (by decide)

/-- What survives is not absent. -/
theorem not_absent_of_survives {text : String} (h : Survives text.toList) :
    (Node.ofJson (.string text)).isAbsent = false := by
  have hheard := heardOf_eq_iff.mpr h
  have hnode : Node.ofJson (.string text) =
      .scalar (spellingOf text.toList) .untagged text.toList := by
    rw [Node.ofJson, hheard]
  rw [hnode, spellingOf]
  cases hstyle : Style.of text.toList with
  | plain => exact not_isNullText_plain (isPlain_of_plain hstyle)
  | single => rfl
  | double => rfl
  | literal =>
      exact List.isEmpty_eq_false_iff.mpr (List.ne_nil_of_mem (isPlain_of_literal hstyle).1)
  | folded =>
      exact List.isEmpty_eq_false_iff.mpr (isBare_of_isPlain (isPlain_of_folded hstyle).1).ne_nil

/-- A text that survives is heard, and as it is. -/
theorem heard_of_survives {text : String} (h : Survives text.toList) :
    heardText text = text ∧ isAudible text = true ∧ heardOption text = some text := by
  have habsent := not_absent_of_survives h
  have hheard : heardText text = text := by
    rw [heardText, heardOf_eq_iff.mpr h, String.ofList_toList]
  refine ⟨hheard, ?_, ?_⟩
  · rw [isAudible, isNull_of_not_absent habsent]
    rfl
  · rw [heardOption, habsent, hheard]
    rfl

theorem heardText_eq_iff {text : String} : heardText text = text ↔ Survives text.toList := by
  rw [← heardOf_eq_iff, heardText]
  constructor
  · intro h
    have hchars := congrArg String.toList h
    rwa [String.toList_ofList] at hchars
  · intro h
    rw [h, String.ofList_toList]

theorem heardOption_eq_iff {text : String} :
    heardOption text = some text ↔ Survives text.toList := by
  refine ⟨fun h => ?_, fun h => (heard_of_survives h).2.2⟩
  rw [heardOption] at h
  split at h
  · exact absurd h nofun
  · exact heardText_eq_iff.mp (Option.some.inj h)

/-- Numerals are no words for nothing. -/
theorem not_isNullText_numeral {cs : List Char} (h : IsNumeral cs) :
    Node.isNullText cs = false := by
  obtain ⟨ch, tail, rfl, hfront⟩ := h.front
  have hmark : ch ≠ '~' ∧ ch.toLower ≠ 'n' := by
    rcases hfront with hdigit | ⟨rfl, -⟩
    · rw [toLower_digit hdigit]
      exact ⟨ne_of_isDigit hdigit (by decide), ne_of_isDigit hdigit (by decide)⟩
    · decide
  simp [Node.isNullText, hmark.1, hmark.2]

theorem asFloat_number {x : Float} (h : x.isFinite = true) :
    Node.asFloat (.ofJson (.number x)) = .ok x := by
  have hnumber : Node.ofJson (.number x) = .scalar .plain .untagged (numberLayout.chars x) := rfl
  rw [hnumber, Node.asFloat, float?_number h]

theorem asOption_number {x : Float} (h : x.isFinite = true) :
    Node.asOption Node.asFloat (.ofJson (.number x)) = .ok (some x) := by
  have habsent : (Node.ofJson (.number x)).isAbsent = false :=
    not_isNullText_numeral (isNumeral_number h)
  rw [Node.asOption, habsent, asFloat_number h]
  rfl

theorem asWord_whole (n : UInt64) : Node.asWord (.ofJson (.whole n.toNat)) = .ok n := by
  have hwhole :
      Node.ofJson (.whole n.toNat) = .scalar .plain .untagged (Decimal.digitsOf n.toNat) := by
    simp [Node.ofJson, leafChars, Json.leafChars]
  have hfits : n.toNat < UInt64.size := n.toNat_lt
  rw [hwhole, Node.asWord, whole?_digitsOf]
  dsimp only
  rw [if_pos hfits, UInt64.ofNat_toNat]

theorem asOption_whole (n : UInt64) :
    Node.asOption Node.asWord (.ofJson (.whole n.toNat)) = .ok (some n) := by
  have habsent : (Node.ofJson (.whole n.toNat)).isAbsent = false :=
    not_isNullText_numeral (isNumeral_whole n.toNat)
  rw [Node.asOption, habsent, asWord_whole]
  rfl

/-! ## Lists and records -/

section Lists

variable {α : Type} {decode : Node → Decoded α} {encode : α → Json} {p : α → Bool} {hear : α → α}

theorem yields_list {list : List α}
    (h : ∀ a ∈ list, Yields (p a) (decode (.ofJson (encode a))) (hear a)) :
    Yields (list.all p) (Node.asList decode (.ofJson (.array (list.map encode))))
      (list.map hear) := by
  change Yields (list.all p) ((Node.ofItems (list.map encode)).mapM decode) (list.map hear)
  induction list with
  | nil => exact .of_ok rfl
  | cons a list ih =>
      rw [List.forall_mem_cons] at h
      rw [List.map_cons, Node.ofItems, List.mapM_cons, List.all_cons]
      exact h.1.bind ((ih h.2).set rfl)

end Lists

section Records

variable {ρ α : Type} {shape : Shape Node ρ α} {p q : Bool} {ρ₀ ρ₁ ρ₂ : ρ} {name : String}
  {ms more : List (String × Json)}

theorem asString_name (h : isName name = true) :
    Node.asString (.scalar .plain .untagged name.toList) = .ok name := by
  have hnull : Node.isNullText name.toList = false :=
    not_isNullText_plain (isPlain_of_plain (isName_eq_true h).1)
  have hstring : Node.asString (.scalar .plain .untagged name.toList) =
      if Node.isNullText name.toList then .error .mismatched
      else .ok (String.ofList name.toList) := rfl
  rw [hstring, hnull, String.ofList_toList]
  rfl

/-- Members with names as keys fill a record that is partly read. -/
structure Fills (shape : Shape Node ρ α) (p : Bool) (ρ₀ : ρ) (ms : List (String × Json)) (ρ₁ : ρ) :
    Prop where
  named : ∀ m ∈ ms, isName m.1 = true
  yields : Yields p (Node.fromFields shape ρ₀ (Node.ofMembers ms)) ρ₁

theorem Fills.nil : Fills shape true ρ₀ [] ρ₀ :=
  ⟨fun _ h => absurd h List.not_mem_nil, .of_ok rfl⟩

/-- A member of a field that is not there yet. -/
theorem Fills.member {content : Json} (hkey : isName name = true) (hname : name ∈ shape.fields)
    (hnew : shape.has ρ₀ name = false) (hset : Yields p (shape.set ρ₀ name (.ofJson content)) ρ₁)
    (h : Fills shape q ρ₁ more ρ₂) : Fills shape (p && q) ρ₀ ((name, content) :: more) ρ₂ := by
  refine ⟨List.forall_mem_cons.mpr ⟨hkey, h.named⟩, ?_⟩
  have hfields : Node.fromFields shape ρ₀ (Node.ofMembers ((name, content) :: more)) =
      shape.set ρ₀ name (.ofJson content) >>= fun ρ =>
        Node.fromFields shape ρ (Node.ofMembers more) := by
    rw [Node.ofMembers, Node.fromFields, asString_name hkey]
    simp only [bind, Except.bind, if_pos hname, hnew]
    rfl
  rw [hfields]
  exact hset.bind h.yields

/-- A member that is decoded in any case. -/
theorem Fills.certain {content : Json} (hkey : isName name = true) (hname : name ∈ shape.fields)
    (hnew : shape.has ρ₀ name = false)
    (hset : Yields true (shape.set ρ₀ name (.ofJson content)) ρ₁) (h : Fills shape q ρ₁ more ρ₂) :
    Fills shape q ρ₀ ((name, content) :: more) ρ₂ := by
  have hmember := Fills.member hkey hname hnew hset h
  rwa [Bool.true_and] at hmember

/-- A member that may be absent. -/
theorem Fills.optional {β : Type} {encode : β → Json} {o : Option β} (update : Option β → ρ)
    (hkey : isName name = true) (hname : name ∈ shape.fields) (hnew : shape.has ρ₀ name = false)
    (hnone : update none = ρ₀)
    (hsome : ∀ b, o = some b →
      Yields true (shape.set ρ₀ name (.ofJson (encode b))) (update (some b)))
    (h : Fills shape q (update o) more ρ₂) :
    Fills shape q ρ₀ (Json.optionalMember name encode o ++ more) ρ₂ := by
  cases o with
  | none =>
      rw [hnone] at h
      exact h
  | some b => exact .certain hkey hname hnew (hsome b rfl) h

theorem isMergeKey_name (h : isName name = true) :
    Node.isMergeKey (.scalar .plain .untagged name.toList) = false := by
  obtain ⟨-, ⟨ch, tail, hcs⟩, halpha, -⟩ := isName_eq_true h
  have hne : ch ≠ '<' := ne_of_isAlpha (halpha ch (by simp [hcs])) (by decide)
  simp [Node.isMergeKey, hcs, hne]

theorem isKeyOf_ofMembers (hnew : name ∉ ms.map Prod.fst) :
    Node.isKeyOf (.scalar .plain .untagged name.toList) (Node.ofMembers ms) = false := by
  induction ms with
  | nil => rfl
  | cons m ms ih =>
      obtain ⟨other, content⟩ := m
      rw [List.map_cons, List.mem_cons, not_or] at hnew
      have hother : (other.toList == name.toList) = false := by
        rw [beq_eq_false_iff_ne]
        exact fun h => hnew.1 (String.toList_inj.mp h).symm
      have hrest := ih hnew.2
      rw [Node.isKeyOf] at hrest ⊢
      rw [Node.ofMembers, List.any_cons, hrest, Node.isSame, hother]
      simp

/-- Distinct names are the keys of a mapping's fields. -/
theorem fields?_ofMembers (hnamed : ∀ m ∈ ms, isName m.1 = true)
    (hdistinct : (ms.map Prod.fst).Nodup) :
    Node.fields? (Node.ofMembers ms) = some (Node.ofMembers ms) := by
  have hwritten : Node.written (Node.ofMembers ms) = Node.ofMembers ms ∧
      Node.mergedEntries? (Node.ofMembers ms) = some [] ∧
      Node.areDistinct (Node.ofMembers ms) = true := by
    induction ms with
    | nil => exact ⟨rfl, rfl, rfl⟩
    | cons m ms ih =>
        obtain ⟨name, content⟩ := m
        rw [List.forall_mem_cons] at hnamed
        rw [List.map_cons, List.nodup_cons] at hdistinct
        obtain ⟨hwritten, hmerged, hdistinctRest⟩ := ih hnamed.2 hdistinct.2
        have hmerge := isMergeKey_name hnamed.1
        have hkey := isKeyOf_ofMembers hdistinct.1
        rw [Node.written] at hwritten ⊢
        refine ⟨?_, ?_, ?_⟩
        · rw [Node.ofMembers, List.filter_cons_of_pos (by rw [hmerge]; rfl), hwritten]
        · rw [Node.ofMembers, Node.mergedEntries?, hmerged, hmerge]
          rfl
        · rw [Node.ofMembers, Node.areDistinct, hkey, hdistinctRest]
          rfl
  obtain ⟨hwritten, hmerged, hdistinct⟩ := hwritten
  rw [Node.fields?, hwritten, hmerged, hdistinct]
  rfl

/-- The record that the members of an object fill. -/
theorem yields_record {a : α} (h : Fills shape p shape.start ms ρ₁)
    (hdistinct : (ms.map Prod.fst).Nodup) (hfinish : shape.finish ρ₁ = some a) :
    Yields p (Node.asRecord shape (.ofJson (.object ms))) a := by
  have hclose : shape.close ρ₁ = .ok a := by rw [Shape.close, hfinish]
  have hrecord : Node.asRecord shape (.ofJson (.object ms)) =
      Node.fromFields shape shape.start (Node.ofMembers ms) >>= shape.close := by
    rw [Node.ofJson, Node.asRecord, fields?_ofMembers h.named hdistinct]
  rw [hrecord]
  exact h.yields.set hclose

end Records

end Reckoner.Yaml
