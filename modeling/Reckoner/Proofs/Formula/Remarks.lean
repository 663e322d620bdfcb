import Reckoner.Formula.Basic

/-!
# `Reckoner.Proofs.Formula.Remarks` — how remarks on a formula begin

Messages about formulas and their units begin with a word, whatever labels and numbers they quote
further on. A message that begins with a digit is therefore never one of them.

## Contents
- **Messages.** `beginsWithDigit`, and `Uncounted` lists of remarks, without such messages.
- **Evaluation.** The remarks on operations, trees and answers are uncounted.
- **Compilation.** So are the diagnostics of formulas that do not compile.
-/

namespace Reckoner

/-! ## Messages -/

/-- A text begins with a digit. -/
def beginsWithDigit (text : String) : Bool := text.toList.head?.any Char.isDigit

/-- A text that begins with something else goes on as it likes. -/
theorem beginsWithDigit_append {front : String} {c : Char} (h : front.toList.head? = some c)
    (hc : c.isDigit = false) (rest : String) : beginsWithDigit (front ++ rest) = false := by
  rw [beginsWithDigit, String.toList_append, List.head?_append, h, Option.some_or, Option.any_some,
    hc]

/-- No message among some remarks begins with a digit. -/
def Uncounted (ds : List Diagnostic) : Prop :=
  ∀ message, .invalidFormula message ∈ ds → beginsWithDigit message = false

theorem uncounted_nil : Uncounted [] := fun _ hmem => absurd hmem List.not_mem_nil

theorem uncounted_append {ds es : List Diagnostic} (hds : Uncounted ds) (hes : Uncounted es) :
    Uncounted (ds ++ es) := by
  intro message hmem
  rcases List.mem_append.mp hmem with hmem | hmem
  · exact hds message hmem
  · exact hes message hmem

theorem uncounted_singleton {message : String} (h : beginsWithDigit message = false) :
    Uncounted [.invalidFormula message] := by
  intro other hmem
  obtain rfl := Diagnostic.invalidFormula.inj (List.mem_singleton.mp hmem)
  exact h

theorem uncounted_mismatch (expected actual : String) :
    Uncounted [.unitMismatch expected actual] := by
  intro message hmem
  cases List.mem_singleton.mp hmem

theorem uncounted_distinct {ds : List Diagnostic} (h : Uncounted ds) :
    Uncounted (Diagnostic.distinct ds) := by
  intro message hmem
  rcases Diagnostic.mem_merge.mp hmem with hnone | hmem
  · exact absurd hnone List.not_mem_nil
  · exact h message hmem

/-! ## Evaluation -/

theorem uncounted_orOverflow (base : CompoundUnit) (unit? : Option CompoundUnit) :
    Uncounted (orOverflow base unit?).2 := by
  cases unit? with
  | some u => exact uncounted_nil
  | none =>
      apply uncounted_singleton
      rw [String.append_assoc]
      exact beginsWithDigit_append (c := 'u') (by decide +kernel) (by decide) _

theorem uncounted_powerUnit (base exponentUnit : CompoundUnit) (exponent : Float) :
    Uncounted (powerUnit base exponentUnit exponent).2 := by
  have hmisplaced : Uncounted (if exponentUnit.isDimensionless then []
      else [.unitMismatch CompoundUnit.dimensionlessLabel exponentUnit.display]) := by
    split
    · exact uncounted_nil
    · exact uncounted_mismatch _ _
  unfold powerUnit
  dsimp only
  split
  · exact hmisplaced
  · split
    · exact uncounted_append hmisplaced (uncounted_orOverflow base _)
    · refine uncounted_append hmisplaced (uncounted_singleton ?_)
      rw [String.append_assoc, String.append_assoc, String.append_assoc]
      exact beginsWithDigit_append (c := 'n') (by decide +kernel) (by decide) _

/-- **One operation.** -/
theorem uncounted_unit (op : BinaryOp) (left right : CompoundUnit) (y : Float) :
    Uncounted (op.unit left right y).2 := by
  have hsum : Uncounted (sumUnit left right).2 := by
    unfold sumUnit
    dsimp only
    split
    · exact uncounted_nil
    · exact uncounted_mismatch _ _
  cases op with
  | add => exact hsum
  | sub => exact hsum
  | mul => exact uncounted_orOverflow left _
  | div => exact uncounted_orOverflow left _
  | pow => exact uncounted_powerUnit left right y

/-- **Every tree.** -/
theorem uncounted_measure (b : Bindings) (e : Expr) : Uncounted (e.measure b).remarks := by
  induction e with
  | number value => exact uncounted_nil
  | symbol name =>
      rw [Expr.measure]
      cases b.find? name with
      | none => exact uncounted_nil
      | some binding => exact uncounted_nil
  | neg operand ih => exact ih
  | binary op left right ihl ihr =>
      exact uncounted_append (uncounted_append ihl ihr) (uncounted_unit op _ _ _)

/-- **Every answer.** -/
theorem uncounted_answer (f : Formula) (b : Bindings) (expected : Option String) :
    Uncounted (f.answer b expected).warnings := by
  have hremarks := uncounted_distinct (uncounted_measure b f.tree)
  unfold Formula.answer Formula.evaluate
  cases f.symbols.filter fun name => !b.contains name with
  | cons name names =>
      -- what is missing is remarked on in other words
      intro message hmem
      obtain ⟨symbol, -, hsymbol⟩ := List.mem_map.mp hmem
      cases hsymbol
  | nil =>
      dsimp only
      by_cases hfinite : (f.tree.measure b).value.isFinite = true
      · rw [if_pos hfinite]
        refine uncounted_append hremarks ?_
        cases expected with
        | none => exact uncounted_nil
        | some claim =>
            simp only [Option.bind_some, unexpectedUnit?]
            split
            · exact uncounted_nil
            · exact uncounted_mismatch _ _
      · rw [if_neg hfinite]
        exact hremarks

/-! ## Compilation -/

/-- The messages are spelled out here, as `FormulaError.message` is expensive to unfold by name. -/
theorem beginsWithDigit_message (e : FormulaError) : beginsWithDigit e.message = false := by
  cases e with
  | empty => decide +kernel
  | unexpectedCharacter found position =>
      show beginsWithDigit ("unexpected character '" ++ found ++ "' at position " ++
        toString position) = false
      rw [String.append_assoc, String.append_assoc]
      exact beginsWithDigit_append (c := 'u') (by decide +kernel) (by decide) _
  | unexpectedToken found expected =>
      show beginsWithDigit ("unexpected " ++ found.token.describe ++ " at position " ++
        toString found.position ++ ", expected " ++ expected.text) = false
      rw [String.append_assoc, String.append_assoc, String.append_assoc, String.append_assoc]
      exact beginsWithDigit_append (c := 'u') (by decide +kernel) (by decide) _
  | unexpectedEnd expected =>
      show beginsWithDigit ("unexpected end of formula, expected " ++ expected.text) = false
      exact beginsWithDigit_append (c := 'u') (by decide +kernel) (by decide) _
  | tooDeep => decide +kernel

/-- **Every formula that does not compile.** -/
theorem uncounted_diagnostics (e : FormulaError) : Uncounted e.diagnostics := by
  cases e with
  | empty => exact uncounted_nil
  | _ => exact uncounted_singleton (beginsWithDigit_message _)

end Reckoner
