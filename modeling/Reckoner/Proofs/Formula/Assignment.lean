import Mathlib.Data.List.Induction
import Mathlib.Data.List.Nodup
import Reckoner.Proofs.Formula.Dimension

/-!
# `Reckoner.Proofs.Formula.Assignment` — values that are set in place

A run over many values builds its bindings once and sets values in them. Which variable a symbol
belongs to was decided when the bindings were built, by the id of the first variable that carries the
symbol; setting a value trims the symbol again and compares ids again. In a table with distinct ids
both find the same variable, so the bindings in the end are those of a table in which the values
themselves are changed.

## Contents
- **Calls.** `setValues`: the answers to a sequence of calls, and the bindings it leaves.
- **The changed table.** `lastValue?` and `changedTable`.
- **Look-ups.** `find?_assignAll`: what a symbol stands for after any number of calls.
- **Formulas.** `set_in_place_eq_rebuilt`.
-/

namespace Reckoner

open Bindings (Agree ofVariables)

/-! ## Calls -/

namespace Bindings

/-- Sets values one after the other: whether each call was accepted, and the bindings in the end. -/
def setValues (b : Bindings) : List (Variable × Float) → List Bool × Bindings
  | [] => ([], b)
  | (v, x) :: changes =>
    match b.setValue? v x with
    | some changed => (true :: (changed.setValues changes).1, (changed.setValues changes).2)
    | none => (false :: (b.setValues changes).1, (b.setValues changes).2)

theorem owns_assignAll (b : Bindings) (changes : List (Variable × Float)) :
    (b.assignAll changes).owns = b.owns := by
  induction changes generalizing b with
  | nil => rfl
  | cons change changes ih => exact (ih _).trans (b.owns_assign change.1 change.2)

/-- **The calls for owners are accepted**, and the others leave no trace. -/
theorem setValues_eq (b : Bindings) (changes : List (Variable × Float)) :
    b.setValues changes = (changes.map fun change => b.owns change.1, b.assignAll changes) := by
  induction changes generalizing b with
  | nil => rfl
  | cons change changes ih =>
      obtain ⟨v, x⟩ := change
      have hstep : b.assignAll ((v, x) :: changes) = (b.assign v x).assignAll changes := rfl
      by_cases hv : b.owns v = true
      · rw [setValues, setValue?_eq, if_pos hv]
        dsimp only
        rw [ih, owns_assign, hstep, List.map_cons, hv]
      · rw [setValues, setValue?_eq, if_neg hv]
        dsimp only
        rw [ih, hstep, assign_of_not_owns hv, List.map_cons, eq_false_of_ne_true hv]

/-- Calls that are refused can be left out. -/
theorem assignAll_filter (b : Bindings) (changes : List (Variable × Float)) :
    b.assignAll (changes.filter fun change => b.owns change.1) = b.assignAll changes := by
  induction changes generalizing b with
  | nil => rfl
  | cons change changes ih =>
      obtain ⟨v, x⟩ := change
      have hrest := ih (b.assign v x)
      rw [owns_assign] at hrest
      by_cases hv : b.owns v = true
      · rw [List.filter_cons_of_pos (by exact hv)]
        exact hrest
      · rw [assign_of_not_owns hv] at hrest
        rw [List.filter_cons_of_neg (by exact hv), hrest]
        show _ = (b.assign v x).assignAll changes
        rw [assign_of_not_owns hv]

theorem assignAll_concat (b : Bindings) (changes : List (Variable × Float))
    (change : Variable × Float) :
    b.assignAll (changes ++ [change]) = (b.assignAll changes).assign change.1 change.2 := by
  rw [assignAll, List.foldl_append]
  rfl

end Bindings

/-! ## The changed table -/

/-- The variable is the first one of the table with its symbol. -/
def isFirst (table : List Variable) (v : Variable) : Bool := decide (carrier? table v.key = some v)

/-- The value that is set last for a variable. -/
def lastValue? (changes : List (Variable × Float)) (v : Variable) : Option Float :=
  (changes.reverse.find? fun change => change.1.id == v.id).map (·.2)

theorem lastValue?_concat (changes : List (Variable × Float)) (change : Variable × Float)
    (v : Variable) :
    lastValue? (changes ++ [change]) v =
      if change.1.id = v.id then some change.2 else lastValue? changes v := by
  rw [lastValue?, List.reverse_append, List.reverse_singleton, List.singleton_append, lastValue?]
  by_cases hid : change.1.id = v.id
  · rw [List.find?_cons_of_pos (by simpa using hid), if_pos hid]
    rfl
  · rw [List.find?_cons_of_neg (by simpa using hid), if_neg hid]

/-- The table in which every variable that is first with its symbol has the value that is set last
    for it, if there is one. -/
def changedTable (table : List Variable) (changes : List (Variable × Float)) : List Variable :=
  table.map fun v =>
    if isFirst table v then { v with value := (lastValue? changes v).getD v.value } else v

variable {table : List Variable} {changes : List (Variable × Float)}

/-- Carriers are the same variables before and after the change. -/
theorem carrier?_changedTable (symbol : String) :
    carrier? (changedTable table changes) symbol =
      (carrier? table symbol).map fun v =>
        { v with value := (lastValue? changes v).getD v.value } := by
  have hkey : ∀ v : Variable, (if isFirst table v then
      { v with value := (lastValue? changes v).getD v.value } else v).key = v.key := by
    intro v
    split <;> rfl
  rw [carrier?, changedTable, List.find?_map]
  simp only [Function.comp_def, hkey]
  show (carrier? table symbol).map _ = _
  cases hv : carrier? table symbol with
  | none => rfl
  | some v =>
      -- what is found for a symbol is the first variable with it
      have hsymbol : v.key = symbol := by simpa using List.find?_some hv
      have hfirst : isFirst table v = true := by simp [isFirst, hsymbol, hv]
      rw [Option.map_some, Option.map_some, if_pos hfirst]

/-! ## Look-ups -/

/-- In a table with distinct ids, a variable owns its symbol when it is the first with it. -/
theorem owns_ofVariables_eq_isFirst (hids : (table.map Variable.id).Nodup) {v : Variable}
    (hv : v ∈ table) : (ofVariables table).owns v = isFirst table v := by
  rw [Bool.eq_iff_iff, Bindings.owns_ofVariables, isFirst, decide_eq_true_eq]
  constructor
  · rintro ⟨w, hw, hid⟩
    have hmem : w ∈ table := List.mem_of_find?_eq_some hw
    rw [hw, List.inj_on_of_nodup_map hids hmem hv hid]
  · exact fun hfirst => ⟨v, hfirst, rfl⟩

/-- **After any number of calls** a symbol stands for the variable it stood for, with the value that
    was set last for it. -/
theorem find?_assignAll (hids : (table.map Variable.id).Nodup)
    (hchanges : ∀ change ∈ changes, change.1 ∈ table) (symbol : String) :
    ((ofVariables table).assignAll changes).find? symbol =
      (carrier? table symbol).map fun v =>
        { v.binding with value := (lastValue? changes v).getD v.value } := by
  induction changes using List.reverseRecOn with
  | nil =>
      show (ofVariables table).find? symbol = _
      rw [Bindings.find?_ofVariables]
      rfl
  | append_singleton changes change ih =>
      obtain ⟨v, x⟩ := change
      rw [List.forall_mem_append, List.forall_mem_singleton] at hchanges
      obtain ⟨hbefore, hv⟩ := hchanges
      have howns : ((ofVariables table).assignAll changes).owns v = isFirst table v := by
        rw [Bindings.owns_assignAll, owns_ofVariables_eq_isFirst hids hv]
      rw [Bindings.assignAll_concat, Bindings.find?_assign, howns, ih hbefore]
      split
      · -- the call is for this symbol and accepted
        rename_i haccepted
        obtain ⟨hfirst, rfl⟩ := haccepted
        rw [of_decide_eq_true hfirst, Option.map_some, Option.map_some, Option.map_some,
          lastValue?_concat, if_pos rfl]
        rfl
      · rename_i hother
        cases hw : carrier? table symbol with
        | none => rfl
        | some w =>
            -- with the id of the variable found, the call would be for this symbol and accepted
            have hid : v.id ≠ w.id := by
              intro hid
              obtain rfl := List.inj_on_of_nodup_map hids hv (List.mem_of_find?_eq_some hw) hid
              have hsymbol : v.key = symbol := by simpa using List.find?_some hw
              exact hother ⟨by simp [isFirst, hsymbol, hw], hsymbol.symm⟩
            rw [Option.map_some, Option.map_some, lastValue?_concat, if_neg hid]

theorem agree_assignAll (hids : (table.map Variable.id).Nodup)
    (hchanges : ∀ change ∈ changes, change.1 ∈ table) :
    Agree ((ofVariables table).assignAll changes) (ofVariables (changedTable table changes)) := by
  intro symbol
  rw [find?_assignAll hids hchanges, Bindings.find?_ofVariables, carrier?_changedTable,
    Option.map_map]
  rfl

/-! ## Formulas -/

/-- **Setting values in place equals rebuilding.** In the bindings of a table with distinct ids,
    values are set for variables of the table, in any order and as often as one likes. A call is
    accepted exactly if the variable is the first one of the table with its symbol; calls that are
    refused can be left out; and every formula is then evaluated as with the bindings of the table in
    which each of the accepted variables has the value that was set last for it. -/
theorem set_in_place_eq_rebuilt (hids : (table.map Variable.id).Nodup)
    (hchanges : ∀ change ∈ changes, change.1 ∈ table) :
    let answers := ((ofVariables table).setValues changes).1
    let b := ((ofVariables table).setValues changes).2
    answers = changes.map (fun change => isFirst table change.1) ∧
      ((ofVariables table).setValues (changes.filter fun change => isFirst table change.1)).2 = b ∧
      ∀ f : Formula, f.evaluate b = f.evaluate (ofVariables (changedTable table changes)) := by
  have howns : ∀ change ∈ changes,
      (ofVariables table).owns change.1 = isFirst table change.1 := fun change hchange =>
    owns_ofVariables_eq_isFirst hids (hchanges change hchange)
  dsimp only
  rw [Bindings.setValues_eq, Bindings.setValues_eq]
  refine ⟨List.map_congr_left howns, ?_, fun f => ?_⟩
  · rw [← List.filter_congr howns]
    exact Bindings.assignAll_filter _ changes
  · exact f.evaluate_congr (agree_assignAll hids hchanges)

/-- A width, a second one under the same symbol with a blank behind it, and a height. -/
def panels : List Variable :=
  [{ id := "w", symbol := "x", value := 1.0, unit := "m" },
    { id := "w2", symbol := "x ", value := 2.0, unit := "cm" },
    { id := "h", symbol := " y", value := 3.0, unit := "m" }]

/-- Two values for the width, with one for the second width between them that is refused. -/
def panelChanges : List (Variable × Float) :=
  [({ id := "w", symbol := "x", value := 1.0, unit := "m" }, 5.0),
    ({ id := "w2", symbol := "x ", value := 2.0, unit := "cm" }, 6.0),
    ({ id := "w", symbol := "x", value := 1.0, unit := "m" }, 7.0)]

/-- The area. -/
def panelArea : Formula := ⟨.binary .mul (.symbol "x") (.symbol "y")⟩

theorem panels_set_in_place :
    let b := ((ofVariables panels).setValues panelChanges).2
    (panels.map Variable.id).Nodup ∧ (∀ change ∈ panelChanges, change.1 ∈ panels) ∧
      ((ofVariables panels).setValues panelChanges).1 = [true, false, true] ∧
      (changedTable panels panelChanges).map (·.value) = [7.0, 2.0, 3.0] ∧
      panelArea.evaluate b = panelArea.evaluate (ofVariables (changedTable panels panelChanges)) ∧
      ∃ m, panelArea.evaluate b = .ok m ∧ m.value = 21.0 := by
  intro b
  have hids : (panels.map Variable.id).Nodup := by decide
  have hchanges : ∀ change ∈ panelChanges, change.1 ∈ panels := by simp [panelChanges, panels]
  obtain ⟨hanswers, -, hevaluate⟩ := set_in_place_eq_rebuilt hids hchanges
  have harea : (panelArea.evaluate b).toOption.map (·.value) = some 21.0 := by decide +kernel
  refine ⟨hids, hchanges, hanswers.trans (by decide +kernel), by decide +kernel,
    hevaluate panelArea, ?_⟩
  exact exists_ok_of_map harea

end Reckoner
