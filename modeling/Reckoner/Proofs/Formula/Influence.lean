import Reckoner.Proofs.Formula.Dimension

/-!
# `Reckoner.Proofs.Formula.Influence` — where values and units meet

One walk over a formula computes values, units and remarks together. Its values are those of a walk
without units. Its units depend on values in a single place: what has a unit is raised to the whole
number that the value of the exponent is. Remarks spell such a value out where it is no whole number.

## Contents
- **Agreement.** Bindings with the same values, `SameValues`, and with the same units, `SameUnits`.
- **Powers.** `EveryPower`: what holds of each base with its exponent; `SameExponents`.
- **Values.** `measure_value_congr`: units have no influence on values.
- **Units and remarks.** `measure_unit_congr` and `measure_remarks_congr`.
- **Formulas.** `values_units_apart`.
-/

namespace Reckoner

/-! ## Agreement -/

namespace Bindings

/-- Every symbol stands for the same value in both, or is unbound in both. -/
def SameValues (b b' : Bindings) : Prop :=
  ∀ symbol, (b.find? symbol).map (·.value) = (b'.find? symbol).map (·.value)

/-- Every symbol stands for the same unit in both, or is unbound in both. -/
def SameUnits (b b' : Bindings) : Prop :=
  ∀ symbol, (b.find? symbol).map (·.unit) = (b'.find? symbol).map (·.unit)

/-- Bindings that agree on some part of every binding bind the same symbols. -/
theorem contains_congr {α : Type} {part : Binding → α} {b b' : Bindings}
    (h : ∀ symbol, (b.find? symbol).map part = (b'.find? symbol).map part) :
    b.contains = b'.contains := by
  funext symbol
  show (b.find? symbol).isSome = (b'.find? symbol).isSome
  rw [← Option.isSome_map (f := part), h symbol, Option.isSome_map]

/-- Tables with the same symbols in the same order agree on what their variables agree on. -/
theorem forall₂_ofVariables {α : Type} {part : Binding → α} {table table' : List Variable}
    (h : List.Forall₂ (fun v w => v.key = w.key ∧ part v.binding = part w.binding) table table') :
    ∀ symbol, ((ofVariables table).find? symbol).map part =
      ((ofVariables table').find? symbol).map part := by
  intro symbol
  rw [find?_ofVariables, find?_ofVariables]
  induction h with
  | nil => rfl
  | @cons v w vs ws hvw _ ih =>
      obtain ⟨hkey, hpart⟩ := hvw
      rw [carrier?_cons, carrier?_cons, ← hkey]
      by_cases hv : v.key = symbol
      · rw [if_pos hv, if_pos hv]
        exact congrArg some hpart
      · rw [if_neg hv, if_neg hv]
        exact ih

end Bindings

open Bindings (SameValues SameUnits)

/-- Two doubles are the same number: they are equal, or both are a zero. -/
def SameNumber (x y : Float) : Prop := x = y ∨ IsWhole x 0 ∧ IsWhole y 0

/-- The same number is the same exponent. -/
theorem SameNumber.wholeExponent?_eq {x y : Float} (h : SameNumber x y) :
    wholeExponent? x = wholeExponent? y := by
  rcases h with rfl | ⟨hx, hy⟩
  · rfl
  · have hzero (z : Float) (hz : IsWhole z 0) : wholeExponent? z = some 0 :=
      wholeExponent?_eq_some_iff.mpr ⟨hz, by decide⟩
    rw [hzero x hx, hzero y hy]

/-! ## Powers -/

namespace Expr

/-- Each power in a tree has a property of its base and its exponent. -/
def EveryPower (P : Expr → Expr → Prop) (e : Expr) : Prop :=
  ∀ base exponent, .binary .pow base exponent ∈ e.nodes → P base exponent

section Powers

variable {P Q : Expr → Expr → Prop} {op : BinaryOp} {e l r : Expr}

theorem EveryPower.imp (h : EveryPower P e)
    (hPQ : ∀ base exponent, P base exponent → Q base exponent) : EveryPower Q e :=
  fun base exponent hmem => hPQ base exponent (h base exponent hmem)

theorem EveryPower.operand (h : EveryPower P (.neg e)) : EveryPower P e :=
  fun base exponent hmem => h base exponent (List.mem_cons_of_mem _ hmem)

theorem EveryPower.left (h : EveryPower P (.binary op l r)) : EveryPower P l :=
  fun base exponent hmem =>
    h base exponent (List.mem_cons_of_mem _ (List.mem_append_left _ hmem))

theorem EveryPower.right (h : EveryPower P (.binary op l r)) : EveryPower P r :=
  fun base exponent hmem =>
    h base exponent (List.mem_cons_of_mem _ (List.mem_append_right _ hmem))

theorem EveryPower.root (h : EveryPower P (.binary .pow l r)) : P l r :=
  h l r List.mem_cons_self

end Powers

/-- Wherever something with a unit is raised, its exponent is the same whole number of 32 bits in
    both, or in neither one. -/
def SameExponents (e : Expr) (b b' : Bindings) : Prop :=
  e.EveryPower fun base exponent =>
    (base.measure b).unit.isDimensionless = true ∨
      wholeExponent? (exponent.measure b).value = wholeExponent? (exponent.measure b').value

/-- The exponent of every power is the same number in both. -/
def SameExponentValues (e : Expr) (b b' : Bindings) : Prop :=
  e.EveryPower fun _ exponent => SameNumber (exponent.measure b).value (exponent.measure b').value

theorem SameExponentValues.sameExponents {b b' : Bindings} {e : Expr}
    (h : e.SameExponentValues b b') : e.SameExponents b b' :=
  h.imp fun _ _ hnumber => .inr hnumber.wholeExponent?_eq

end Expr

variable {b b' : Bindings} {u v : CompoundUnit} {x y : Float}

/-! ## Values -/

/-- The two parts of a symbol are looked up each on its own. -/
theorem measure_symbol (b : Bindings) (name : String) :
    (Expr.symbol name).measure b =
      ⟨((b.find? name).map (·.value)).getD (0.0 / 0.0),
        ((b.find? name).map (·.unit)).getD .dimensionless, []⟩ := by
  rw [Expr.measure]
  cases b.find? name <;> rfl

/-- **Units have no influence on values**, and neither have symbols that are not mentioned. -/
theorem measure_value_congr {e : Expr}
    (h : ∀ name ∈ e.mentions, (b.find? name).map (·.value) = (b'.find? name).map (·.value)) :
    (e.measure b).value = (e.measure b').value := by
  induction e with
  | number value => rfl
  | symbol name =>
      rw [measure_symbol, measure_symbol]
      show ((b.find? name).map _).getD _ = ((b'.find? name).map _).getD _
      rw [h name List.mem_cons_self]
  | neg operand ih =>
      show -(operand.measure b).value = -(operand.measure b').value
      rw [ih h]
  | binary op left right ihl ihr =>
      rw [Expr.mentions, List.forall_mem_append] at h
      show op.apply (left.measure b).value (right.measure b).value =
        op.apply (left.measure b').value (right.measure b').value
      rw [ihl h.1, ihr h.2]

/-! ## Units and remarks -/

/-- The unit of a power depends on the exponent only as far as it is a whole number, and not at all
    if the base is a pure number. -/
theorem powerUnit_fst_congr
    (h : u.isDimensionless = true ∨ wholeExponent? x = wholeExponent? y) :
    (powerUnit u v x).1 = (powerUnit u v y).1 := by
  unfold powerUnit
  by_cases hpure : u.isDimensionless = true
  · simp only [if_pos hpure]
  · rcases h with hdimensionless | hwhole
    · exact absurd hdimensionless hpure
    · simp only [if_neg hpure, hwhole]
      cases wholeExponent? y <;> rfl

/-- The unit of a power and the remarks on it depend on the exponent as a number. -/
theorem powerUnit_congr (h : SameNumber x y) : powerUnit u v x = powerUnit u v y := by
  have hwhole := h.wholeExponent?_eq
  rcases h with rfl | ⟨hx, -⟩
  · rfl
  · -- zero is a whole number, so that its sign is not spelled out
    have hzero : wholeExponent? x = some 0 := wholeExponent?_eq_some_iff.mpr ⟨hx, by decide⟩
    unfold powerUnit
    rw [← hwhole, hzero]

theorem BinaryOp.unit_fst_congr {op : BinaryOp}
    (h : op = .pow → u.isDimensionless = true ∨ wholeExponent? x = wholeExponent? y) :
    (op.unit u v x).1 = (op.unit u v y).1 := by
  cases op with
  | pow => exact powerUnit_fst_congr (h rfl)
  | _ => rfl

theorem BinaryOp.unit_congr {op : BinaryOp} (h : op = .pow → SameNumber x y) :
    op.unit u v x = op.unit u v y := by
  cases op with
  | pow => exact powerUnit_congr (h rfl)
  | _ => rfl

/-- **Values have an influence on units through exponents only.** -/
theorem measure_unit_congr (hunits : SameUnits b b') {e : Expr} (h : e.SameExponents b b') :
    (e.measure b).unit = (e.measure b').unit := by
  induction e with
  | number value => rfl
  | symbol name =>
      rw [measure_symbol, measure_symbol]
      show ((b.find? name).map _).getD _ = ((b'.find? name).map _).getD _
      rw [hunits name]
  | neg operand ih => exact ih h.operand
  | binary op left right ihl ihr =>
      show (op.unit (left.measure b).unit (right.measure b).unit (right.measure b).value).1 =
        (op.unit (left.measure b').unit (right.measure b').unit (right.measure b').value).1
      rw [← ihl h.left, ← ihr h.right]
      apply BinaryOp.unit_fst_congr
      rintro rfl
      exact h.root

/-- **Values have an influence on remarks through exponents only.** -/
theorem measure_remarks_congr (hunits : SameUnits b b') {e : Expr}
    (h : e.SameExponentValues b b') : (e.measure b).remarks = (e.measure b').remarks := by
  induction e with
  | number value => rfl
  | symbol name =>
      rw [measure_symbol, measure_symbol]
  | neg operand ih => exact ih h.operand
  | binary op left right ihl ihr =>
      have hleft := measure_unit_congr hunits (Expr.SameExponentValues.sameExponents h.left)
      have hright := measure_unit_congr hunits (Expr.SameExponentValues.sameExponents h.right)
      have hunit : op.unit (left.measure b).unit (right.measure b).unit (right.measure b).value =
          op.unit (left.measure b).unit (right.measure b).unit (right.measure b').value := by
        apply BinaryOp.unit_congr
        rintro rfl
        exact h.root
      show (left.measure b).remarks ++ (right.measure b).remarks ++
          (op.unit (left.measure b).unit (right.measure b).unit (right.measure b).value).2 =
        (left.measure b').remarks ++ (right.measure b').remarks ++
          (op.unit (left.measure b').unit (right.measure b').unit (right.measure b').value).2
      rw [ihl h.left, ihr h.right, hunit, hleft, hright]

/-! ## Formulas -/

/-- What an evaluation comes to, units and remarks aside: a value, or the reason why there is none. -/
def Formula.result (f : Formula) (b : Bindings) : Except EvalError Float :=
  match f.evaluate b with
  | .ok m => .ok m.value
  | .error failure => .error failure.error

/-- The result of a formula, without its units. -/
theorem Formula.result_eq (f : Formula) (b : Bindings) :
    f.result b =
      match f.symbols.find? fun name => !b.contains name with
      | some name => .error (.unknownSymbol name)
      | none =>
        if (f.tree.measure b).value.isFinite then .ok (f.tree.measure b).value
        else .error .nonFinite := by
  unfold Formula.result Formula.evaluate
  rw [← List.head?_filter]
  cases f.symbols.filter fun name => !b.contains name with
  | cons name names => rfl
  | nil =>
      by_cases hfinite : (f.tree.measure b).value.isFinite = true
      · simp only [List.head?_nil, if_pos hfinite]
      · simp only [List.head?_nil, if_neg hfinite]

/-- **Values and units are kept apart.** Bindings with the same values give the same result, whatever
    the units: the same value, or the same error. Bindings with the same units, under which all
    exponents are the same numbers, give the same unit and the same remarks whenever both evaluate,
    whatever the other values. -/
theorem values_units_apart (f : Formula) (b b' : Bindings) :
    (SameValues b b' → f.result b = f.result b') ∧
      (SameUnits b b' → f.tree.SameExponentValues b b' →
        ∀ m m', f.evaluate b = .ok m → f.evaluate b' = .ok m' →
          m.unit = m'.unit ∧ m.remarks = m'.remarks) := by
  constructor
  · intro hvalues
    rw [Formula.result_eq, Formula.result_eq, Bindings.contains_congr hvalues,
      measure_value_congr fun name _ => hvalues name]
  · intro hunits hexponents m m' hm hm'
    rw [(Formula.evaluate_eq_ok hm).2, (Formula.evaluate_eq_ok hm').2]
    refine ⟨measure_unit_congr hunits hexponents.sameExponents, ?_⟩
    show Diagnostic.distinct _ = Diagnostic.distinct _
    rw [measure_remarks_congr hunits hexponents]

/-- A stiffness, a length and an exponent. -/
def spring : List Variable :=
  [{ id := "k", symbol := "k", value := 3.0, unit := "N" },
    { id := "d", symbol := "d", value := 1.0, unit := "m" },
    { id := "n", symbol := " n ", value := 2.0 }]

/-- The same numbers under other labels. -/
def relabelled : List Variable :=
  [{ id := "k", symbol := "k", value := 3.0, unit := "lbf" },
    { id := "d", symbol := "d", value := 1.0 },
    { id := "n", symbol := "n", value := 2.0, unit := "s" }]

/-- Another stiffness, with the same labels. -/
def stiffer : List Variable :=
  [{ id := "k", symbol := "k", value := -7.5, unit := "N" },
    { id := "d", symbol := "d", value := 1.0, unit := "m" },
    { id := "n", symbol := "n", value := 2.0 }]

/-- The product of the stiffness and a power of the length. -/
def springFormula : Formula :=
  ⟨.binary .mul (.symbol "k") (.binary .pow (.symbol "d") (.symbol "n"))⟩

theorem spring_values_units_apart :
    SameValues (.ofVariables spring) (.ofVariables relabelled) ∧
      springFormula.result (.ofVariables spring) = springFormula.result (.ofVariables relabelled) ∧
      SameUnits (.ofVariables spring) (.ofVariables stiffer) ∧
      springFormula.tree.SameExponentValues (.ofVariables spring) (.ofVariables stiffer) ∧
      ∃ m m', springFormula.evaluate (.ofVariables spring) = .ok m ∧
        springFormula.evaluate (.ofVariables stiffer) = .ok m' ∧ m.unit = m'.unit ∧
        m.remarks = m'.remarks := by
  have hvalues : SameValues (.ofVariables spring) (.ofVariables relabelled) := by
    apply Bindings.forall₂_ofVariables
    exact .cons (by decide +kernel) (.cons (by decide +kernel) (.cons (by decide +kernel) .nil))
  have hunits : SameUnits (.ofVariables spring) (.ofVariables stiffer) := by
    apply Bindings.forall₂_ofVariables
    exact .cons (by decide +kernel) (.cons (by decide +kernel) (.cons (by decide +kernel) .nil))
  have hexponents :
      springFormula.tree.SameExponentValues (.ofVariables spring) (.ofVariables stiffer) := by
    intro base exponent hmem
    -- of the five nodes one is a power, and its exponent is the third symbol
    simp only [springFormula, Expr.nodes, List.mem_cons, List.mem_append, List.not_mem_nil,
      reduceCtorEq, or_false, false_or, Expr.binary.injEq, true_and, false_and] at hmem
    obtain ⟨-, rfl⟩ := hmem
    exact .inl (by decide +kernel)
  obtain ⟨hresult, hunit⟩ := And.intro
    ((values_units_apart springFormula (.ofVariables spring) (.ofVariables relabelled)).1 hvalues)
    ((values_units_apart springFormula (.ofVariables spring) (.ofVariables stiffer)).2 hunits
      hexponents)
  have hspring : (springFormula.evaluate (.ofVariables spring)).toOption.map (·.value) =
      some 3.0 := by
    decide +kernel
  have hstiffer : (springFormula.evaluate (.ofVariables stiffer)).toOption.map (·.value) =
      some (-7.5) := by
    decide +kernel
  obtain ⟨m, hm, -⟩ := exists_ok_of_map hspring
  obtain ⟨m', hm', -⟩ := exists_ok_of_map hstiffer
  exact ⟨hvalues, hresult, hunits, hexponents, m, m', hm, hm', hunit m m' hm hm'⟩

end Reckoner
