import Mathlib.Data.List.Forall2
import Reckoner.Proofs.Formula.Influence
import Reckoner.Proofs.Formula.UnitErrors

/-!
# `Reckoner.Proofs.Formula.LabelOrder` — the order of factors in labels does not count

`N m` and `m·N` are read into the same factors in two orders. The order goes on into the units of a
formula and the texts of remarks, and it decides which exponents are added first. What an evaluation
comes to does not depend on it: an operation gives the same unit whatever the order, up to the order,
and it accepts its operands in both orders or in neither.

## Contents
- **One operation.** `BinaryOp.unit_fst_sameAs` and `BinaryOp.accepts_congr`.
- **Trees.** `Bindings.Reordered`: the same values, and units up to order.
- **Tables.** `Variable.Reordered`, row by row.
- **Formulas.** `label_order_irrelevant`.
-/

namespace Reckoner

open Bindings (SameValues)
open CompoundUnit (SameOutcome combine_congr normal_of_sameAs perm_of_sameAs power_congr)

/-! ## One operation -/

section Operations

variable {u u' v v' : CompoundUnit} {y : Float}

/-- Results that are the same up to order are there both, or missing both. -/
theorem CompoundUnit.SameOutcome.isSome_eq {x x' : Option CompoundUnit} (h : SameOutcome x x') :
    x.isSome = x'.isSome := by
  cases h <;> rfl

theorem isDimensionless_of_sameAs (hu : u.Normal) (hsame : u.sameAs u' = true) :
    u'.isDimensionless = u.isDimensionless :=
  (perm_of_sameAs hu hsame).isEmpty_eq

/-- Where an exponent leaves its range, it does so in both orders. -/
theorem orOverflow_fst_sameAs {x x' : Option CompoundUnit} (h : SameOutcome x x') :
    (orOverflow u x).1.sameAs (orOverflow u' x').1 = true := by
  cases h with
  | none => rfl
  | some hsame => exact hsame

theorem powerUnit_fst_sameAs (hu : u.Normal) (hsame : u.sameAs u' = true) :
    (powerUnit u v y).1.sameAs (powerUnit u' v' y).1 = true := by
  have hpure := isDimensionless_of_sameAs hu hsame
  unfold powerUnit
  by_cases hbase : u.isDimensionless = true
  · simp only [hpure, if_pos hbase]
    rfl
  · simp only [hpure, if_neg hbase]
    cases wholeExponent? y with
    | none => rfl
    | some n => exact orOverflow_fst_sameAs (power_congr hu hsame n)

/-- **An operation gives the same unit** for operands in another order. -/
theorem BinaryOp.unit_fst_sameAs {op : BinaryOp} (hu : u.Normal) (hv : v.Normal)
    (hsame : u.sameAs u' = true) (hsame' : v.sameAs v' = true) :
    (op.unit u v y).1.sameAs (op.unit u' v' y).1 = true := by
  cases op with
  | add => exact hsame
  | sub => exact hsame
  | mul => exact orOverflow_fst_sameAs (combine_congr .multiply hu hv hsame hsame')
  | div => exact orOverflow_fst_sameAs (combine_congr .divide hu hv hsame hsame')
  | pow => exact powerUnit_fst_sameAs hu hsame

/-- **An operation accepts** operands in both orders, or in neither. -/
theorem BinaryOp.accepts_congr {op : BinaryOp} (hu : u.Normal) (hv : v.Normal)
    (hsame : u.sameAs u' = true) (hsame' : v.sameAs v' = true) :
    op.Accepts u v y ↔ op.Accepts u' v' y := by
  have hexponents := (normal_of_sameAs hu hsame).2
  have hexponents' := (normal_of_sameAs hv hsame').2
  have hdefined : ∀ how, (CompoundUnit.combine how u v).isSome = true ↔
      (CompoundUnit.combine how u' v').isSome = true := fun how => by
    rw [(combine_congr how hu hv hsame hsame').isSome_eq]
  cases op with
  | add =>
      unfold BinaryOp.Accepts
      rw [hexponents, hexponents']
  | sub =>
      unfold BinaryOp.Accepts
      rw [hexponents, hexponents']
  | mul => exact hdefined .multiply
  | div => exact hdefined .divide
  | pow =>
      unfold BinaryOp.Accepts
      rw [hexponents, isDimensionless_of_sameAs hu hsame, isDimensionless_of_sameAs hv hsame']

end Operations

/-! ## Trees -/

variable {b b' : Bindings} {table table' : List Variable}

/-- Bindings with the same values, and with the same units up to the order of factors. -/
structure Bindings.Reordered (b b' : Bindings) : Prop where
  values : SameValues b b'
  units : ∀ symbol, Option.Rel (fun x x' : Binding => x.unit.sameAs x'.unit = true)
    (b.find? symbol) (b'.find? symbol)

/-- **The unit of a tree** is the same, up to order. -/
theorem Bindings.Reordered.measure_sameAs (h : b.Reordered b')
    (hnormal : ∀ e : Expr, (e.measure b).unit.Normal) (e : Expr) :
    (e.measure b).unit.sameAs (e.measure b').unit = true := by
  induction e with
  | number value => rfl
  | symbol name =>
      have hfound := h.units name
      rw [Expr.measure, Expr.measure]
      generalize b.find? name = x at hfound ⊢
      generalize b'.find? name = x' at hfound ⊢
      cases hfound with
      | none => rfl
      | some hsame => exact hsame
  | neg operand ih => exact ih
  | binary op left right ihl ihr =>
      -- the exponent of a power has one value
      have hvalue : (right.measure b).value = (right.measure b').value :=
        measure_value_congr fun name _ => h.values name
      show (op.unit (left.measure b).unit (right.measure b).unit (right.measure b).value).1.sameAs
        (op.unit (left.measure b').unit (right.measure b').unit (right.measure b').value).1 = true
      rw [← hvalue]
      exact BinaryOp.unit_fst_sameAs (hnormal left) (hnormal right) ihl ihr

/-- **A tree is unit-correct** in both orders, or in neither. -/
theorem Bindings.Reordered.isUnitCorrect_iff (h : b.Reordered b')
    (hnormal : ∀ e : Expr, (e.measure b).unit.Normal) (e : Expr) :
    e.IsUnitCorrect b ↔ e.IsUnitCorrect b' := by
  unfold Expr.IsUnitCorrect
  refine forall₃_congr fun op left right => imp_congr_right fun _ => ?_
  rw [← measure_value_congr (e := right) fun name _ => h.values name]
  exact BinaryOp.accepts_congr (hnormal left) (hnormal right) (h.measure_sameAs hnormal left)
    (h.measure_sameAs hnormal right)

/-! ## Tables -/

/-- Two variables with the same id, symbol and value, and with labels that are the same unit up to
    the order of factors. -/
structure Variable.Reordered (v w : Variable) : Prop where
  id : v.id = w.id
  symbol : v.symbol = w.symbol
  value : v.value = w.value
  unit : (CompoundUnit.parse v.unit).sameAs (CompoundUnit.parse w.unit) = true

theorem Variable.Reordered.key {v w : Variable} (h : v.Reordered w) : v.key = w.key := by
  rw [Variable.key, Variable.key, h.symbol]

/-- A symbol is carried in both tables or in neither, and by variables in the same row. -/
theorem carrier?_reordered (h : List.Forall₂ Variable.Reordered table table') (symbol : String) :
    Option.Rel Variable.Reordered (carrier? table symbol) (carrier? table' symbol) := by
  induction h with
  | nil => exact .none
  | @cons v w vs ws hvw _ ih =>
      rw [carrier?_cons, carrier?_cons, ← hvw.key]
      by_cases hv : v.key = symbol
      · rw [if_pos hv, if_pos hv]
        exact .some hvw
      · rw [if_neg hv, if_neg hv]
        exact ih

theorem reordered_ofVariables (h : List.Forall₂ Variable.Reordered table table') :
    (Bindings.ofVariables table).Reordered (Bindings.ofVariables table') := by
  refine ⟨Bindings.forall₂_ofVariables (h.imp fun v w hvw => ⟨hvw.key, hvw.value⟩), fun symbol => ?_⟩
  rw [Bindings.find?_ofVariables, Bindings.find?_ofVariables]
  have hcarrier := carrier?_reordered h symbol
  generalize carrier? table symbol = v at hcarrier ⊢
  generalize carrier? table' symbol = w at hcarrier ⊢
  cases hcarrier with
  | none => exact .none
  | some hvw => exact .some hvw.unit

/-! ## Formulas -/

/-- **The order in which unit labels are written does not matter.** Two tables that agree row by row
    in ids, symbols and values, and in units up to the order of factors, give the same result: the
    same error, or the same value with units that are the same up to order. Remarks there are in both
    evaluations or in neither. -/
theorem label_order_irrelevant (f : Formula)
    (h : List.Forall₂ Variable.Reordered table table') :
    let b := Bindings.ofVariables table
    let b' := Bindings.ofVariables table'
    f.result b = f.result b' ∧
      (∀ m m', f.evaluate b = .ok m → f.evaluate b' = .ok m' →
        m.value = m'.value ∧ m.unit.sameAs m'.unit = true) ∧
      (f.warnings b = [] ↔ f.warnings b' = []) := by
  intro b b'
  have hreordered : b.Reordered b' := reordered_ofVariables h
  have hnormal := (labelled_ofVariables table).normal_measure
  have hnormal' := (labelled_ofVariables table').normal_measure
  have hvalue : (f.tree.measure b).value = (f.tree.measure b').value :=
    measure_value_congr fun name _ => hreordered.values name
  have hbound := Bindings.contains_congr hreordered.values
  refine ⟨?_, fun m m' hm hm' => ?_, ?_⟩
  · rw [Formula.result_eq, Formula.result_eq, hbound, hvalue]
  · rw [(Formula.evaluate_eq_ok hm).2, (Formula.evaluate_eq_ok hm').2]
    exact ⟨hvalue, hreordered.measure_sameAs hnormal f.tree⟩
  · rw [Formula.warnings_eq_nil_iff, Formula.warnings_eq_nil_iff, hbound,
      Expr.remarks_eq_nil_iff hnormal, Expr.remarks_eq_nil_iff hnormal',
      hreordered.isUnitCorrect_iff hnormal]

/-- A torque, and a time for each radian. -/
def motor : List Variable :=
  [{ id := "M", symbol := "M", value := 6.0, unit := "N m" },
    { id := "t", symbol := " t ", value := 2.0, unit := "s rad^-1" }]

/-- The same quantities, their labels written the other way round. -/
def motorReordered : List Variable :=
  [{ id := "M", symbol := "M", value := 6.0, unit := "m·N" },
    { id := "t", symbol := " t ", value := 2.0, unit := "1/(rad s⁻¹)" }]

/-- The torque over the time. -/
def motorFormula : Formula := ⟨.binary .div (.symbol "M") (.symbol "t")⟩

theorem motor_label_order :
    let b := Bindings.ofVariables motor
    let b' := Bindings.ofVariables motorReordered
    List.Forall₂ Variable.Reordered motor motorReordered ∧
      motorFormula.result b = motorFormula.result b' ∧
      (motorFormula.warnings b = [] ∧ motorFormula.warnings b' = []) ∧
      ∃ m m', motorFormula.evaluate b = .ok m ∧ motorFormula.evaluate b' = .ok m' ∧
        m.unit.label = "N m rad/s" ∧ m'.unit.label = "m N rad/s" ∧ m.value = m'.value ∧
        m.unit.sameAs m'.unit = true := by
  intro b b'
  have hrows : List.Forall₂ Variable.Reordered motor motorReordered :=
    .cons ⟨rfl, rfl, rfl, by decide +kernel⟩ (.cons ⟨rfl, rfl, rfl, by decide +kernel⟩ .nil)
  have hlabel : (motorFormula.evaluate b).toOption.map (·.unit.label) = some "N m rad/s" := by
    decide +kernel
  have hlabel' : (motorFormula.evaluate b').toOption.map (·.unit.label) = some "m N rad/s" := by
    decide +kernel
  have hclean : motorFormula.warnings b = [] := by decide +kernel
  obtain ⟨m, hm, hunit⟩ := exists_ok_of_map hlabel
  obtain ⟨m', hm', hunit'⟩ := exists_ok_of_map hlabel'
  obtain ⟨hresult, hmeasures, hwarnings⟩ := label_order_irrelevant motorFormula hrows
  obtain ⟨hvalue, hsame⟩ := hmeasures m m' hm hm'
  exact ⟨hrows, hresult, ⟨hclean, hwarnings.mp hclean⟩, m, m', hm, hm', hunit, hunit', hvalue,
    hsame⟩

end Reckoner
