import Reckoner.Proofs.CompoundUnit.Algebra
import Reckoner.Proofs.Formula.Expectation

/-!
# `Reckoner.Proofs.Formula.UnitErrors` — remarks are the unit errors of a formula

One walk over a tree collects all remarks, and where units do not go together it goes on with some
unit. Still every remark is about one operation and the units of its two operands, and an operation
is remarked on exactly when it does not accept them. So a formula without remarks is one in which
every operation accepts its operands.

## Contents
- **One operation.** `BinaryOp.Accepts`: the units that an operation accepts. It is remarked on if it
  does not accept them, `BinaryOp.unit_snd_eq_nil_iff`, and as a mismatch in two cases only.
- **Trees.** `mem_remarks_iff`: the remarks on a tree are those on its operations.
- **Formulas.** `Formula.warnings`, and `warnings_are_unit_errors`.
-/

namespace Reckoner

open CompoundUnit (InRange combine computes_power sameAs_iff)

variable {u v : CompoundUnit} {b : Bindings} {x y : Float}

/-! ## One operation -/

/-- **The units that an operation accepts**, given the value of its right operand. The operands of a
    sum have the same exponents; products and quotients are defined; an exponent is a pure number, and
    on a base with a unit it is a whole number below `2 ^ 31` in magnitude for which all exponents of
    the power fit. -/
def BinaryOp.Accepts (op : BinaryOp) (u v : CompoundUnit) (y : Float) : Prop :=
  match op with
  | .add | .sub => ∀ name, u.exponentOf name = v.exponentOf name
  | .mul => (combine .multiply u v).isSome = true
  | .div => (combine .divide u v).isSome = true
  | .pow => v.isDimensionless = true ∧ (u.isDimensionless = false →
      ∃ n : Int, IsWhole y n ∧ n.natAbs ≤ 2147483647 ∧
        ∀ name, Exponent.Fits (n * u.exponentOf name))

/-- Nothing is remarked on a sum of units with the same exponents. -/
theorem sumUnit_snd_eq_nil_iff (hu : u.Normal) (hv : v.Normal) :
    (sumUnit u v).2 = [] ↔ ∀ name, u.exponentOf name = v.exponentOf name := by
  rw [← funext_iff, ← sameAs_iff hu hv]
  unfold sumUnit
  split
  · rename_i hsame
    exact iff_of_true rfl hsame
  · rename_i hdiffer
    exact iff_of_false (List.cons_ne_nil _ _) hdiffer

theorem orOverflow_snd_eq_nil_iff {unit? : Option CompoundUnit} :
    (orOverflow u unit?).2 = [] ↔ unit?.isSome = true := by
  cases unit? with
  | none => exact iff_of_false (List.cons_ne_nil _ _) Bool.false_ne_true
  | some w => exact iff_of_true rfl rfl

/-- The remark on an exponent with a unit. -/
def misplaced (v : CompoundUnit) : List Diagnostic :=
  if v.isDimensionless then [] else [.unitMismatch CompoundUnit.dimensionlessLabel v.display]

/-- A power is remarked on twice at most: on the unit of its exponent, and on its base as it would be
    if the exponent were a pure number. -/
theorem powerUnit_snd (u v : CompoundUnit) (y : Float) :
    (powerUnit u v y).2 = misplaced v ++ (powerUnit u .dimensionless y).2 := by
  have hpure : (CompoundUnit.dimensionless).isDimensionless = true := rfl
  unfold powerUnit
  rw [if_pos hpure]
  by_cases hbase : u.isDimensionless = true
  · simp only [if_pos hbase, List.append_nil]
    rfl
  · simp only [if_neg hbase]
    cases wholeExponent? y <;> rfl

theorem misplaced_eq_nil_iff : misplaced v = [] ↔ v.isDimensionless = true := by
  unfold misplaced
  split
  · rename_i hpure
    exact iff_of_true rfl hpure
  · rename_i hunit
    exact iff_of_false (List.cons_ne_nil _ _) hunit

/-- The power of a base by a pure number is remarked on unless the base is one, too, or the power is
    a whole one and fits. -/
theorem powerUnit_pure_snd_eq_nil_iff (hu : u.Normal) :
    (powerUnit u .dimensionless y).2 = [] ↔
      (u.isDimensionless = false → ∃ n : Int, IsWhole y n ∧ n.natAbs ≤ 2147483647 ∧
        ∀ name, Exponent.Fits (n * u.exponentOf name)) := by
  unfold powerUnit
  cases hbase : u.isDimensionless with
  | true => exact iff_of_true rfl fun h => absurd h.symm Bool.false_ne_true
  | false =>
      rw [if_neg Bool.false_ne_true, forall_prop_of_true rfl]
      cases hwhole : wholeExponent? y with
      | none =>
          refine iff_of_false (List.cons_ne_nil _ _) ?_
          rintro ⟨n, hn, hbounded, -⟩
          rw [wholeExponent?_eq_some_iff.mpr ⟨hn, hbounded⟩] at hwhole
          exact absurd hwhole (Option.some_ne_none n)
      | some n =>
          obtain ⟨hn, hbounded⟩ := wholeExponent?_eq_some_iff.mp hwhole
          have hpower : (u.power n).isSome = true ↔ InRange (n • u.exponentOf) :=
            (computes_power hu n).isSome_iff
          show (orOverflow u (u.power n)).2 = [] ↔ _
          rw [orOverflow_snd_eq_nil_iff, hpower]
          constructor
          · exact fun hfits => ⟨n, hn, hbounded, hfits⟩
          · rintro ⟨m, hm, -, hfits⟩
            rwa [← hn.unique hm] at hfits

/-- **One operation** is remarked on exactly when it does not accept its operands. -/
theorem BinaryOp.unit_snd_eq_nil_iff {op : BinaryOp} (hu : u.Normal) (hv : v.Normal) :
    (op.unit u v y).2 = [] ↔ op.Accepts u v y := by
  cases op with
  | add => exact sumUnit_snd_eq_nil_iff hu hv
  | sub => exact sumUnit_snd_eq_nil_iff hu hv
  | mul => exact orOverflow_snd_eq_nil_iff
  | div => exact orOverflow_snd_eq_nil_iff
  | pow =>
      show (powerUnit u v y).2 = [] ↔ _
      rw [powerUnit_snd, List.append_eq_nil_iff, misplaced_eq_nil_iff,
        powerUnit_pure_snd_eq_nil_iff hu]
      rfl

/-- Two units are displayed as a mismatch by an operation: the operands of a sum that compare as
    different, or an exponent that is no pure number. -/
inductive BinaryOp.Mismatch (u v : CompoundUnit) : BinaryOp → String → String → Prop
  | add (differ : u.sameAs v = false) : Mismatch u v .add u.display v.display
  | sub (differ : u.sameAs v = false) : Mismatch u v .sub u.display v.display
  | pow (unit : v.isDimensionless = false) : Mismatch u v .pow "dimensionless" v.display

theorem mismatch_notMem_orOverflow {unit? : Option CompoundUnit} {expected actual : String} :
    .unitMismatch expected actual ∉ (orOverflow u unit?).2 := by
  cases unit? <;> simp [orOverflow]

theorem mismatch_mem_sumUnit {expected actual : String} :
    .unitMismatch expected actual ∈ (sumUnit u v).2 ↔
      u.sameAs v = false ∧ expected = u.display ∧ actual = v.display := by
  unfold sumUnit
  cases u.sameAs v <;> simp

theorem mismatch_notMem_powerUnit_pure {expected actual : String} :
    .unitMismatch expected actual ∉ (powerUnit u .dimensionless y).2 := by
  have hpure : (CompoundUnit.dimensionless).isDimensionless = true := rfl
  unfold powerUnit
  rw [if_pos hpure]
  by_cases hbase : u.isDimensionless = true
  · rw [if_pos hbase]
    exact List.not_mem_nil
  · rw [if_neg hbase]
    cases wholeExponent? y with
    | none => simp
    | some n => exact mismatch_notMem_orOverflow

theorem mismatch_mem_powerUnit {expected actual : String} :
    .unitMismatch expected actual ∈ (powerUnit u v y).2 ↔
      v.isDimensionless = false ∧ expected = "dimensionless" ∧ actual = v.display := by
  rw [powerUnit_snd, List.mem_append, or_iff_left mismatch_notMem_powerUnit_pure]
  unfold misplaced
  cases v.isDimensionless <;> simp [CompoundUnit.dimensionlessLabel]

/-- **Which mismatch an operation displays**, if any. -/
theorem BinaryOp.mismatch_mem_unit_iff {op : BinaryOp} {expected actual : String} :
    .unitMismatch expected actual ∈ (op.unit u v y).2 ↔ op.Mismatch u v expected actual := by
  cases op with
  | add =>
      refine mismatch_mem_sumUnit.trans ⟨?_, ?_⟩
      · rintro ⟨hdiffer, rfl, rfl⟩
        exact .add hdiffer
      · rintro (hdiffer | _)
        exact ⟨hdiffer, rfl, rfl⟩
  | sub =>
      refine mismatch_mem_sumUnit.trans ⟨?_, ?_⟩
      · rintro ⟨hdiffer, rfl, rfl⟩
        exact .sub hdiffer
      · rintro (_ | hdiffer)
        exact ⟨hdiffer, rfl, rfl⟩
  | mul =>
      refine iff_of_false mismatch_notMem_orOverflow ?_
      rintro ⟨⟩
  | div =>
      refine iff_of_false mismatch_notMem_orOverflow ?_
      rintro ⟨⟩
  | pow =>
      refine mismatch_mem_powerUnit.trans ⟨?_, ?_⟩
      · rintro ⟨hunit, rfl, rfl⟩
        exact .pow hunit
      · rintro (_ | _ | hunit)
        exact ⟨hunit, rfl, rfl⟩

/-! ## Trees -/

namespace Expr

/-- The remarks on a node, given the units of its operands. -/
def remarksAt (b : Bindings) : Expr → List Diagnostic
  | .binary op left right =>
    (op.unit (left.measure b).unit (right.measure b).unit (right.measure b).value).2
  | _ => []

/-- **The remarks on a tree** are those on its nodes. -/
theorem mem_remarks_iff {d : Diagnostic} {e : Expr} :
    d ∈ (e.measure b).remarks ↔ ∃ node ∈ e.nodes, d ∈ node.remarksAt b := by
  induction e with
  | number x => simp [measure, nodes, remarksAt]
  | symbol name =>
      rw [measure]
      cases b.find? name <;> simp [nodes, remarksAt]
  | neg operand ih =>
      simp only [nodes, List.mem_cons, exists_eq_or_imp, ← ih]
      exact (or_iff_right List.not_mem_nil).symm
  | binary op left right ihl ihr =>
      simp only [nodes, List.mem_cons, List.mem_append, or_and_right, exists_or, exists_eq_left,
        ← ihl, ← ihr]
      show d ∈ (left.measure b).remarks ++ (right.measure b).remarks ++
          (binary op left right).remarksAt b ↔ _
      rw [List.mem_append, List.mem_append, or_comm]

/-- **A unit-correct tree**: every operation in it accepts the units of its operands. -/
def IsUnitCorrect (b : Bindings) (e : Expr) : Prop :=
  ∀ op left right, .binary op left right ∈ e.nodes →
    op.Accepts (left.measure b).unit (right.measure b).unit (right.measure b).value

/-- A tree is unit-correct when there is nothing to remark on any of its nodes. -/
theorem isUnitCorrect_iff (hb : ∀ e : Expr, (e.measure b).unit.Normal) {e : Expr} :
    e.IsUnitCorrect b ↔ ∀ node ∈ e.nodes, node.remarksAt b = [] := by
  constructor
  · intro h node hnode
    cases node with
    | binary op left right =>
        exact (BinaryOp.unit_snd_eq_nil_iff (hb left) (hb right)).mpr (h op left right hnode)
    | _ => rfl
  · intro h op left right hnode
    exact (BinaryOp.unit_snd_eq_nil_iff (hb left) (hb right)).mp (h _ hnode)

theorem remarks_eq_nil_iff (hb : ∀ e : Expr, (e.measure b).unit.Normal) {e : Expr} :
    (e.measure b).remarks = [] ↔ e.IsUnitCorrect b := by
  simp only [isUnitCorrect_iff hb, List.eq_nil_iff_forall_not_mem, mem_remarks_iff]
  constructor
  · exact fun h node hnode d hd => h d ⟨node, hnode, hd⟩
  · rintro h d ⟨node, hnode, hd⟩
    exact h node hnode d hd

/-- The mismatches that are displayed for a tree are those of its operations. -/
theorem mismatch_mem_remarks_iff {expected actual : String} {e : Expr} :
    .unitMismatch expected actual ∈ (e.measure b).remarks ↔
      ∃ op left right, .binary op left right ∈ e.nodes ∧
        op.Mismatch (left.measure b).unit (right.measure b).unit expected actual := by
  rw [mem_remarks_iff]
  constructor
  · rintro ⟨node, hnode, hd⟩
    cases node with
    | binary op left right => exact ⟨op, left, right, hnode, BinaryOp.mismatch_mem_unit_iff.mp hd⟩
    | _ => exact absurd hd List.not_mem_nil
  · rintro ⟨op, left, right, hnode, hmismatch⟩
    exact ⟨_, hnode, BinaryOp.mismatch_mem_unit_iff.mpr hmismatch⟩

end Expr

/-! ## Formulas -/

/-- The remarks that an evaluation comes with, whether it has a result or not. -/
def Formula.warnings (f : Formula) (b : Bindings) : List Diagnostic :=
  match f.evaluate b with
  | .ok m => m.remarks
  | .error failure => failure.diagnostics

/-- Where all symbols are bound, the remarks are those on the tree, whatever the result. -/
theorem Formula.warnings_eq {f : Formula} (hbound : ∀ name ∈ f.symbols, b.contains name = true) :
    f.warnings b = Diagnostic.distinct (f.tree.measure b).remarks := by
  have hnone : f.symbols.filter (fun name => !b.contains name) = [] :=
    List.filter_eq_nil_iff.mpr fun name hname => by simp [hbound name hname]
  unfold Formula.warnings Formula.evaluate
  rw [hnone]
  by_cases hfinite : (f.tree.measure b).value.isFinite = true
  · simp only [if_pos hfinite]
  · simp only [if_neg hfinite]

theorem Diagnostic.distinct_eq_nil_iff {ds : List Diagnostic} :
    Diagnostic.distinct ds = [] ↔ ds = [] := by
  simp [List.eq_nil_iff_forall_not_mem, Diagnostic.distinct, Diagnostic.mem_merge]

/-- Nothing is remarked when all symbols are bound and there is nothing to remark on the tree. -/
theorem Formula.warnings_eq_nil_iff {f : Formula} :
    f.warnings b = [] ↔
      (∀ name ∈ f.symbols, b.contains name = true) ∧ (f.tree.measure b).remarks = [] := by
  by_cases hbound : ∀ name ∈ f.symbols, b.contains name = true
  · rw [Formula.warnings_eq hbound, Diagnostic.distinct_eq_nil_iff, and_iff_right hbound]
  · refine iff_of_false (fun hnone => hbound fun name hname => ?_) fun h => hbound h.1
    -- a symbol without a binding would be remarked on
    by_contra hmissing
    have hmem : name ∈ f.symbols.filter fun name => !b.contains name :=
      List.mem_filter.mpr ⟨hname, by simpa using hmissing⟩
    unfold Formula.warnings Formula.evaluate at hnone
    cases hfilter : f.symbols.filter fun name => !b.contains name with
    | nil =>
        rw [hfilter] at hmem
        exact List.not_mem_nil hmem
    | cons first others =>
        rw [hfilter] at hnone
        exact List.cons_ne_nil _ _ hnone

/-- **Remarks are the unit errors of a formula.** Whenever all symbols of a formula are bound, by a
    table whose variables may have been given new values, the remarks on it are distinct, whether it
    has a finite result or not. There are none exactly if every operation of its tree accepts its
    operands. A mismatch is displayed exactly if a sum has operands that compare as different, with
    these units, or a power has an exponent with this unit. -/
theorem warnings_are_unit_errors (f : Formula) (table : List Variable)
    (changes : List (Variable × Float))
    (hbound : ∀ name ∈ f.symbols,
      ((Bindings.ofVariables table).assignAll changes).contains name = true) :
    let b := (Bindings.ofVariables table).assignAll changes
    (f.warnings b).Nodup ∧
      (f.warnings b = [] ↔ f.tree.IsUnitCorrect b) ∧
      ∀ expected actual, .unitMismatch expected actual ∈ f.warnings b ↔
        ∃ op left right, .binary op left right ∈ f.tree.nodes ∧
          op.Mismatch (left.measure b).unit (right.measure b).unit expected actual := by
  intro b
  have hlabelled : Labelled table b := (labelled_ofVariables table).assignAll changes
  rw [Formula.warnings_eq hbound]
  refine ⟨Diagnostic.nodup_merge List.nodup_nil, ?_, fun expected actual => ?_⟩
  · rw [Diagnostic.distinct_eq_nil_iff]
    exact Expr.remarks_eq_nil_iff hlabelled.normal_measure
  · rw [← Expr.mismatch_mem_remarks_iff, Diagnostic.distinct, Diagnostic.mem_merge]
    exact or_iff_right List.not_mem_nil

/-- A distance and a time, added, over a time that is not known yet. -/
def hasty : Formula :=
  ⟨.binary .div (.binary .add (.symbol "d") (.symbol "t")) (.symbol "t")⟩

/-- The result is not finite, and yet the sum is remarked on. -/
theorem hasty_unit_errors :
    let b := (Bindings.ofVariables journey).assignAll []
    (∀ name ∈ hasty.symbols, b.contains name = true) ∧
      (hasty.evaluate b).toOption.isNone = true ∧ (hasty.warnings b).Nodup ∧
      ¬ hasty.tree.IsUnitCorrect b ∧ .unitMismatch "m" "s" ∈ hasty.warnings b := by
  intro b
  have hbound : ∀ name ∈ hasty.symbols, b.contains name = true := by decide +kernel
  have hinfinite : (hasty.evaluate b).toOption.isNone = true := by decide +kernel
  have hunits : ((Expr.symbol "d").measure b).unit.display = "m" ∧
      ((Expr.symbol "t").measure b).unit.display = "s" ∧
      ((Expr.symbol "d").measure b).unit.sameAs ((Expr.symbol "t").measure b).unit = false := by
    decide +kernel
  obtain ⟨hm, hs, hdiffer⟩ := hunits
  obtain ⟨hnodup, hnone, hmismatch⟩ := warnings_are_unit_errors hasty journey [] hbound
  have hmem : .unitMismatch "m" "s" ∈ hasty.warnings b := by
    refine (hmismatch "m" "s").mpr ⟨.add, .symbol "d", .symbol "t", ?_, ?_⟩
    · simp [hasty, Expr.nodes]
    · rw [← hm, ← hs]
      exact .add hdiffer
  refine ⟨hbound, hinfinite, hnodup, fun hcorrect => ?_, hmem⟩
  rw [hnone.mpr hcorrect] at hmem
  exact absurd hmem List.not_mem_nil

end Reckoner
