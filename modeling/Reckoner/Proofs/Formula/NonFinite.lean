import Reckoner.Proofs.Double.Finite
import Reckoner.Proofs.Formula.Influence

/-!
# `Reckoner.Proofs.Formula.NonFinite` — where a value that is not finite is lost

Only the value of a whole formula is tested for being finite. What is not finite inside a formula
reaches the test unless an operation takes it in and still has a finite result. Sums, differences,
products and signs never do; a quotient does for an infinite divisor, and a power for some infinities
and wherever it is 1 whatever the other operand.

## Contents
- **One operation.** `BinaryOp.Absorbs`, the finite results of operands that are not finite.
- **Trees.** `Expr.absorbsPart`: what is not finite is inside of an operand that is absorbed.
- **Formulas.** `Formula.evaluate_nonFinite_iff` and `success_absorbs_nonFinite`.
-/

namespace Reckoner

open Double (isFinite_eq_false_iff isFinite_zero isFinite_one isFinite_one_div_zero
  isFinite_zero_div_zero)

variable {x y : Float} {op : BinaryOp} {b : Bindings}

/-! ## One operation -/

/-- The powers that are finite whatever is raised, or although it or the exponent is infinite: those
    of 1 and with the exponent 0, a base that vanishes or stays at 1 under an infinite exponent, and an
    infinite base with a negative exponent. -/
def PowerAbsorbs (x y : Float) : Prop :=
  x == 1.0 ∨ y == 0.0 ∨
    x.isNaN = false ∧ y.isNaN = false ∧
      (y.isInf = true ∧ (x.abs == 1.0 ∨ decide (x.abs < 1.0) ≠ decide (y < 0.0)) ∨
        x.isInf = true ∧ y.isInf = false ∧ y < 0.0)

/-- The operation has a finite result although an operand may not be finite. -/
def BinaryOp.Absorbs : BinaryOp → Float → Float → Prop
  | .add, _, _ | .sub, _, _ | .mul, _, _ => False
  | .div, x, y => x.isFinite = true ∧ y.isInf = true
  | .pow, x, y => PowerAbsorbs x y

theorem isFinite_raiseToInfinity_iff {negative : Bool} :
    (raiseToInfinity x negative).isFinite = true ↔
      x.abs == 1.0 ∨ decide (x.abs < 1.0) ≠ negative := by
  unfold raiseToInfinity
  by_cases habs : (x.abs == 1.0) = true
  · rw [if_pos habs]
    exact iff_of_true isFinite_one (.inl habs)
  · rw [if_neg habs]
    by_cases hsame : (decide (x.abs < 1.0) == negative) = true
    · rw [if_pos hsame, isFinite_one_div_zero]
      refine iff_of_false Bool.false_ne_true ?_
      rintro (h | h)
      · exact habs h
      · exact h (beq_iff_eq.mp hsame)
    · rw [if_neg hsame]
      exact iff_of_true isFinite_zero (.inr fun h => hsame (beq_iff_eq.mpr h))

theorem isFinite_raiseInfinity_iff {negative : Bool} :
    (raiseInfinity negative y).isFinite = true ↔ y < 0.0 := by
  -- the sign of the result does not matter
  have hmagnitude : (raiseInfinity negative y).isFinite =
      (if y < 0.0 then (0.0 : Float) else 1.0 / 0.0).isFinite := by
    unfold raiseInfinity
    dsimp only
    split
    · exact Double.isFinite_neg _
    · rfl
  rw [hmagnitude]
  by_cases hy : y < 0.0
  · rw [if_pos hy]
    exact iff_of_true isFinite_zero hy
  · rw [if_neg hy, isFinite_one_div_zero]
    exact iff_of_false Bool.false_ne_true hy

/-- **Powers** of operands that are not both finite. -/
theorem isFinite_raise_iff (h : x.isFinite = false ∨ y.isFinite = false) :
    (raise x y).isFinite = true ↔ PowerAbsorbs x y := by
  unfold raise PowerAbsorbs
  -- in the order of the cases of a power: the unit cases, what is no number, infinite operands
  by_cases hunit : (x == 1.0 || y == 0.0) = true
  · rw [if_pos hunit]
    rw [Bool.or_eq_true] at hunit
    exact iff_of_true isFinite_one (hunit.elim .inl fun hy => .inr (.inl hy))
  · rw [if_neg hunit]
    rw [Bool.or_eq_true, not_or] at hunit
    obtain ⟨hx, hy⟩ := hunit
    rw [or_iff_right hx, or_iff_right hy]
    by_cases hnumber : (x.isNaN || y.isNaN) = true
    · rw [if_pos hnumber, isFinite_zero_div_zero]
      refine iff_of_false Bool.false_ne_true ?_
      rintro ⟨hxn, hyn, -⟩
      rw [hxn, hyn] at hnumber
      exact absurd hnumber Bool.false_ne_true
    · rw [if_neg hnumber]
      rw [Bool.not_eq_true, Bool.or_eq_false_iff] at hnumber
      obtain ⟨hxn, hyn⟩ := hnumber
      rw [and_iff_right hxn, and_iff_right hyn]
      by_cases hyi : y.isInf = true
      · rw [if_pos hyi, isFinite_raiseToInfinity_iff]
        simp [hyi]
      · have hxi : x.isInf = true := by
          rw [isFinite_eq_false_iff, isFinite_eq_false_iff, hxn, hyn] at h
          simpa [hyi] using h
        rw [if_neg hyi, if_pos hxi, isFinite_raiseInfinity_iff]
        simp [hyi, hxi]

/-- **One operation** with an operand that is not finite has a finite result exactly if it absorbs. -/
theorem BinaryOp.isFinite_apply_iff (h : x.isFinite = false ∨ y.isFinite = false) :
    (op.apply x y).isFinite = true ↔ op.Absorbs x y := by
  have hnot : ¬(x.isFinite = true ∧ y.isFinite = true) := by
    rintro ⟨hx, hy⟩
    rcases h with h | h
    · exact absurd (hx.symm.trans h) (by decide)
    · exact absurd (hy.symm.trans h) (by decide)
  cases op with
  | add => exact iff_of_false (fun hsum => hnot (Double.finite_of_add hsum)) id
  | sub => exact iff_of_false (fun hdifference => hnot (Double.finite_of_sub hdifference)) id
  | mul => exact iff_of_false (fun hproduct => hnot (Double.finite_of_mul hproduct)) id
  | div =>
      constructor
      · intro hquotient
        obtain ⟨hx, hy⟩ := Double.finite_of_div hquotient
        exact ⟨hx, hy.resolve_left fun hy => hnot ⟨hx, hy⟩⟩
      · exact fun habsorbs => Double.finite_div_infinite habsorbs.1 habsorbs.2
  | pow => exact isFinite_raise_iff h

/-! ## Trees -/

/-- A part of a tree is inside of an operand that is not finite, of an operation that absorbs it. -/
inductive Expr.AbsorbsPart (b : Bindings) (tree part : Expr) : Prop
  | inLeft {op : BinaryOp} {left right : Expr} (node : .binary op left right ∈ tree.nodes)
      (inside : part ∈ left.nodes) (nonFinite : (left.value b).isFinite = false)
      (absorbs : op.Absorbs (left.value b) (right.value b))
  | inRight {op : BinaryOp} {left right : Expr} (node : .binary op left right ∈ tree.nodes)
      (inside : part ∈ right.nodes) (nonFinite : (right.value b).isFinite = false)
      (absorbs : op.Absorbs (left.value b) (right.value b))

theorem Expr.AbsorbsPart.mono {tree tree' part : Expr} (h : tree.AbsorbsPart b part)
    (hnodes : tree.nodes ⊆ tree'.nodes) : tree'.AbsorbsPart b part := by
  cases h with
  | inLeft node inside nonFinite absorbs => exact .inLeft (hnodes node) inside nonFinite absorbs
  | inRight node inside nonFinite absorbs => exact .inRight (hnodes node) inside nonFinite absorbs

theorem Expr.ne_of_isFinite {tree part : Expr} (htree : (tree.value b).isFinite = true)
    (hpart : (part.value b).isFinite = false) : part ≠ tree := by
  rintro rfl
  exact absurd (htree.symm.trans hpart) (by decide)

/-- **In a tree with a finite value** every part that is not finite has been absorbed. -/
theorem Expr.absorbsPart {tree part : Expr} (htree : (tree.value b).isFinite = true)
    (hmem : part ∈ tree.nodes) (hpart : (part.value b).isFinite = false) :
    tree.AbsorbsPart b part := by
  induction tree with
  | number value => exact absurd (List.mem_singleton.mp hmem) (ne_of_isFinite htree hpart)
  | symbol name => exact absurd (List.mem_singleton.mp hmem) (ne_of_isFinite htree hpart)
  | neg operand ih =>
      have hinside := (List.mem_cons.mp hmem).resolve_left (ne_of_isFinite htree hpart)
      rw [Expr.value, Double.isFinite_neg] at htree
      exact (ih htree hinside).mono (List.subset_cons_self _ _)
  | binary op left right ihl ihr =>
      have hinside := (List.mem_cons.mp hmem).resolve_left (ne_of_isFinite htree hpart)
      -- the operation absorbs if its operand is not finite, and else the operand has a part that does
      rcases List.mem_append.mp hinside with hleft | hright
      · cases hfinite : (left.value b).isFinite with
        | false =>
            exact .inLeft List.mem_cons_self hleft hfinite
              ((BinaryOp.isFinite_apply_iff (.inl hfinite)).mp htree)
        | true =>
            exact (ihl hfinite hleft).mono fun e he =>
              List.mem_cons_of_mem _ (List.mem_append_left _ he)
      · cases hfinite : (right.value b).isFinite with
        | false =>
            exact .inRight List.mem_cons_self hright hfinite
              ((BinaryOp.isFinite_apply_iff (.inr hfinite)).mp htree)
        | true =>
            exact (ihr hfinite hright).mono fun e he =>
              List.mem_cons_of_mem _ (List.mem_append_right _ he)

/-! ## Formulas -/

/-- **The test**: the error is about the value of the whole formula. -/
theorem Formula.evaluate_nonFinite_iff {f : Formula} :
    (∃ warnings, f.evaluate b = .error ⟨.nonFinite, warnings⟩) ↔
      (∀ name ∈ f.symbols, b.contains name = true) ∧ (f.tree.value b).isFinite = false := by
  unfold Formula.evaluate
  split
  · rename_i name names hmissing
    refine iff_of_false (by simp) ?_
    rintro ⟨hbound, -⟩
    have hname : name ∈ f.symbols.filter fun name => !b.contains name := by
      rw [hmissing]
      exact List.mem_cons_self
    have hunbound := (List.mem_filter.mp hname).2
    rw [hbound name (List.mem_filter.mp hname).1] at hunbound
    exact absurd hunbound (by decide)
  · rename_i hnone
    have hbound : ∀ name ∈ f.symbols, b.contains name = true := by
      simpa using List.filter_eq_nil_iff.mp hnone
    rw [and_iff_right hbound]
    dsimp only
    rw [Expr.measure_value]
    cases (f.tree.value b).isFinite <;> simp

/-- **A success hides what is not finite only where it is absorbed.** Evaluation fails for a result
    that is not finite exactly if all symbols are bound and the value of the whole formula is not finite.
    If it succeeds, every subexpression whose value is not finite stands inside of an operand that is
    not finite, of an operation that absorbs it. -/
theorem success_absorbs_nonFinite (f : Formula) (b : Bindings) :
    ((∃ warnings, f.evaluate b = .error ⟨.nonFinite, warnings⟩) ↔
      (∀ name ∈ f.symbols, b.contains name = true) ∧ (f.tree.value b).isFinite = false) ∧
    ∀ m, f.evaluate b = .ok m → m.value = f.tree.value b ∧ m.value.isFinite = true ∧
      ∀ part ∈ f.tree.nodes, (part.value b).isFinite = false → f.tree.AbsorbsPart b part := by
  refine ⟨Formula.evaluate_nonFinite_iff, fun m hm => ?_⟩
  obtain ⟨hbound, rfl⟩ := Formula.evaluate_eq_ok hm
  have hfinite : (f.tree.value b).isFinite = true := by
    by_contra hnot
    obtain ⟨warnings, hfailure⟩ := Formula.evaluate_nonFinite_iff.mpr
      ⟨fun name hname => hbound name (Expr.mem_symbols.mp hname), Bool.eq_false_iff.mpr hnot⟩
    exact absurd (hm.symm.trans hfailure) (by simp)
  have hvalue : (f.tree.measure b).value = f.tree.value b := Expr.measure_value b f.tree
  exact ⟨hvalue, by rw [← hvalue] at hfinite; exact hfinite,
    fun part hmem hpart => Expr.absorbsPart hfinite hmem hpart⟩

/-- The reciprocal of the reciprocal of zero. -/
def twiceInverted : Formula :=
  ⟨.binary .div (.number 1.0) (.binary .div (.number 1.0) (.number 0.0))⟩

theorem twiceInverted_absorbs :
    ∃ m, twiceInverted.evaluate (.ofVariables []) = .ok m ∧
      twiceInverted.tree.AbsorbsPart (.ofVariables [])
        (.binary .div (.number 1.0) (.number 0.0)) := by
  have hresult : (twiceInverted.evaluate (.ofVariables [])).toOption.map (·.value) = some 0.0 :=
    rfl
  obtain ⟨m, hm, -⟩ := exists_ok_of_map hresult
  obtain ⟨-, -, habsorbed⟩ := (success_absorbs_nonFinite twiceInverted (.ofVariables [])).2 m hm
  exact ⟨m, hm, habsorbed _ (by simp [twiceInverted, Expr.nodes]) rfl⟩

/-- Not every success is free of what is not finite. -/
theorem reciprocal_hides_infinity :
    ¬∀ (source : String) (f : Formula) (table : List Variable),
      Formula.compile source = .ok f → (∀ v ∈ table, v.value.isFinite = true) →
      (∃ part ∈ f.tree.nodes, (part.value (.ofVariables table)).isFinite = false) →
      ∃ warnings, f.evaluate (.ofVariables table) = .error ⟨.nonFinite, warnings⟩ := by
  intro h
  have hcompile : (Formula.compile "1/(1/0)").toOption.map (fun f =>
      (f.tree.nodes.any fun part => !(part.value (.ofVariables [])).isFinite,
        (f.tree.value (.ofVariables [])).isFinite)) = some (true, true) := by
    decide +kernel
  obtain ⟨f, hf, hpair⟩ := exists_ok_of_map hcompile
  obtain ⟨hany, hfinite⟩ := Prod.mk.inj hpair
  obtain ⟨part, hmem, hpart⟩ := List.any_eq_true.mp hany
  have hfails := h "1/(1/0)" f [] hf (by simp) ⟨part, hmem, by simpa using hpart⟩
  have hroot := (Formula.evaluate_nonFinite_iff.mp hfails).2
  exact absurd (hfinite.symm.trans hroot) (by decide)

end Reckoner
