import Mathlib.Logic.Function.Iterate
import Reckoner.Formula.Parser

/-!
# `Reckoner.Proofs.Formula.Grammar` — the grammar of formulas

The grammar is stated on tokens and without any reading order, with sums and products recursive on
the left. `Derives c ts e d` says that the tokens `ts` form a formula of category `c` with tree `e`
and nesting depth `d`: the depth is 1 for a formula that encloses nothing, and one more inside each
pair of parentheses, behind each sign and in each right operand.

## Contents
- **Categories.** `Category`, ordered by how tightly a formula holds together.
- **Derivations.** `SumSign`, `ProductSign`, and `Derives` with one rule for each production.
- **Widening.** A formula of a tight category is one of every looser category (`Derives.widen`).
-/

namespace Reckoner.Formula

/-! ## Categories -/

/-- The nonterminals of the grammar, from the loosest to the tightest. -/
inductive Category where
  | sum
  | product
  | signed
  | power
  | atom
deriving DecidableEq, Repr

/-- How tightly a formula of a category holds together, on the scale of the precedences of
    operators: an operator behind it goes on with it exactly when it binds more tightly. -/
def Category.tightness : Category → Nat
  | .sum => 10
  | .product => 20
  | .signed => 25
  | .power => 35
  | .atom => 40

/-! ## Derivations -/

/-- The signs of sums. -/
inductive SumSign : Token → BinaryOp → Prop where
  | plus : SumSign .plus .add
  | minus : SumSign .minus .sub

/-- The signs of products. -/
inductive ProductSign : Token → BinaryOp → Prop where
  | star : ProductSign .star .mul
  | slash : ProductSign .slash .div

/-- **The grammar.** The tokens form a formula of the category, with the tree and the nesting depth.
    Parentheses and plus signs leave no node. -/
inductive Derives : Category → List Token → Expr → Nat → Prop where
  | number (value : Float) : Derives .atom [.number value] (.number value) 1
  | symbol (name : String) : Derives .atom [.symbol name] (.symbol name) 1
  | parens {ts e d} : Derives .sum ts e d →
      Derives .atom (.openParen :: (ts ++ [.closeParen])) e (d + 1)
  | ofAtom {ts e d} : Derives .atom ts e d → Derives .power ts e d
  | raise {ts us l r d d'} : Derives .atom ts l d → Derives .signed us r d' →
      Derives .power (ts ++ .caret :: us) (.binary .pow l r) (max d (d' + 1))
  | ofPower {ts e d} : Derives .power ts e d → Derives .signed ts e d
  | minus {ts e d} : Derives .signed ts e d → Derives .signed (.minus :: ts) (.neg e) (d + 1)
  | plus {ts e d} : Derives .signed ts e d → Derives .signed (.plus :: ts) e (d + 1)
  | ofSigned {ts e d} : Derives .signed ts e d → Derives .product ts e d
  | scale {ts t us op l r d d'} : Derives .product ts l d → ProductSign t op →
      Derives .signed us r d' →
      Derives .product (ts ++ t :: us) (.binary op l r) (max d (d' + 1))
  | ofProduct {ts e d} : Derives .product ts e d → Derives .sum ts e d
  | combine {ts t us op l r d d'} : Derives .sum ts l d → SumSign t op →
      Derives .product us r d' →
      Derives .sum (ts ++ t :: us) (.binary op l r) (max d (d' + 1))

/-! ## Widening -/

/-- The next looser category. -/
def Category.wider : Category → Category
  | .atom => .power
  | .power => .signed
  | .signed => .product
  | .product | .sum => .sum

/-- Every looser category is reached by widening. -/
theorem Category.exists_wider {c c' : Category} (h : c'.tightness ≤ c.tightness) :
    ∃ n < 5, wider^[n] c = c' := by
  cases c <;> cases c' <;> revert h <;> decide

theorem Derives.wider {c : Category} {ts : List Token} {e : Expr} {d : Nat}
    (h : Derives c ts e d) : Derives c.wider ts e d := by
  cases c with
  | atom => exact .ofAtom h
  | power => exact .ofPower h
  | signed => exact .ofSigned h
  | product => exact .ofProduct h
  | sum => exact h

/-- **A formula of a category is a formula of every looser one.** -/
theorem Derives.widen {c c' : Category} {ts : List Token} {e : Expr} {d : Nat}
    (h : Derives c ts e d) (hc : c'.tightness ≤ c.tightness) : Derives c' ts e d := by
  obtain ⟨n, -, rfl⟩ := Category.exists_wider hc
  clear hc
  induction n with
  | zero => exact h
  | succ n ih =>
      rw [Function.iterate_succ_apply']
      exact ih.wider

/-- Every derivation reads at least one token. -/
theorem Derives.ne_nil {c : Category} {ts : List Token} {e : Expr} {d : Nat}
    (h : Derives c ts e d) : ts ≠ [] := by
  induction h <;> simp_all

/-- The nesting depth counts the whole formula. -/
theorem Derives.depth_pos {c : Category} {ts : List Token} {e : Expr} {d : Nat}
    (h : Derives c ts e d) : 0 < d := by
  induction h <;> omega

end Reckoner.Formula
