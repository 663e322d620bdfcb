import Reckoner.Formula.Parser

/-!
# `Reckoner.Proofs.Formula.Readers` — what the readers of a formula return

The readers carry proofs that they use up tokens, so their results have a type of their own for
each token list. `read`, `readOperand` and `readChain` forget these proofs, and the equations here
say what each reader does at the front of a list. Nothing above this module unfolds a reader.

## Contents
- **Readers.** The three views.
- **Operands.** One equation for each token an operand can begin with.
- **Chains.** `readChain_stop` and `readChain_operator`.
- **Formulas.** `read_succ` and `parse_eq`.
-/

namespace Reckoner.Formula

/-! ## Readers -/

/-- The tree, its height and the tokens behind it. -/
abbrev Reading := Expr × Nat × List Placed

/-- A result without the proof that it uses up tokens. -/
def Parsed.reading {ts : List Placed} (r : Parsed ts) : Reading := (r.tree, r.height, r.rest)

/-- Reads a formula whose operators bind at least as tightly as `loosest`. -/
def read (tallest levels loosest : Nat) (ts : List Placed) : Except FormulaError Reading :=
  (expression tallest levels loosest ts).map Parsed.reading

/-- Reads the first operand of a formula. -/
def readOperand (tallest levels : Nat) (ts : List Placed) : Except FormulaError Reading :=
  (signed tallest (expression tallest levels) ts).map Parsed.reading

/-- Reads the operators behind a left operand. -/
def readChain (tallest levels loosest : Nat) (left : Expr) (height : Nat) (ts : List Placed) :
    Except FormulaError Reading :=
  (chain tallest (expression tallest levels) loosest (ts.length + 1) left height ts
    (Nat.lt_succ_self _)).map Subtype.val

variable {tallest levels loosest : Nat}

/-- A computation that succeeds goes through its first part. -/
theorem exists_of_bind_eq_ok {ε α β : Type} {x : Except ε α} {f : α → Except ε β} {b : β}
    (h : x.bind f = .ok b) : ∃ a, x = .ok a ∧ f a = .ok b := by
  cases x with
  | error e => exact absurd h (by simp [Except.bind])
  | ok a => exact ⟨a, rfl, h⟩

/-! ## Operands -/

/-- Takes the parenthesis that closes a formula. -/
def closed (inner : Reading) : Except FormulaError Reading :=
  match inner.2.2 with
  | [] => .error (.unexpectedEnd .closeParen)
  | close :: rest =>
    match close.token with
    | .closeParen => .ok (inner.1, inner.2.1, rest)
    | _ => .error (.unexpectedToken close .closeParen)

/-- Puts a minus sign in front of an operand. -/
def negated (tallest : Nat) (inner : Reading) : Except FormulaError Reading :=
  (grow tallest inner.2.1).map fun height => (.neg inner.1, height, inner.2.2)

theorem closed_eq_ok {inner r : Reading} (h : closed inner = .ok r) :
    ∃ close, inner.2.2 = close :: r.2.2 ∧ close.token = .closeParen ∧ r.1 = inner.1 := by
  obtain ⟨tree, height, rest⟩ := inner
  cases rest with
  | nil => exact absurd h (by simp [closed])
  | cons close rest =>
      simp only [closed] at h
      split at h
      · rename_i hclose
        obtain rfl := Except.ok.inj h
        exact ⟨close, rfl, hclose, rfl⟩
      · exact absurd h (by simp)

theorem negated_eq_ok {inner r : Reading} (h : negated tallest inner = .ok r) :
    r.1 = .neg inner.1 ∧ r.2.2 = inner.2.2 := by
  unfold negated at h
  cases hg : grow tallest inner.2.1 with
  | error e => rw [hg] at h; exact absurd h (by simp [Except.map])
  | ok height =>
      rw [hg] at h
      obtain rfl := Except.ok.inj h
      exact ⟨rfl, rfl⟩

theorem readOperand_nil :
    readOperand tallest levels [] = .error (.unexpectedEnd .operand) := rfl

theorem readOperand_cons (t : Placed) (ts : List Placed) :
    readOperand tallest levels (t :: ts) =
      match t.token with
      | .number value => .ok (.number value, 1, ts)
      | .symbol name => .ok (.symbol name, 1, ts)
      | .openParen => (read tallest levels 0 ts).bind closed
      | .minus => (read tallest levels signPrecedence ts).bind (negated tallest)
      | .plus => read tallest levels signPrecedence ts
      | _ => .error (.unexpectedToken t .operand) := by
  cases ht : t.token with
  | number value => simp [readOperand, signed, atom, ht, Except.map, Parsed.reading]
  | symbol name => simp [readOperand, signed, atom, ht, Except.map, Parsed.reading]
  | openParen =>
      simp only [readOperand, signed, atom, ht, read]
      cases expression tallest levels 0 ts with
      | error e => rfl
      | ok inner =>
          obtain ⟨tree, height, rest, shorter⟩ := inner
          cases rest with
          | nil => rfl
          | cons close rest =>
              obtain ⟨token, position⟩ := close
              cases token <;> rfl
  | minus =>
      simp only [readOperand, signed, ht, read]
      cases expression tallest levels signPrecedence ts with
      | error e => rfl
      | ok inner =>
          show Except.map _ (Except.bind (grow tallest inner.height) _) = negated tallest _
          simp only [negated, Parsed.reading]
          cases grow tallest inner.height <;> rfl
  | plus =>
      simp only [readOperand, signed, ht, read]
      cases expression tallest levels signPrecedence ts <;> rfl
  | star | slash | caret | closeParen => simp [readOperand, signed, atom, ht, Except.map]

/-! ## Chains -/

/-- The bound on a chain's tokens does not matter to what it returns. -/
theorem chain_bound {operand : OperandReader} {bound bound' height : Nat} {left : Expr}
    {ts : List Placed} (h : ts.length < bound) (h' : ts.length < bound') :
    (chain tallest operand loosest bound left height ts h).map Subtype.val =
      (chain tallest operand loosest bound' left height ts h').map Subtype.val := by
  fun_induction chain tallest operand loosest bound left height ts h generalizing bound' with
  | case1 => unfold chain; rfl
  | case2 => unfold chain; simp [*, Except.map]
  | case3 => unfold chain; simp [*, Except.map]
  | case4 => unfold chain; simp [*, Except.map]
  | case5 => unfold chain; simp [*, Except.map]
  | case6 _ _ _ _ _ _ _ _ _ _ _ _ _ ih =>
      conv => rhs; unfold chain
      simp only [*, if_false]
      exact ih _

theorem readChain_nil (left : Expr) (height : Nat) :
    readChain tallest levels loosest left height [] = .ok (left, height, []) := by
  simp [readChain, chain, Except.map]

theorem readChain_cons (left : Expr) (height : Nat) (t : Placed) (ts : List Placed) :
    readChain tallest levels loosest left height (t :: ts) =
      match operator? t.token with
      | none => .ok (left, height, t :: ts)
      | some op =>
        if op.precedence < loosest then .ok (left, height, t :: ts)
        else (read tallest levels op.rightPrecedence ts).bind fun right =>
          (grow tallest (max height right.2.1)).bind fun taller =>
            readChain tallest levels loosest (.binary op left right.1) taller right.2.2 := by
  rw [readChain, chain]
  cases operator? t.token with
  | none => rfl
  | some op =>
      by_cases hop : op.precedence < loosest
      · simp [hop, Except.map]
      · simp only [hop, if_false, read]
        cases expression tallest levels op.rightPrecedence ts with
        | error e => rfl
        | ok right =>
            simp only [Except.map, Except.bind, Parsed.reading]
            cases grow tallest (max height right.height) with
            | error e => rfl
            | ok taller => exact chain_bound _ _

/-- A chain that was read ends at once, or goes on behind its first operator. -/
theorem readChain_cons_eq_ok {left : Expr} {height : Nat} {t : Placed} {ts : List Placed}
    {r : Reading} (h : readChain tallest levels loosest left height (t :: ts) = .ok r) :
    ((∀ op, operator? t.token = some op → op.precedence < loosest) ∧
        r = (left, height, t :: ts)) ∨
      ∃ op right taller, operator? t.token = some op ∧ loosest ≤ op.precedence ∧
        read tallest levels op.rightPrecedence ts = .ok right ∧
        readChain tallest levels loosest (.binary op left right.1) taller right.2.2 = .ok r := by
  rw [readChain_cons] at h
  cases ht : operator? t.token with
  | none =>
      rw [ht] at h
      exact .inl ⟨fun op hop => absurd hop (by simp), (Except.ok.inj h).symm⟩
  | some op =>
      rw [ht] at h
      by_cases hop : op.precedence < loosest
      · refine .inl ⟨fun op' hop' => ?_, ?_⟩
        · obtain rfl := Option.some.inj hop'
          exact hop
        · simp only [if_pos hop] at h
          exact (Except.ok.inj h).symm
      · simp only [if_neg hop] at h
        obtain ⟨right, hright, h⟩ := exists_of_bind_eq_ok h
        obtain ⟨taller, -, h⟩ := exists_of_bind_eq_ok h
        exact .inr ⟨op, right, taller, rfl, Nat.not_lt.mp hop, hright, h⟩

/-! ## Formulas -/

theorem read_zero (ts : List Placed) : read tallest 0 loosest ts = .error .tooDeep := rfl

theorem read_succ (ts : List Placed) :
    read tallest (levels + 1) loosest ts = (readOperand tallest levels ts).bind fun first =>
      readChain tallest levels loosest first.1 first.2.1 first.2.2 := by
  simp only [read, readOperand, expression]
  cases signed tallest (expression tallest levels) ts with
  | error e => rfl
  | ok first =>
      obtain ⟨tree, height, rest, shorter⟩ := first
      refine Eq.trans ?_ (chain_bound shorter (Nat.lt_succ_self rest.length))
      show Except.map _ (Except.bind (chain ..) _) = Except.map _ (chain _ _ _ _ tree height _ _)
      cases chain tallest (expression tallest levels) loosest ts.length tree height rest shorter <;>
        rfl

theorem parse_eq {ts : List Placed} (h : ts ≠ []) :
    parse ts = (read maxDepth maxDepth 0 ts).bind fun r =>
      match r.2.2 with
      | [] => .ok r.1
      | t :: _ => .error (.unexpectedToken t .operatorOrEnd) := by
  have hts : ts.isEmpty = false := by simpa using h
  simp only [parse, hts, read]
  cases expression maxDepth maxDepth 0 ts <;> rfl

end Reckoner.Formula
