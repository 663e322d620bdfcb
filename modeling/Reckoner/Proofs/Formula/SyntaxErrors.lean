import Reckoner.Proofs.Formula.Bindings
import Reckoner.Proofs.Formula.Parser

/-!
# `Reckoner.Proofs.Formula.SyntaxErrors` — syntax errors point at the first impossible token

Tokens are viable if some continuation of them is a formula. The parser gives up at an operand, at a
closing parenthesis, at the end and behind a formula, each time inside of all the readers that wait
for it. Whatever they have read can be completed, and the token that stopped them cannot go on with
any formula.

That a token is impossible is seen without looking at precedences: it is enough to know whether an
operand comes next, and how many parentheses are open.

## Contents
- **Viable tokens.** `IsFormula` and `IsViable`.
- **Walks.** `Spot` and `walk`; a formula leads from an operand to behind it, `Derives.walk_eq`.
- **Errors.** `Points`: what an error says about the tokens. `Points.behind` puts tokens in front.
- **Readers.** `levelPoints`: the errors of all readers point at the right token.
- **The parser.** `errors_at_first_impossible_token`.
-/

namespace Reckoner.Formula

variable {tallest levels loosest : Nat} {c c' : Category} {ts us : List Token} {e : Expr} {d : Nat}

/-! ## Viable tokens -/

/-- The tokens are a formula of the category, nested as deeply as it may be. -/
def IsFormula (c : Category) (ts : List Token) : Prop := ∃ e d, Derives c ts e d

/-- Some continuation of the tokens is a formula of the category. -/
def IsViable (c : Category) (ts : List Token) : Prop := ∃ more, IsFormula c (ts ++ more)

theorem IsFormula.isViable (h : IsFormula c ts) : IsViable c ts :=
  ⟨[], by rwa [List.append_nil]⟩

theorem IsViable.widen (h : IsViable c ts) (hc : c'.tightness ≤ c.tightness) : IsViable c' ts := by
  obtain ⟨more, e, d, hd⟩ := h
  exact ⟨more, e, d, hd.widen hc⟩

/-- Before the first token everything is possible. -/
theorem isViable_nil (c : Category) : IsViable c [] :=
  ⟨[.number 0.0], _, _, Derives.widen (.number 0.0) (by cases c <;> decide)⟩

theorem IsViable.parens (h : IsViable .sum ts) : IsViable .atom (.openParen :: ts) := by
  obtain ⟨more, e, d, hd⟩ := h
  refine ⟨more ++ [Token.closeParen], e, d + 1, ?_⟩
  rw [List.cons_append, ← List.append_assoc]
  exact .parens hd

theorem IsViable.minus (h : IsViable .signed ts) : IsViable .signed (.minus :: ts) := by
  obtain ⟨more, e, d, hd⟩ := h
  exact ⟨more, .neg e, d + 1, .minus hd⟩

theorem IsViable.plus (h : IsViable .signed ts) : IsViable .signed (.plus :: ts) := by
  obtain ⟨more, e, d, hd⟩ := h
  exact ⟨more, e, d + 1, .plus hd⟩

/-- Behind an operator everything is possible that begins its right operand. -/
theorem IsViable.binary {t : Token} {op : BinaryOp} (hleft : Derives c us e d)
    (ht : operator? t = some op) (hc : op.precedence ≤ c.tightness)
    (h : IsViable (.ofLoosest op.rightPrecedence) ts) :
    IsViable (opCategory op) (us ++ t :: ts) := by
  obtain ⟨more, r, d', hd⟩ := h
  refine ⟨more, .binary op e r, max d (d' + 1), ?_⟩
  rw [List.append_assoc, List.cons_append]
  exact derives_binary ht hleft hc hd

/-! ## Walks -/

/-- A place between tokens: in front of an operand or behind one, inside so many parentheses. -/
inductive Spot where
  | operand (opened : Nat)
  | behind (opened : Nat)
deriving DecidableEq, Repr

/-- The place behind a token, if the token is possible. -/
def Spot.step : Spot → Token → Option Spot
  | .operand n, .number _ | .operand n, .symbol _ => some (.behind n)
  | .operand n, .plus | .operand n, .minus => some (.operand n)
  | .operand n, .openParen => some (.operand (n + 1))
  | .operand _, _ => none
  | .behind n, .closeParen =>
    match n with
    | 0 => none
    | n + 1 => some (.behind n)
  | .behind n, t => (operator? t).map fun _ => .operand n

/-- The place behind some tokens, if all of them are possible. -/
def walk (ts : List Token) (spot : Spot) : Option Spot := ts.foldlM Spot.step spot

theorem walk_cons (t : Token) (ts : List Token) (spot : Spot) :
    walk (t :: ts) spot = (spot.step t).bind (walk ts) := rfl

theorem walk_append (ts us : List Token) (spot : Spot) :
    walk (ts ++ us) spot = (walk ts spot).bind (walk us) := List.foldlM_append

theorem walk_singleton (t : Token) (spot : Spot) : walk [t] spot = spot.step t := by
  rw [walk_cons]
  cases spot.step t <;> rfl

theorem Spot.step_operator {t : Token} {op : BinaryOp} (ht : operator? t = some op) (n : Nat) :
    (Spot.behind n).step t = some (.operand n) := by
  cases t with
  | plus | minus | star | slash | caret => rfl
  | openParen | closeParen | number | symbol => exact absurd ht (by simp [operator?])

/-- Behind an operand only operators are possible, and closing parentheses where one is open. -/
theorem Spot.step_behind_eq_none {t : Token} {n : Nat} (ht : operator? t = none)
    (hclose : t = .closeParen → n = 0) : (Spot.behind n).step t = none := by
  cases t with
  | plus | minus | star | slash | caret => exact absurd ht (by simp [operator?])
  | closeParen =>
      obtain rfl := hclose rfl
      rfl
  | openParen | number | symbol => rfl

theorem walk_binary {t : Token} {op : BinaryOp} {n : Nat}
    (hts : walk ts (.operand n) = some (.behind n)) (ht : operator? t = some op) (us : List Token) :
    walk (ts ++ t :: us) (.operand n) = walk us (.operand n) := by
  rw [walk_append, hts, Option.bind_some, walk_cons, Spot.step_operator ht, Option.bind_some]

/-- **A formula is an operand**, as seen from outside. -/
theorem Derives.walk_eq (h : Derives c ts e d) (n : Nat) :
    walk ts (.operand n) = some (.behind n) := by
  induction h generalizing n with
  | number value => rfl
  | symbol name => rfl
  | parens _ ih =>
      rw [walk_cons, Spot.step, Option.bind_some, walk_append, ih]
      rfl
  | ofAtom _ ih => exact ih n
  | raise _ _ ihl ihr =>
      have hcaret : operator? .caret = some .pow := rfl
      rw [walk_binary (ihl n) hcaret, ihr]
  | ofPower _ ih => exact ih n
  | minus _ ih => exact ih n
  | plus _ ih => exact ih n
  | ofSigned _ ih => exact ih n
  | scale _ sign _ ihl ihr => rw [walk_binary (ihl n) sign.operator.1, ihr]
  | ofProduct _ ih => exact ih n
  | combine _ sign _ ihl ihr => rw [walk_binary (ihl n) sign.operator.1, ihr]

/-- What cannot be walked is not viable. -/
theorem not_isViable_of_walk (h : walk ts (.operand 0) = none) : ¬IsViable c ts := by
  rintro ⟨more, e, d, hd⟩
  have hwalk := hd.walk_eq 0
  rw [walk_append, h] at hwalk
  exact absurd hwalk (by simp)

/-! ## Errors -/

/-- What an error says about the tokens it is about: those in front of the token it names can be
    completed, and no walk gets behind it, whatever parentheses were opened before; at the end all
    tokens can be completed. -/
def Points (c : Category) (ts : List Placed) : FormulaError → Prop
  | .unexpectedToken found _ =>
    ∃ before behind, ts = before ++ found :: behind ∧ IsViable c (before.map Placed.token) ∧
      ∀ n, walk ((before ++ [found]).map Placed.token) (.operand n) = none
  | .unexpectedEnd _ => IsViable c (ts.map Placed.token)
  | .empty | .unexpectedCharacter .. | .tooDeep => True

/-- **Waiting readers.** Tokens in front do not change what an error points at, if they lead to an
    operand and can be completed together with what can be completed behind them. -/
theorem Points.behind (front : List Placed) {ts : List Placed} {error : FormulaError}
    (h : Points c ts error)
    (hwalk : ∀ n, ∃ m, walk (front.map Placed.token) (.operand n) = some (.operand m))
    (hviable : ∀ us, IsViable c us → IsViable c' (front.map Placed.token ++ us)) :
    Points c' (front ++ ts) error := by
  cases error with
  | unexpectedToken found expected =>
      obtain ⟨before, behind, rfl, hbefore, hfound⟩ := h
      refine ⟨front ++ before, behind, (List.append_assoc ..).symm, ?_, fun n => ?_⟩
      · rw [List.map_append]
        exact hviable _ hbefore
      · obtain ⟨m, hm⟩ := hwalk n
        rw [List.append_assoc, List.map_append, walk_append, hm]
        exact hfound m
  | unexpectedEnd expected =>
      show IsViable c' ((front ++ ts).map Placed.token)
      rw [List.map_append]
      exact hviable _ h
  | empty | unexpectedCharacter | tooDeep => trivial

theorem Points.widen {ts : List Placed} {error : FormulaError} (h : Points c ts error)
    (hc : c'.tightness ≤ c.tightness) : Points c' ts error :=
  Points.behind [] h (fun n => ⟨n, rfl⟩) fun _ hus => hus.widen hc

/-- A token that cannot begin an operand is pointed at. -/
theorem points_at_operand (c : Category) {t : Placed} (ts : List Placed) (expected : Expected)
    (ht : ∀ n, (Spot.operand n).step t.token = none) :
    Points c (t :: ts) (.unexpectedToken t expected) :=
  ⟨[], ts, rfl, isViable_nil c, fun n => (walk_singleton _ _).trans (ht n)⟩

/-! ## Readers -/

/-- A computation that fails does so in its first part or behind it. -/
theorem or_of_bind_eq_error {ε α β : Type} {x : Except ε α} {f : α → Except ε β} {error : ε}
    (h : x.bind f = .error error) : x = .error error ∨ ∃ a, x = .ok a ∧ f a = .error error := by
  cases x with
  | error e =>
      obtain rfl := Except.error.inj h
      exact .inl rfl
  | ok a => exact .inr ⟨a, rfl, h⟩

theorem grow_eq_error {height : Nat} {error : FormulaError} (h : grow tallest height = .error error) :
    error = .tooDeep := by
  unfold grow at h
  split at h
  · exact (Except.error.inj h).symm
  · exact absurd h (by simp)

theorem negated_eq_error {inner : Reading} {error : FormulaError}
    (h : negated tallest inner = .error error) : error = .tooDeep := by
  unfold negated at h
  cases hg : grow tallest inner.2.1 with
  | error e =>
      rw [hg] at h
      obtain rfl := Except.error.inj h
      exact grow_eq_error hg
  | ok height =>
      rw [hg] at h
      exact absurd h (by simp [Except.map])

theorem closed_eq_error {inner : Reading} {error : FormulaError} (h : closed inner = .error error) :
    (inner.2.2 = [] ∧ error = .unexpectedEnd .closeParen) ∨
      ∃ t rest, inner.2.2 = t :: rest ∧ t.token ≠ .closeParen ∧
        error = .unexpectedToken t .closeParen := by
  obtain ⟨tree, height, rest⟩ := inner
  cases rest with
  | nil => exact .inl ⟨rfl, (Except.error.inj h).symm⟩
  | cons t rest =>
      simp only [closed] at h
      split at h
      · exact absurd h (by simp)
      · rename_i hclose
        exact .inr ⟨t, rest, rfl, fun ht => hclose ht, (Except.error.inj h).symm⟩

theorem readChain_cons_eq_error {left : Expr} {height : Nat} {t : Placed} {ts : List Placed}
    {error : FormulaError}
    (h : readChain tallest levels loosest left height (t :: ts) = .error error) :
    ∃ op, operator? t.token = some op ∧ loosest ≤ op.precedence ∧
      (read tallest levels op.rightPrecedence ts = .error error ∨ error = .tooDeep ∨
        ∃ right taller, read tallest levels op.rightPrecedence ts = .ok right ∧
          readChain tallest levels loosest (.binary op left right.1) taller right.2.2 =
            .error error) := by
  rw [readChain_cons] at h
  cases ht : operator? t.token with
  | none =>
      rw [ht] at h
      exact absurd h (by simp)
  | some op =>
      rw [ht] at h
      by_cases hop : op.precedence < loosest
      · simp only [if_pos hop] at h
        exact absurd h (by simp)
      · simp only [if_neg hop] at h
        refine ⟨op, rfl, Nat.not_lt.mp hop, ?_⟩
        rcases or_of_bind_eq_error h with hright | ⟨right, hright, h⟩
        · exact .inl hright
        · rcases or_of_bind_eq_error h with hgrow | ⟨taller, -, hchain⟩
          · exact .inr (.inl (grow_eq_error hgrow))
          · exact .inr (.inr ⟨right, taller, hright, hchain⟩)

/-- Every error of a reader with so many levels points at the right token. -/
def LevelPoints (tallest levels : Nat) : Prop :=
  ∀ {loosest : Nat} {ts : List Placed} {error : FormulaError},
    read tallest levels loosest ts = .error error → Points (.ofLoosest loosest) ts error

/-- A formula in parentheses that is not closed. -/
theorem points_of_closed {ts : List Placed} {inner : Reading} {error : FormulaError} {t : Placed}
    (ht : t.token = .openParen) (hsound : ReadSoundly 0 ts inner)
    (h : closed inner = .error error) : Points .atom (t :: ts) error := by
  obtain ⟨us, d, hts, hd, hs⟩ := hsound
  have hopened : IsViable .atom ((t :: us).map Placed.token) := by
    rw [List.map_cons, ht]
    exact (IsFormula.isViable ⟨_, _, hd⟩).parens
  rcases closed_eq_error h with ⟨hrest, rfl⟩ | ⟨found, rest, hrest, hclose, rfl⟩
  · rw [hrest, List.append_nil] at hts
    rw [hts]
    exact hopened
  · rw [hrest] at hts hs
    refine ⟨t :: us, rest, by rw [hts]; rfl, hopened, fun n => ?_⟩
    -- every operator would have been read
    have hoperator : operator? found.token = none :=
      Option.eq_none_iff_forall_ne_some.mpr fun op hop => absurd (hs op hop) (Nat.not_lt_zero _)
    rw [List.cons_append, List.map_cons, ht, walk_cons, Spot.step, Option.bind_some,
      List.map_append, walk_append, hd.walk_eq, Option.bind_some]
    exact (walk_singleton _ _).trans
      (Spot.step_behind_eq_none hoperator fun hparen => absurd hparen hclose)

/-- **The errors of operands**: at the front, behind a sign or a parenthesis, and where one is not
    closed. -/
theorem points_of_readOperand (hlevel : LevelPoints tallest levels) {ts : List Placed}
    {error : FormulaError} (h : readOperand tallest levels ts = .error error) :
    Points .signed ts error := by
  cases ts with
  | nil =>
      rw [readOperand_nil] at h
      obtain rfl := Except.error.inj h
      exact isViable_nil .signed
  | cons t ts =>
      rw [readOperand_cons] at h
      cases ht : t.token with
      | number | symbol =>
          rw [ht] at h
          exact absurd h (by simp)
      | openParen =>
          rw [ht] at h
          refine Points.widen (c := .atom) ?_ (by decide)
          rcases or_of_bind_eq_error h with hinner | ⟨inner, hinner, hclose⟩
          · refine Points.behind [t] (hlevel hinner) (fun n => ⟨n + 1, ?_⟩) fun us hus => ?_
            · rw [List.map_singleton, ht]
              rfl
            · rw [List.map_singleton, ht]
              exact hus.parens
          · exact points_of_closed ht (levelSound tallest levels hinner) hclose
      | minus =>
          rw [ht] at h
          rcases or_of_bind_eq_error h with hinner | ⟨inner, -, hneg⟩
          · refine Points.behind [t] (hlevel hinner) (fun n => ⟨n, ?_⟩) fun us hus => ?_
            · rw [List.map_singleton, ht]
              rfl
            · rw [List.map_singleton, ht]
              exact hus.minus
          · obtain rfl := negated_eq_error hneg
            trivial
      | plus =>
          rw [ht] at h
          refine Points.behind [t] (hlevel h) (fun n => ⟨n, ?_⟩) fun us hus => ?_
          · rw [List.map_singleton, ht]
            rfl
          · rw [List.map_singleton, ht]
            exact hus.plus
      | star | slash | caret | closeParen =>
          rw [ht] at h
          obtain rfl := Except.error.inj h
          exact points_at_operand _ _ _ fun n => by rw [ht]; rfl

/-- **The errors of chains** are those of the right operands. -/
theorem points_of_readChain (hlevel : LevelPoints tallest levels) {left : Expr} {height : Nat}
    {ts : List Placed} {error : FormulaError}
    (h : readChain tallest levels loosest left height ts = .error error) {us : List Placed}
    {c : Category} {d : Nat} (hleft : Derives c (us.map Placed.token) left d)
    (hf : Follows c ts) : Points (.ofLoosest loosest) (us ++ ts) error := by
  -- on the tokens left: each operator hands a longer left operand on
  induction hn : ts.length using Nat.strongRecOn generalizing ts left height us c d with
  | ind n ih =>
  cases ts with
  | nil =>
      rw [readChain_nil] at h
      exact absurd h (by simp)
  | cons t ts =>
      obtain ⟨op, ht, hop, h⟩ := readChain_cons_eq_error h
      have hwiden := ofLoosest_le_opCategory hop
      rw [List.append_cons]
      rcases h with hright | rfl | ⟨right, taller, hright, hchain⟩
      · refine Points.behind (us ++ [t]) (hlevel hright) (fun n => ⟨n, ?_⟩) fun vs hvs => ?_
        · rw [List.map_append, List.map_singleton, walk_binary (hleft.walk_eq n) ht]
          rfl
        · rw [List.map_append, List.map_singleton, List.append_assoc]
          exact (IsViable.binary hleft ht (hf op ht) hvs).widen hwiden
      · trivial
      · obtain ⟨vs, d', rfl, hd, hs⟩ := levelSound tallest levels hright
        have hlength : right.2.2.length < n := by
          rw [← hn, List.length_cons, List.length_append]
          omega
        have hbinary := derives_binary ht hleft (hf op ht) hd
        rw [← List.map_cons, ← List.map_append, List.append_cons] at hbinary
        rw [← List.append_assoc]
        exact ih _ hlength hchain hbinary hs.follows_opCategory rfl

/-- **All errors of all readers point at the right token**, with any number of levels. -/
theorem levelPoints (tallest levels : Nat) : LevelPoints tallest levels := by
  induction levels with
  | zero =>
      intro loosest ts error h
      rw [read_zero] at h
      obtain rfl := Except.error.inj h
      trivial
  | succ levels ih =>
      intro loosest ts error h
      rw [read_succ] at h
      rcases or_of_bind_eq_error h with hfirst | ⟨first, hfirst, hchain⟩
      · exact (points_of_readOperand ih hfirst).widen (ofLoosest_le_signed loosest)
      · obtain ⟨us, c, d, rfl, hd, -, hf⟩ :=
          derives_of_readOperand (levelSound tallest levels) hfirst
        exact points_of_readChain ih hchain hd hf

/-! ## The parser -/

/-- The parser fails with its reader, or at a token behind a whole formula. -/
theorem parse_eq_error {ts : List Placed} (hts : ts ≠ []) {error : FormulaError}
    (h : parse ts = .error error) :
    read maxDepth maxDepth 0 ts = .error error ∨
      ∃ r t rest, read maxDepth maxDepth 0 ts = .ok r ∧ r.2.2 = t :: rest ∧
        error = .unexpectedToken t .operatorOrEnd := by
  rw [parse_eq hts] at h
  rcases or_of_bind_eq_error h with hread | ⟨r, hread, hrest⟩
  · exact .inl hread
  · cases hr : r.2.2 with
    | nil =>
        rw [hr] at hrest
        exact absurd hrest (by simp)
    | cons t rest =>
        rw [hr] at hrest
        exact .inr ⟨r, t, rest, hread, hr, (Except.error.inj hrest).symm⟩

/-- A token that is not expected is the first one with which the tokens are not viable. -/
theorem viable_of_unexpectedToken {ts : List Placed} {found : Placed} {expected : Expected}
    (h : parse ts = .error (.unexpectedToken found expected)) :
    ∃ before behind, ts = before ++ found :: behind ∧ IsViable .sum (before.map Placed.token) ∧
      ¬IsViable .sum ((before ++ [found]).map Placed.token) := by
  have hts : ts ≠ [] := by rintro rfl; exact absurd h (by simp [parse])
  rcases parse_eq_error hts h with hread | ⟨r, t, rest, hread, hrest, herror⟩
  · obtain ⟨before, behind, rfl, hbefore, hfound⟩ := levelPoints maxDepth maxDepth hread
    exact ⟨before, behind, rfl, hbefore, not_isViable_of_walk (hfound 0)⟩
  · obtain ⟨rfl, -⟩ := FormulaError.unexpectedToken.inj herror
    obtain ⟨us, d, rfl, hd, hs⟩ := levelSound maxDepth maxDepth hread
    rw [hrest] at hs ⊢
    refine ⟨us, rest, rfl, IsFormula.isViable ⟨_, _, hd⟩, not_isViable_of_walk ?_⟩
    -- nothing is open behind the formula, and every operator would have been read
    have hoperator : operator? found.token = none :=
      Option.eq_none_iff_forall_ne_some.mpr fun op hop => absurd (hs op hop) (Nat.not_lt_zero _)
    rw [List.map_append, walk_append, hd.walk_eq, Option.bind_some]
    exact (walk_singleton _ _).trans (Spot.step_behind_eq_none hoperator fun _ => rfl)

/-- Where the end is not expected all tokens are viable. -/
theorem viable_of_unexpectedEnd {ts : List Placed} {expected : Expected}
    (h : parse ts = .error (.unexpectedEnd expected)) :
    ts ≠ [] ∧ IsViable .sum (ts.map Placed.token) := by
  have hts : ts ≠ [] := by rintro rfl; exact absurd h (by simp [parse])
  rcases parse_eq_error hts h with hread | ⟨_, _, _, _, _, herror⟩
  · exact ⟨hts, levelPoints maxDepth maxDepth hread⟩
  · exact absurd herror (by simp)

/-- **Syntax errors point at the first token that cannot continue a formula.** A token is unexpected
    if the tokens in front of it can be continued to a formula and those up to it cannot. The end is
    unexpected if the tokens are not empty and can be continued to a formula, but are none. Neither
    error is an answer to a formula, however deeply it is nested. -/
theorem errors_at_first_impossible_token (ts : List Placed) :
    (∀ found expected, parse ts = .error (.unexpectedToken found expected) →
      ∃ before behind, ts = before ++ found :: behind ∧ IsViable .sum (before.map Placed.token) ∧
        ¬IsViable .sum ((before ++ [found]).map Placed.token)) ∧
    (∀ expected, parse ts = .error (.unexpectedEnd expected) →
      IsViable .sum (ts.map Placed.token) ∧ ts ≠ [] ∧ ¬IsFormula .sum (ts.map Placed.token)) ∧
    (IsFormula .sum (ts.map Placed.token) →
      (∀ found expected, parse ts ≠ .error (.unexpectedToken found expected)) ∧
        ∀ expected, parse ts ≠ .error (.unexpectedEnd expected)) := by
  have hformula (h : IsFormula .sum (ts.map Placed.token)) :
      (∃ e, parse ts = .ok e) ∨ parse ts = .error .tooDeep := by
    obtain ⟨e, d, hd⟩ := h
    rw [parse_of_derives hd]
    split
    · exact .inl ⟨e, rfl⟩
    · exact .inr rfl
  refine ⟨fun found expected h => viable_of_unexpectedToken h, fun expected h => ?_, fun h => ?_⟩
  · obtain ⟨hts, hviable⟩ := viable_of_unexpectedEnd h
    refine ⟨hviable, hts, fun hwhole => ?_⟩
    rcases hformula hwhole with ⟨e, he⟩ | he <;> rw [he] at h <;> exact absurd h (by simp)
  · rcases hformula h with ⟨e, he⟩ | he <;> rw [he] <;> simp

/-- A product whose second operand is missing, in parentheses that close too early. -/
def unfinished : List Placed :=
  [⟨.openParen, 1⟩, ⟨.symbol "a", 2⟩, ⟨.star, 3⟩, ⟨.closeParen, 4⟩, ⟨.caret, 5⟩]

theorem unfinished_error :
    ∃ expected, parse unfinished = .error (.unexpectedToken ⟨.closeParen, 4⟩ expected) ∧
      ∃ before behind, unfinished = before ++ ⟨.closeParen, 4⟩ :: behind ∧
        IsViable .sum (before.map Placed.token) ∧
        ¬IsViable .sum ((before ++ [⟨.closeParen, 4⟩]).map Placed.token) := by
  have hparse : parse unfinished = .error (.unexpectedToken ⟨.closeParen, 4⟩ .operand) := by
    simp [unfinished, parse_eq, maxDepth, read_succ, readOperand_cons, readChain_cons, operator?,
      BinaryOp.precedence, Except.bind]
  exact ⟨.operand, hparse, (errors_at_first_impossible_token unfinished).1 _ _ hparse⟩

end Reckoner.Formula
