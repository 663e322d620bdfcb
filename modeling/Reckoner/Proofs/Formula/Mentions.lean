import Reckoner.Proofs.Formula.Dimension
import Reckoner.Proofs.Formula.Parser

/-!
# `Reckoner.Proofs.Formula.Mentions` — which symbols are missed

Unbound symbols are looked for before a formula is evaluated, in a list that was collected from its
tree. That list has to be read off the text, and it has to cover all that the evaluation looks up
later: the parser keeps every symbol once and in its place, and evaluation goes through without any
answer to an unbound symbol.

## Contents
- **Texts.** `Derives.mentions_eq`: a tree mentions the symbols of its tokens, in order.
- **Repeats.** Dropping them before and after a selection.
- **Trees.** `Expr.boundMeasure?`, evaluation without an answer to unbound symbols.
- **Formulas.** `Formula.evaluate_of_missing` and `missing_symbols_reported`.
-/

namespace Reckoner

open Formula (Derives Category tokenize parse derives_of_parse)

/-! ## Texts -/

/-- The name in a symbol. -/
def Token.name? : Token → Option String
  | .symbol name => some name
  | _ => none

/-- **Precedence moves no symbol.** A tree mentions the symbols of its tokens from left to right. -/
theorem Formula.Derives.mentions_eq {c : Category} {ts : List Token} {e : Expr} {d : Nat}
    (h : Derives c ts e d) : e.mentions = ts.filterMap Token.name? := by
  induction h with
  | number value => rfl
  | symbol name => rfl
  | parens _ ih =>
      rw [List.filterMap_cons_none rfl, List.filterMap_append, ih]
      exact (List.append_nil _).symm
  | ofAtom _ ih => exact ih
  | raise _ _ ihl ihr =>
      rw [Expr.mentions, List.filterMap_append, List.filterMap_cons_none rfl, ihl, ihr]
  | ofPower _ ih => exact ih
  | minus _ ih => exact ih
  | plus _ ih => exact ih
  | ofSigned _ ih => exact ih
  | scale _ sign _ ihl ihr =>
      rw [Expr.mentions, List.filterMap_append,
        List.filterMap_cons_none (by cases sign <;> rfl), ihl, ihr]
  | ofProduct _ ih => exact ih
  | combine _ sign _ ihl ihr =>
      rw [Expr.mentions, List.filterMap_append,
        List.filterMap_cons_none (by cases sign <;> rfl), ihl, ihr]

/-- What is compiled was parsed from the tokens of the text. -/
theorem Formula.parse_of_compile {source : String} {f : Formula}
    (h : Formula.compile source = .ok f) :
    ∃ ts, tokenize source = .ok ts ∧ parse ts = .ok f.tree := by
  unfold Formula.compile at h
  split at h
  · exact absurd h (by simp)
  · obtain ⟨ts, hts, h⟩ := Formula.exists_of_bind_eq_ok h
    obtain ⟨tree, htree, h⟩ := Formula.exists_of_bind_eq_ok h
    obtain rfl := Except.ok.inj h
    exact ⟨ts, hts, htree⟩

/-! ## Repeats -/

/-- Selecting from a list and dropping its repeats can change places. -/
theorem filter_eraseDups (p : String → Bool) (names : List String) :
    names.eraseDups.filter p = (names.filter p).eraseDups := by
  -- on the length: the repeats of the first name are gone before the rest is looked at
  induction hn : names.length using Nat.strongRecOn generalizing names with
  | ind n ih =>
  cases names with
  | nil => rfl
  | cons name names =>
      have hshorter : (names.filter fun other => !other == name).length < n := by
        rw [← hn]
        exact Nat.lt_succ_of_le (List.length_filter_le _ _)
      rw [List.eraseDups_cons, List.filter_cons, List.filter_cons, ih _ hshorter _ rfl,
        List.filter_filter]
      by_cases hname : p name = true
      · rw [if_pos hname, if_pos hname, List.eraseDups_cons, List.filter_filter]
        simp only [Bool.and_comm]
      · rw [if_neg hname, if_neg hname]
        -- a name that is selected is another one
        congr 1
        apply List.filter_congr
        intro other _
        by_cases hother : other = name
        · simpa [hother] using hname
        · simp [hother]

/-! ## Trees -/

/-- The measure of a tree, and nothing as soon as a symbol is looked up that is not bound. -/
def Expr.boundMeasure? (b : Bindings) : Expr → Option Measure
  | .number value => some ⟨value, .dimensionless, []⟩
  | .symbol name => (b.find? name).map fun binding => ⟨binding.value, binding.unit, []⟩
  | .neg operand => do
    let m ← operand.boundMeasure? b
    return ⟨-m.value, m.unit, m.remarks⟩
  | .binary op left right => do
    let l ← left.boundMeasure? b
    let r ← right.boundMeasure? b
    let (unit, remarks) := op.unit l.unit r.unit r.value
    return ⟨op.apply l.value r.value, unit, l.remarks ++ r.remarks ++ remarks⟩

/-- **No answer is needed to unbound symbols** where all mentions are bound. -/
theorem Expr.boundMeasure?_eq {b : Bindings} {e : Expr}
    (h : ∀ name ∈ e.mentions, b.contains name = true) :
    e.boundMeasure? b = some (e.measure b) := by
  induction e with
  | number value => rfl
  | symbol name =>
      obtain ⟨binding, hbinding⟩ := Option.isSome_iff_exists.mp (h name List.mem_cons_self)
      simp only [Expr.boundMeasure?, Expr.measure, hbinding, Option.map_some]
  | neg operand ih =>
      rw [Expr.boundMeasure?, ih h]
      rfl
  | binary op left right ihl ihr =>
      rw [Expr.mentions, List.forall_mem_append] at h
      rw [Expr.boundMeasure?, ihl h.1, ihr h.2]
      rfl

/-- Every symbol among the nodes of a tree is mentioned. -/
theorem Expr.mem_mentions_of_mem_nodes {e : Expr} {name : String} (h : .symbol name ∈ e.nodes) :
    name ∈ e.mentions := by
  induction e with
  | number value => simp [Expr.nodes] at h
  | symbol other => simpa [Expr.nodes, Expr.mentions] using h
  | neg operand ih =>
      rw [Expr.nodes, List.mem_cons] at h
      rcases h with h | h
      · exact absurd h (by simp)
      · exact ih h
  | binary op left right ihl ihr =>
      rw [Expr.nodes, List.mem_cons, List.mem_append] at h
      rcases h with h | h | h
      · exact absurd h (by simp)
      · exact List.mem_append_left _ (ihl h)
      · exact List.mem_append_right _ (ihr h)

/-! ## Formulas -/

/-- The mentions of a formula that are not bound, from left to right. -/
def Formula.missing (f : Formula) (b : Bindings) : List String :=
  f.tree.mentions.filter fun name => !b.contains name

theorem Formula.missing_eq_nil_iff {f : Formula} {b : Bindings} :
    f.missing b = [] ↔ ∀ name ∈ f.tree.mentions, b.contains name = true := by
  simp [Formula.missing, List.filter_eq_nil_iff]

/-- The unbound symbols that evaluation looks for. -/
theorem Formula.filter_symbols (f : Formula) (b : Bindings) :
    (f.symbols.filter fun name => !b.contains name) = (f.missing b).eraseDups := by
  rw [Formula.symbols, Expr.symbols_eq_eraseDups, filter_eraseDups, Formula.missing]

/-- **An unbound mention** is the error, and all of them are the warnings. -/
theorem Formula.evaluate_of_missing {f : Formula} {b : Bindings} {name : String}
    {names : List String} (h : f.missing b = name :: names) :
    f.evaluate b =
      .error ⟨.unknownSymbol name, (name :: names).eraseDups.map .missingVariable⟩ := by
  unfold Formula.evaluate
  rw [Formula.filter_symbols, h, List.eraseDups_cons]

/-- Without unbound mentions no symbol is reported. -/
theorem Formula.evaluate_ne_unknownSymbol {f : Formula} {b : Bindings} (h : f.missing b = [])
    (name : String) (warnings : List Diagnostic) :
    f.evaluate b ≠ .error ⟨.unknownSymbol name, warnings⟩ := by
  unfold Formula.evaluate
  rw [Formula.filter_symbols, h, List.eraseDups_nil]
  dsimp only
  split <;> simp

/-- **Missing symbols are reported completely and in the order of the text.** The symbols of a formula
    are those of its tokens without repeats. Evaluation fails with an unknown symbol exactly if one of
    them is not bound; it names the first such token, and warns of each unbound symbol once, in order
    of first appearance, and of nothing else. Otherwise all symbols of the tree are bound, and the
    evaluation goes through without any answer to unbound ones. -/
theorem missing_symbols_reported {source : String} {f : Formula}
    (h : Formula.compile source = .ok f) (b : Bindings) :
    ∃ ts, tokenize source = .ok ts ∧
      let names := ts.filterMap (·.token.name?)
      let missing := names.filter fun name => !b.contains name
      f.symbols = names.eraseDups ∧
      ((∃ name warnings, f.evaluate b = .error ⟨.unknownSymbol name, warnings⟩) ↔
        ∃ name ∈ names, b.contains name = false) ∧
      (∀ name warnings, f.evaluate b = .error ⟨.unknownSymbol name, warnings⟩ →
        missing.head? = some name ∧ warnings = missing.eraseDups.map .missingVariable) ∧
      ((∀ name ∈ names, b.contains name = true) →
        (∀ name, .symbol name ∈ f.tree.nodes → b.contains name = true) ∧
          f.tree.boundMeasure? b = some (f.tree.measure b)) := by
  obtain ⟨ts, hts, hparse⟩ := Formula.parse_of_compile h
  obtain ⟨d, hd⟩ := derives_of_parse hparse
  have hnames : ts.filterMap (·.token.name?) = f.tree.mentions := by
    rw [hd.mentions_eq, List.filterMap_map]
    rfl
  refine ⟨ts, hts, ?_⟩
  dsimp only
  rw [hnames]
  refine ⟨f.tree.symbols_eq_eraseDups, ⟨?_, ?_⟩, ?_, fun hbound => ⟨fun name hname => ?_, ?_⟩⟩
  · -- an evaluation without missing symbols may fail, but not with an unknown one
    rintro ⟨name, warnings, hfailure⟩
    by_contra hall
    push Not at hall
    have hnone : f.missing b = [] :=
      Formula.missing_eq_nil_iff.mpr fun name hname => by simpa using hall name hname
    exact Formula.evaluate_ne_unknownSymbol hnone name warnings hfailure
  · rintro ⟨name, hname, hunbound⟩
    have hmem : name ∈ f.missing b := List.mem_filter.mpr ⟨hname, by rw [hunbound]; rfl⟩
    obtain ⟨first, others, hmissing⟩ := List.exists_cons_of_ne_nil (List.ne_nil_of_mem hmem)
    exact ⟨first, _, Formula.evaluate_of_missing hmissing⟩
  · intro name warnings hfailure
    change (f.missing b).head? = some name ∧ warnings = (f.missing b).eraseDups.map .missingVariable
    cases hmissing : f.missing b with
    | nil => exact absurd hfailure (Formula.evaluate_ne_unknownSymbol hmissing name warnings)
    | cons first others =>
        rw [Formula.evaluate_of_missing hmissing] at hfailure
        simp only [Except.error.injEq, EvalFailure.mk.injEq, EvalError.unknownSymbol.injEq]
          at hfailure
        exact ⟨congrArg some hfailure.1, hfailure.2.symm⟩
  · exact hbound name (Expr.mem_mentions_of_mem_nodes hname)
  · exact Expr.boundMeasure?_eq hbound

/-- Of three symbols only the first is known. -/
def oneKnown : List Variable := [{ id := "a", symbol := "a", value := 2.0, unit := "m" }]

theorem oneKnown_missing_symbols :
    ∃ f, Formula.compile "z*a^(q-z)" = .ok f ∧ f.symbols = ["z", "a", "q"] ∧
      f.evaluate (.ofVariables oneKnown) =
        .error ⟨.unknownSymbol "z", [.missingVariable "z", .missingVariable "q"]⟩ := by
  obtain ⟨hcompile, htokens⟩ :
      (Formula.compile "z*a^(q-z)").toOption.map (·.symbols) = some ["z", "a", "q"] ∧
        (tokenize "z*a^(q-z)").toOption.map (·.filterMap (·.token.name?)) =
          some ["z", "a", "q", "z"] := by
    decide +kernel
  obtain ⟨f, hf, hsymbols⟩ := exists_ok_of_map hcompile
  obtain ⟨ts, hts, -, hfails, hnamed, -⟩ := missing_symbols_reported hf (.ofVariables oneKnown)
  have hnames : ts.filterMap (·.token.name?) = ["z", "a", "q", "z"] := by
    rw [hts] at htokens
    exact Option.some.inj htokens
  rw [hnames] at hfails hnamed
  obtain ⟨name, warnings, hfailure⟩ := hfails.mpr ⟨"q", by decide, rfl⟩
  obtain ⟨hname, hwarnings⟩ := hnamed name warnings hfailure
  have hmissing : (["z", "a", "q", "z"].filter fun name =>
      !(Bindings.ofVariables oneKnown).contains name) = ["z", "q", "z"] := rfl
  rw [hmissing] at hname hwarnings
  obtain rfl := Option.some.inj hname
  exact ⟨f, hf, hsymbols, by rw [hfailure, hwarnings]; rfl⟩

end Reckoner
