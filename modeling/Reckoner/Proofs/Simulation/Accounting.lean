import Reckoner.Proofs.Decimal.Digits
import Reckoner.Proofs.Formula.Remarks
import Reckoner.Proofs.Simulation
import Reckoner.Proofs.Statistics.Counts

/-!
# `Reckoner.Proofs.Simulation.Accounting` — every iteration is accounted for

An iteration of a simulation succeeds or fails. What the answer says of all of them is settled by
how many fail: the histogram counts the others, the statistics are there if there are others, and
one remark gives the number of failures, which no remark on a formula can be taken for.

## Contents
- **The remark on failures.** `failureMessage`, from which both of its numbers are read off.
- **Iterations.** `stages`: the bindings of every iteration; the tally of their answers.
- **Answers.** `Tally.outcome` of evaluations.
- **Accounting.** `every_iteration_accounted`.
-/

namespace Reckoner

/-- The evaluation of a formula fails. -/
def Formula.fails (f : Formula) (b : Bindings) : Bool :=
  match f.evaluate b with
  | .ok _ => false
  | .error _ => true

theorem Formula.fails_iff {f : Formula} {b : Bindings} :
    f.fails b = true ↔ ∃ failure, f.evaluate b = .error failure := by
  unfold Formula.fails
  cases f.evaluate b with
  | ok m => exact ⟨fun h => absurd h Bool.false_ne_true, fun ⟨_, h⟩ => by cases h⟩
  | error failure => exact ⟨fun _ => ⟨failure, rfl⟩, fun _ => rfl⟩

theorem Formula.fails_eq_false_iff {f : Formula} {b : Bindings} :
    f.fails b = false ↔ ∃ m, f.evaluate b = .ok m := by
  unfold Formula.fails
  cases f.evaluate b with
  | ok m => exact ⟨fun _ => ⟨m, rfl⟩, fun _ => rfl⟩
  | error failure => exact ⟨fun h => absurd h.symm Bool.false_ne_true, fun ⟨_, h⟩ => by cases h⟩

theorem Formula.isNone_answer (f : Formula) (b : Bindings) (expected : Option String) :
    (f.answer b expected).value.isNone = f.fails b := by
  unfold Formula.answer Formula.fails
  cases f.evaluate b <;> rfl

namespace Simulation

/-! ## The remark on failures -/

/-- So many of so many iterations failed. -/
def failureMessage (failures iterations : Nat) : String :=
  toString failures ++ " of " ++ toString iterations ++ " iterations failed to evaluate"

theorem failureRemark_zero (iterations : Nat) : failureRemark 0 iterations = [] := rfl

theorem failureRemark_of_pos {failures : Nat} (h : 0 < failures) (iterations : Nat) :
    failureRemark failures iterations = [.invalidFormula (failureMessage failures iterations)] := by
  have hne : (failures == 0) = false := by simpa using Nat.ne_of_gt h
  rw [failureRemark, hne]
  rfl

/-- The characters of the message: two numbers in front of words. -/
theorem toList_failureMessage (failures iterations : Nat) :
    (failureMessage failures iterations).toList =
      Decimal.digitsOf failures ++ (" of ".toList ++
        (Decimal.digitsOf iterations ++ " iterations failed to evaluate".toList)) := by
  show (failures.repr ++ " of " ++ iterations.repr ++ " iterations failed to evaluate").toList = _
  simp only [String.toList_append, Nat.toList_repr, List.append_assoc, Decimal.digitsOf]

theorem beginsWithDigit_failureMessage (failures iterations : Nat) :
    beginsWithDigit (failureMessage failures iterations) = true := by
  rw [beginsWithDigit, toList_failureMessage]
  cases hdigits : Decimal.digitsOf failures with
  | nil => exact absurd hdigits (Decimal.digitsOf_ne_nil failures)
  | cons d ds =>
      have hd : d ∈ Decimal.digitsOf failures := by
        rw [hdigits]
        exact List.mem_cons_self
      exact Decimal.isDigit_of_mem_digitsOf hd

/-- A number in front of a space is read off, and what follows it too. -/
theorem digitsOf_append_inj {a c : Nat} {as cs : List Char}
    (h : Decimal.digitsOf a ++ ' ' :: as = Decimal.digitsOf c ++ ' ' :: cs) : a = c ∧ as = cs := by
  have hboundary (rest : List Char) : ∀ d ∈ (' ' :: rest).head?, d.isDigit = false := by
    intro d hd
    obtain rfl := Option.some.inj hd
    decide
  have hfront (n : Nat) (rest : List Char) :
      (Decimal.digitsOf n ++ ' ' :: rest).takeWhile Char.isDigit = Decimal.digitsOf n :=
    Decimal.takeWhile_of_boundary (fun _ => Decimal.isDigit_of_mem_digitsOf) (hboundary rest)
  have hdigits : Decimal.digitsOf a = Decimal.digitsOf c := by
    rw [← hfront a as, h, hfront]
  refine ⟨?_, ?_⟩
  · rw [← Decimal.natOfDigits_digitsOf a, hdigits, Decimal.natOfDigits_digitsOf]
  · rw [hdigits] at h
    exact (List.cons.inj (List.append_cancel_left h)).2

/-- **Both numbers are read off the message.** -/
theorem failureMessage_inj {k n k' n' : Nat} :
    failureMessage k n = failureMessage k' n' ↔ k = k' ∧ n = n' := by
  constructor
  · intro h
    have hchars := congrArg String.toList h
    rw [toList_failureMessage, toList_failureMessage] at hchars
    obtain ⟨hk, hrest⟩ := digitsOf_append_inj hchars
    -- behind the first number stands the word "of" with a space
    have hbehind := List.append_cancel_left
      (show ['o', 'f', ' '] ++ _ = ['o', 'f', ' '] ++ _ from hrest)
    exact ⟨hk, (digitsOf_append_inj hbehind).1⟩
  · rintro ⟨rfl, rfl⟩
    rfl

/-! ## Iterations -/

variable {σ : Type}

/-- The bindings that each of some iterations evaluates with. -/
def drawings (g : Generator σ) (sampled : List (Variable × Sampler)) :
    Nat → Bindings → σ → List Bindings
  | 0, _, _ => []
  | n + 1, b, s =>
    let (b, s) := drawAll g sampled b s
    b :: drawings g sampled n b s

/-- The bindings of every iteration of a session's simulation. -/
def stages (g : Generator σ) (options : Options) (session : Session) (s : σ) : List Bindings :=
  drawings g (samplers options session.table) session.simulation.iterationCount
    (.ofVariables session.table) s

theorem length_drawings (g : Generator σ) (sampled : List (Variable × Sampler)) (n : Nat)
    (b : Bindings) (s : σ) : (drawings g sampled n b s).length = n := by
  induction n generalizing b s with
  | zero => rfl
  | succ n ih => exact congrArg (· + 1) (ih _ _)

theorem iterate_eq_drawings (g : Generator σ) (f : Formula) (expected : Option String)
    (sampled : List (Variable × Sampler)) (n : Nat) (b : Bindings) (t : Tally) (s : σ) :
    iterate g f expected sampled n b t s =
      ((drawings g sampled n b s).map fun b => f.answer b expected).foldl Tally.add t := by
  induction n generalizing b t s with
  | zero => rfl
  | succ n ih =>
      rw [iterate_succ, ih]
      rfl

/-- **The tally of a session** is that of the answers in every iteration, for every session, valid or
    not. -/
theorem tally_eq_stages (g : Generator σ) (options : Options) (session : Session) (f : Formula)
    (s : σ) :
    tally g options session f s =
      .ofEvaluations ((stages g options session s).map fun b =>
        f.answer b session.expectation?) := by
  rw [tally, iterate_eq_drawings, foldl_add_empty]
  rfl

/-! ## Answers -/

/-- All six statistics are there. -/
structure Statistic.IsComplete (t : Statistic) : Prop where
  mean : t.mean.isSome = true
  deviation : t.deviation.isSome = true
  p05 : t.p05.isSome = true
  p50 : t.p50.isSome = true
  p95 : t.p95.isSome = true
  unit : t.unit.isSome = true

theorem sampleCount_eq_total (o : Outcome) :
    o.sampleCount = Statistics.total (o.histogram.map (·.count)) := by
  rw [Outcome.sampleCount, Statistics.total, List.foldr_map]

/-- An evaluation succeeds or fails. -/
theorem length_filterMap_value (es : List Evaluation) :
    (es.filterMap (·.value)).length + es.countP (·.value.isNone) = es.length := by
  rw [List.length_filterMap_eq_countP, List.length_eq_countP_add_countP (·.value.isSome)]
  congr 1
  apply List.countP_congr
  intro e _
  cases e.value <;> simp

variable {es : List Evaluation} {iterations bins : Nat}

/-- The remarks of an answer are those of the evaluations and the one on failures. -/
theorem mem_warnings_outcome {d : Diagnostic} :
    d ∈ ((Tally.ofEvaluations es).outcome iterations bins).warnings ↔
      (∃ e ∈ es, d ∈ e.warnings) ∨ d ∈ failureRemark (es.countP (·.value.isNone)) iterations := by
  have hmem : d ∈ (Tally.ofEvaluations es).warnings ↔ ∃ e ∈ es, d ∈ e.warnings := by
    rw [Tally.ofEvaluations, List.mem_eraseDups, List.mem_flatMap]
  rw [Tally.warnings_outcome, Diagnostic.mem_merge, hmem]
  rfl

/-- **Some evaluation succeeds.** -/
theorem outcome_of_success (h : es.filterMap (·.value) ≠ []) :
    let o := (Tally.ofEvaluations es).outcome iterations bins
    o.error = none ∧ o.statistics.IsComplete ∧ o.histogram ≠ [] ∧
      o.sampleCount = (es.filterMap (·.value)).length := by
  obtain ⟨summary, hsummary⟩ := Statistics.exists_summary h
  have houtcome : (Tally.ofEvaluations es).outcome iterations bins =
      ⟨⟨some summary.mean, some summary.deviation, some summary.p05, some summary.p50,
        some summary.p95, (es.find? (·.value.isSome)).map (·.unit)⟩,
        Statistics.histogram (es.filterMap (·.value)) bins,
        Diagnostic.merge (es.flatMap (·.warnings)).eraseDups
          (failureRemark (es.countP (·.value.isNone)) iterations), none⟩ := by
    simp only [Tally.outcome, Tally.ofEvaluations, List.toList_toArray, hsummary]
  have hunit : ((es.find? (·.value.isSome)).map (·.unit)).isSome = true := by
    obtain ⟨value, hvalue⟩ := List.exists_mem_of_ne_nil _ h
    obtain ⟨e, he, hsome⟩ := List.mem_filterMap.mp hvalue
    rw [Option.isSome_map, List.find?_isSome]
    exact ⟨e, he, by rw [hsome]; rfl⟩
  intro o
  rw [show o = _ from houtcome]
  refine ⟨rfl, ⟨rfl, rfl, rfl, rfl, rfl, hunit⟩, Statistics.histogram_ne_nil h bins, ?_⟩
  rw [sampleCount_eq_total, Statistics.total_counts_histogram]

/-- **No evaluation succeeds.** -/
theorem outcome_of_no_success (h : es.filterMap (·.value) = []) :
    let o := (Tally.ofEvaluations es).outcome iterations bins
    o.error = some ("every iteration failed: " ++ (es.findSome? failure?).getD "no result") ∧
      o.statistics = {} ∧ o.histogram = [] := by
  have hnone : Statistics.Summary.ofSamples (Tally.ofEvaluations es).values.toList = none := by
    simp only [Tally.ofEvaluations, h]
    exact Statistics.ofSamples_nil
  intro o
  simp only [o, Tally.outcome, hnone]
  exact ⟨rfl, rfl, rfl⟩

/-! ## Accounting -/

variable {g : Generator σ} {options : Options} {session : Session} {f : Formula} {s : σ}

theorem length_stages (g : Generator σ) (options : Options) (session : Session) (s : σ) :
    (stages g options session s).length = session.simulation.iterationCount :=
  length_drawings _ _ _ _ _

/-- The answer to a simulation, from the answers in every iteration. -/
theorem run_eq_outcome (hf : Formula.compile session.formula = .ok f) :
    run g options session s =
      (Tally.ofEvaluations ((stages g options session s).map fun b =>
        f.answer b session.expectation?)).outcome session.simulation.iterationCount
          options.histogramBins := by
  rw [run, hf, ← tally_eq_stages]

theorem countP_isNone_answers (f : Formula) (expected : Option String) (bs : List Bindings) :
    (bs.map fun b => f.answer b expected).countP (·.value.isNone) = bs.countP f.fails := by
  rw [List.countP_map]
  congr 1
  funext b
  exact f.isNone_answer b expected

/-- As many values as there are iterations that do not fail. -/
theorem length_values (f : Formula) (expected : Option String) (bs : List Bindings) :
    ((bs.map fun b => f.answer b expected).filterMap (·.value)).length =
      bs.length - bs.countP f.fails := by
  have hlength := length_filterMap_value (bs.map fun b => f.answer b expected)
  rw [countP_isNone_answers, List.length_map] at hlength
  omega

/-- When every iteration fails, the error of the first is the first error. -/
theorem findSome?_failure (expected : Option String) {bs : List Bindings} (hne : bs ≠ [])
    (hall : ∀ b ∈ bs, f.fails b = true) :
    ∃ b failure, bs.head? = some b ∧ f.evaluate b = .error failure ∧
      (bs.map fun b => f.answer b expected).findSome? failure? = some failure.error.message := by
  cases bs with
  | nil => exact absurd rfl hne
  | cons b bs =>
      obtain ⟨failure, hfailure⟩ := Formula.fails_iff.mp (hall b List.mem_cons_self)
      have hanswer : failure? (f.answer b expected) = some failure.error.message := by
        rw [Formula.answer, hfailure]
        rfl
      refine ⟨b, failure, rfl, hfailure, ?_⟩
      rw [List.map_cons, List.findSome?_cons, hanswer]

/-- **The remark on failures** is there with the right numbers and no others, and only if there are
    failures. -/
theorem mem_warnings_failureMessage {expected : Option String} {bs : List Bindings}
    {iterations bins i j : Nat} :
    .invalidFormula (failureMessage i j) ∈ ((Tally.ofEvaluations (bs.map fun b =>
        f.answer b expected)).outcome iterations bins).warnings ↔
      0 < bs.countP f.fails ∧ i = bs.countP f.fails ∧ j = iterations := by
  rw [mem_warnings_outcome, countP_isNone_answers]
  -- no answer contains such a remark, as it begins with a digit
  have hanswers : ¬∃ e ∈ bs.map fun b => f.answer b expected,
      .invalidFormula (failureMessage i j) ∈ e.warnings := by
    rintro ⟨e, he, hmem⟩
    obtain ⟨b, -, rfl⟩ := List.mem_map.mp he
    have hdigit := uncounted_answer f b expected _ hmem
    rw [beginsWithDigit_failureMessage] at hdigit
    exact Bool.false_ne_true hdigit.symm
  rw [or_iff_right hanswers]
  rcases Nat.eq_zero_or_pos (bs.countP f.fails) with hzero | hpos
  · rw [hzero, failureRemark_zero]
    exact ⟨fun h => absurd h List.not_mem_nil, fun h => absurd h.1 (Nat.lt_irrefl 0)⟩
  · rw [failureRemark_of_pos hpos, List.mem_singleton, Diagnostic.invalidFormula.injEq,
      failureMessage_inj]
    exact ⟨fun h => ⟨hpos, h⟩, And.right⟩

/-- **Every iteration is accounted for**, in any session, with any options and any generator. Let `k`
    of the `n` iterations fail. If there are others, there is no error, all statistics are there, and
    the histogram counts `n - k` values. If there are no others, the error is that of the first
    iteration, and there is neither a statistic nor a bin. The remark that `k` of `n` iterations
    failed is there exactly if some did. A formula that does not compile is answered with its error
    alone. -/
theorem every_iteration_accounted (g : Generator σ) (options : Options) (session : Session) (s : σ) :
    let outcome := run g options session s
    let n := session.simulation.iterationCount
    (stages g options session s).length = n ∧
      (∀ f, Formula.compile session.formula = .ok f →
        let k := (stages g options session s).countP f.fails
        (k < n → outcome.error = none ∧ outcome.statistics.IsComplete ∧ outcome.histogram ≠ [] ∧
          outcome.sampleCount = n - k) ∧
        (k = n → (∃ b failure, (stages g options session s).head? = some b ∧
            f.evaluate b = .error failure ∧
            outcome.error = some ("every iteration failed: " ++ failure.error.message)) ∧
          outcome.statistics = {} ∧ outcome.histogram = []) ∧
        ∀ i j, .invalidFormula (failureMessage i j) ∈ outcome.warnings ↔ 0 < k ∧ i = k ∧ j = n) ∧
      ∀ e, Formula.compile session.formula = .error e →
        outcome.error = some e.message ∧ outcome.statistics = {} ∧ outcome.histogram = [] ∧
          ∀ i j, .invalidFormula (failureMessage i j) ∉ outcome.warnings := by
  intro outcome n
  have hlength : (stages g options session s).length = n := length_stages g options session s
  refine ⟨hlength, ?_, ?_⟩
  · intro f hf k
    have houtcome : run g options session s = _ := run_eq_outcome hf
    have hvalues := length_values f session.expectation? (stages g options session s)
    rw [hlength] at hvalues
    rw [show outcome = _ from houtcome]
    refine ⟨?_, ?_, fun i j => mem_warnings_failureMessage⟩
    · intro hk
      have hsome := List.length_pos_iff.mp (show 0 < _ from hvalues ▸ Nat.sub_pos_of_lt hk)
      obtain ⟨herror, hstatistics, hhistogram, hcount⟩ := outcome_of_success hsome
      exact ⟨herror, hstatistics, hhistogram, hcount.trans hvalues⟩
    · intro hk
      have hnone := List.length_eq_zero_iff.mp
        (hvalues.trans (Nat.sub_eq_zero_of_le (Nat.le_of_eq hk.symm)))
      have hall := List.countP_eq_length.mp (hk.trans hlength.symm)
      have hne : stages g options session s ≠ [] := by
        intro hempty
        have hpos := iterationCount_pos session.simulation
        rw [hempty] at hlength
        exact absurd hlength (Nat.ne_of_lt hpos)
      obtain ⟨herror, hstatistics, hhistogram⟩ := outcome_of_no_success hnone
      obtain ⟨b, failure, hhead, hfailure, hfirst⟩ :=
        findSome?_failure session.expectation? hne hall
      rw [hfirst] at herror
      exact ⟨⟨b, failure, hhead, hfailure, herror⟩, hstatistics, hhistogram⟩
  · intro e he
    have houtcome : outcome = .failure e.message e.diagnostics := by
      show run g options session s = _
      rw [run, he]
    rw [houtcome]
    refine ⟨rfl, rfl, rfl, ?_⟩
    intro i j hmem
    have hdigit := uncounted_diagnostics e _ hmem
    rw [beginsWithDigit_failureMessage] at hdigit
    exact Bool.false_ne_true hdigit.symm

/-- A quotient whose divisor is drawn from 0 to 1. -/
def reciprocal : Session where
  table := [
    { id := "c", symbol := "c", value := 6.0, unit := "m" },
    { id := "t", symbol := "t", value := 1.0, unit := "s", min := some 0.0, max := some 1.0,
      distribution := some .uniform }]
  formula := "c / t"
  simulation := { iterations := 5 }

/-- Words that draw the lower end of a range and its middle by turns. -/
def turns : Cycle := ⟨[0, 0x8000000000000000], []⟩

/-- Every iteration divides by zero. -/
def hopeless : Session := { reciprocal with formula := "c / 0" }

/-- There is nothing to divide by. -/
def unfinished : Session := { reciprocal with formula := "c /" }

/-- Every other iteration of the quotient divides by zero. -/
theorem reciprocal_accounted :
    (∃ f, Formula.compile reciprocal.formula = .ok f ∧
      (stages cycle {} reciprocal turns).countP f.fails = 50 ∧
      (run cycle {} reciprocal turns).error = none ∧
      (run cycle {} reciprocal turns).statistics.IsComplete ∧
      (run cycle {} reciprocal turns).sampleCount = 50 ∧
      .invalidFormula (failureMessage 50 100) ∈ (run cycle {} reciprocal turns).warnings) ∧
    (∃ f e, Formula.compile hopeless.formula = .ok f ∧
      (stages cycle {} hopeless turns).countP f.fails = 100 ∧
      (run cycle {} hopeless turns).error = some ("every iteration failed: " ++ EvalError.message e) ∧
      (run cycle {} hopeless turns).histogram = [] ∧
      .invalidFormula (failureMessage 100 100) ∈ (run cycle {} hopeless turns).warnings) ∧
    ∃ e, Formula.compile unfinished.formula = .error e ∧
      (run cycle {} unfinished turns).error = some e.message ∧
      (run cycle {} unfinished turns).histogram = [] := by
  refine ⟨?_, ?_, ?_⟩
  · have hresult : (Formula.compile reciprocal.formula).toOption.map
        (fun f => (stages cycle {} reciprocal turns).countP f.fails) = some 50 := by
      decide +kernel
    have hn : reciprocal.simulation.iterationCount = 100 := by decide +kernel
    obtain ⟨-, haccounts, -⟩ := every_iteration_accounted cycle {} reciprocal turns
    obtain ⟨f, hf, hk⟩ := exists_ok_of_map hresult
    obtain ⟨hsome, -, hremark⟩ := haccounts f hf
    rw [hk, hn] at hsome hremark
    obtain ⟨herror, hcomplete, -, hcount⟩ := hsome (by decide)
    exact ⟨f, hf, hk, herror, hcomplete, hcount, (hremark 50 100).mpr ⟨by decide, rfl, rfl⟩⟩
  · have hresult : (Formula.compile hopeless.formula).toOption.map
        (fun f => (stages cycle {} hopeless turns).countP f.fails) = some 100 := by
      decide +kernel
    have hn : hopeless.simulation.iterationCount = 100 := by decide +kernel
    obtain ⟨-, haccounts, -⟩ := every_iteration_accounted cycle {} hopeless turns
    obtain ⟨f, hf, hk⟩ := exists_ok_of_map hresult
    obtain ⟨-, hnone, hremark⟩ := haccounts f hf
    rw [hk, hn] at hnone hremark
    obtain ⟨⟨b, failure, -, -, herror⟩, -, hhistogram⟩ := hnone rfl
    exact ⟨f, failure.error, hf, hk, herror, hhistogram,
      (hremark 100 100).mpr ⟨by decide, rfl, rfl⟩⟩
  · obtain ⟨-, -, hfailed⟩ := every_iteration_accounted cycle {} unfinished turns
    obtain ⟨e, he⟩ := exists_error_of_isNone
      (show (Formula.compile unfinished.formula).toOption.isNone = true by decide +kernel)
    obtain ⟨herror, -, hhistogram, -⟩ := hfailed e he
    exact ⟨e, he, herror, hhistogram⟩

end Simulation

end Reckoner
