import Mathlib.Data.List.Forall2
import Reckoner.Proofs.Formula.Bindings
import Reckoner.Proofs.Session.Validity
import Reckoner.Proofs.Statistics.Counts
import Reckoner.Simulation.Basic

/-!
# `Reckoner.Proofs.Simulation` — iterations leave no traces

`Simulation.run` compiles once and draws into one set of bindings, iteration after iteration; values
that were drawn before stay in it until they are overwritten. The reference builds the bindings anew
from a redrawn copy of the table. On valid sessions the two agree, whatever the generator.

## Contents
- **The reference.** `redraw`, `redrawAll`, `freshEvaluations` and `Tally.ofEvaluations`.
- **Draws.** `standardNormal_of_le`: the bound on the attempts changes no value; what drawing into
  the bindings looks up, `drawAll_spec`.
- **Iterations.** `iterate_eq_foldl`: the bindings stay those of a redrawn table.
- **Tallies.** A fold of `Tally.add` written in one go; which unit and which remarks an answer has.
- **Agreement.** `run_eq_fresh`.
-/

namespace Reckoner.Simulation

open Bindings (Agree ofVariables)

variable {σ : Type}

/-! ## The reference -/

/-- A variable with a drawn value, if it has a distribution and bounds in order. Bounds that meet
    leave one value and use up no words. -/
def redraw (g : Generator σ) (options : Options) (v : Variable) (s : σ) : Variable × σ :=
  match v.distribution, v.range? with
  | some d, some (lower, upper) =>
    if lower == upper then ({ v with value := lower }, s)
    else
      let (x, s) := (Sampler.ofDistribution options.sigmaDivisor d lower upper).draw g s
      ({ v with value := x }, s)
  | _, _ => (v, s)

/-- A redrawn copy of a table, the generator going from variable to variable. -/
def redrawAll (g : Generator σ) (options : Options) : List Variable → σ → List Variable × σ
  | [], s => ([], s)
  | v :: vs, s =>
    let (v, s) := redraw g options v s
    let (vs, s) := redrawAll g options vs s
    (v :: vs, s)

theorem redrawAll_cons (g : Generator σ) (options : Options) (v : Variable) (vs : List Variable)
    (s : σ) :
    redrawAll g options (v :: vs) s =
      ((redraw g options v s).1 :: (redrawAll g options vs (redraw g options v s).2).1,
        (redrawAll g options vs (redraw g options v s).2).2) := rfl

/-- The evaluations of redrawn copies of a session. -/
def freshEvaluations (g : Generator σ) (options : Options) (session : Session) :
    Nat → σ → List Evaluation
  | 0, _ => []
  | n + 1, s =>
    let (table, s) := redrawAll g options session.table s
    { session with table := table }.evaluate :: freshEvaluations g options session n s

/-- The error of an evaluation that has no value. -/
def failure? (e : Evaluation) : Option String := if e.value.isNone then e.error else none

/-- What a list of evaluations shows. -/
def Tally.ofEvaluations (es : List Evaluation) : Tally where
  values := (es.filterMap (·.value)).toArray
  warnings := (es.flatMap (·.warnings)).eraseDups
  unit := (es.find? (·.value.isSome)).map (·.unit)
  firstError := es.findSome? failure?
  failures := es.countP (·.value.isNone)

/-- The simulation without any reuse. -/
def fresh (g : Generator σ) (options : Options) (session : Session) (s : σ) : Tally :=
  .ofEvaluations (freshEvaluations g options session session.simulation.iterationCount s)

/-! ## Draws -/

variable {g : Generator σ} {options : Options}

/-- More attempts change no distance. -/
theorem tailDistance_of_le {g : Generator σ} {n m : Nat} {x y : Float} {s : σ} {r : Float × σ}
    (h : tailDistance g n x y s = some r) (hle : n ≤ m) : tailDistance g m x y s = some r := by
  induction n generalizing m x y s with
  | zero => exact absurd h nofun
  | succ n ih =>
      obtain ⟨m, rfl⟩ := Nat.exists_eq_succ_of_ne_zero (Nat.ne_zero_of_lt hle)
      rw [tailDistance] at h ⊢
      split
      · rename_i hrejected
        rw [if_pos hrejected] at h
        exact ih h (Nat.le_of_succ_le_succ hle)
      · rename_i haccepted
        rwa [if_neg haccepted] at h

/-- **More attempts change no value.** -/
theorem standardNormal_of_le {g : Generator σ} {n m : Nat} {s : σ} {r : Float × σ}
    (h : standardNormal g n s = some r) (hle : n ≤ m) : standardNormal g m s = some r := by
  induction n generalizing m s with
  | zero => exact absurd h nofun
  | succ n ih =>
      obtain ⟨m, rfl⟩ := Nat.exists_eq_succ_of_ne_zero (Nat.ne_zero_of_lt hle)
      rw [standardNormal] at h ⊢
      dsimp only at h ⊢
      split
      · rename_i hinside
        rwa [if_pos hinside] at h
      · rename_i houtside
        rw [if_neg houtside] at h
        split
        · rename_i hbottom
          rw [if_pos hbottom, tailValue, Option.map_eq_some_iff] at h
          obtain ⟨distance, hdistance, hvalue⟩ := h
          rw [tailValue, tailDistance_of_le hdistance hle, Option.map_some, hvalue]
        · rename_i hlayer
          rw [if_neg hlayer] at h
          split
          · rename_i hunder
            rwa [if_pos hunder] at h
          · rename_i hover
            rw [if_neg hover] at h
            exact ih h (Nat.le_of_succ_le_succ hle)

/-- A copy of a variable in which at most the value differs, and only if the variable is sampled. -/
def Redrawn (v w : Variable) : Prop :=
  w = { v with value := w.value } ∧ (v.isSampled = false → w = v)

theorem Redrawn.refl (v : Variable) : Redrawn v v := ⟨rfl, fun _ => rfl⟩

/-- The variables with a sampler are the sampled ones. -/
theorem isSampled_eq_isSome (options : Options) (v : Variable) :
    v.isSampled = (Sampler.ofVariable? options.sigmaDivisor v).isSome := by
  unfold Variable.isSampled Sampler.ofVariable?
  cases v.distribution <;> cases v.range? <;> rfl

theorem redraw_of_none {v : Variable} (h : Sampler.ofVariable? options.sigmaDivisor v = none)
    (s : σ) : redraw g options v s = (v, s) := by
  unfold Sampler.ofVariable? at h
  unfold redraw
  cases hd : v.distribution <;> cases hr : v.range? <;> simp [hd, hr] at h ⊢

theorem redraw_of_some {v : Variable} {sampler : Sampler}
    (h : Sampler.ofVariable? options.sigmaDivisor v = some sampler) (s : σ) :
    redraw g options v s = ({ v with value := (sampler.draw g s).1 }, (sampler.draw g s).2) := by
  obtain ⟨d, hd, hbounds⟩ := Option.bind_eq_some_iff.mp h
  obtain ⟨⟨lower, upper⟩, hr, hsampler⟩ := Option.bind_eq_some_iff.mp hbounds
  obtain rfl := Option.some.inj hsampler
  simp only [redraw, hd, hr]
  split <;> rfl

theorem redrawn_redraw (v : Variable) (s : σ) : Redrawn v (redraw g options v s).1 := by
  cases h : Sampler.ofVariable? options.sigmaDivisor v with
  | none =>
      rw [redraw_of_none h]
      exact .refl v
  | some sampler =>
      rw [redraw_of_some h]
      refine ⟨rfl, fun hv => ?_⟩
      rw [isSampled_eq_isSome options, h] at hv
      exact absurd hv (by simp)

/-- A redrawn table differs in the values of sampled variables only. -/
theorem forall₂_redrawAll (table : List Variable) (s : σ) :
    List.Forall₂ Redrawn table (redrawAll g options table s).1 := by
  induction table generalizing s with
  | nil => exact .nil
  | cons v vs ih => exact .cons (redrawn_redraw v s) (ih _)

theorem samplers_cons_of_none {v : Variable}
    (h : Sampler.ofVariable? options.sigmaDivisor v = none) (vs : List Variable) :
    samplers options (v :: vs) = samplers options vs := by
  simp [samplers, h]

theorem samplers_cons_of_some {v : Variable} {sampler : Sampler}
    (h : Sampler.ofVariable? options.sigmaDivisor v = some sampler) (vs : List Variable) :
    samplers options (v :: vs) = (v, sampler) :: samplers options vs := by
  simp [samplers, h]

/-- Overwriting a value in bindings that look up a table with an older value of it. -/
theorem agree_assign_redrawn {settled behind : List Variable} {v w : Variable} (hvw : Redrawn v w)
    (hnew : ∀ u ∈ settled, u.id ≠ v.id) {b : Bindings}
    (hb : Agree b (ofVariables (settled ++ w :: behind))) (x : Float) :
    Agree (b.assign v x) (ofVariables (settled ++ { v with value := x } :: behind)) := by
  have hid : w.id = v.id := by rw [hvw.1]
  have hvalue : { w with value := x } = { v with value := x } := by rw [hvw.1]
  have hassign (c : Bindings) : c.assign w x = c.assign v x := by
    rw [hvw.1]
    rfl
  rw [← hvalue, ← hassign]
  exact (hb.assign w x).trans
    (Bindings.agree_assign_append (fun u hu => hid ▸ hnew u hu) x)

/-- **One iteration's draws.** Bindings that look up a redrawn table, its first part settled and the
    rest left from before, look up the newly redrawn table after the draws. -/
theorem drawAll_spec {todo stale : List Variable} (hstale : List.Forall₂ Redrawn todo stale)
    (settled : List Variable) (hids : ((settled ++ todo).map Variable.id).Nodup) (b : Bindings)
    (hb : Agree b (ofVariables (settled ++ stale))) (s : σ) :
    Agree (drawAll g (samplers options todo) b s).1
        (ofVariables (settled ++ (redrawAll g options todo s).1)) ∧
      (drawAll g (samplers options todo) b s).2 = (redrawAll g options todo s).2 := by
  induction hstale generalizing settled b s with
  | nil => exact ⟨hb, rfl⟩
  | @cons v w vs ws hvw _ ih =>
      cases h : Sampler.ofVariable? options.sigmaDivisor v with
      | none =>
          -- the variable is passed over, and its copy never differed from it
          obtain rfl : w = v := hvw.2 (by rw [isSampled_eq_isSome options, h]; rfl)
          rw [List.append_cons] at hids hb
          rw [samplers_cons_of_none h, redrawAll_cons, redraw_of_none h, List.append_cons]
          exact ih _ hids b hb s
      | some sampler =>
          have hnew : ∀ u ∈ settled, u.id ≠ v.id := by
            rw [List.map_append, List.nodup_append] at hids
            exact fun u hu => hids.2.2 u.id (List.mem_map_of_mem hu) v.id List.mem_cons_self
          have hassign := agree_assign_redrawn hvw hnew hb (sampler.draw g s).1
          have hids' : ((settled ++ [{ v with value := (sampler.draw g s).1 }] ++ vs).map
              Variable.id).Nodup := by
            simpa using hids
          rw [List.append_cons] at hassign
          rw [samplers_cons_of_some h, redrawAll_cons, redraw_of_some h, List.append_cons]
          exact ih _ hids' _ hassign _

/-! ## Iterations -/

theorem iterate_succ (f : Formula) (expected : Option String) (sampled : List (Variable × Sampler))
    (n : Nat) (b : Bindings) (t : Tally) (s : σ) :
    iterate g f expected sampled (n + 1) b t s =
      iterate g f expected sampled n (drawAll g sampled b s).1
        (t.add (f.answer (drawAll g sampled b s).1 expected)) (drawAll g sampled b s).2 := rfl

/-- The evaluation of a redrawn copy is that of the compiled formula. -/
theorem evaluate_table {session : Session} {f : Formula}
    (hf : Formula.compile session.formula = .ok f) (table : List Variable) :
    { session with table := table }.evaluate =
      f.answer (ofVariables table) session.expectation? :=
  evaluate_of_ok hf table session.expectation?

/-- **All iterations.** Bindings that look up some redrawn table do so after every iteration, and
    each iteration is evaluated with its own draws. -/
theorem iterate_eq_foldl {session : Session} {f : Formula}
    (hf : Formula.compile session.formula = .ok f) (hids : (session.table.map (·.id)).Nodup)
    {stale : List Variable} (hstale : List.Forall₂ Redrawn session.table stale) (n : Nat)
    (b : Bindings) (hb : Agree b (ofVariables stale)) (t : Tally) (s : σ) :
    iterate g f session.expectation? (samplers options session.table) n b t s =
      (freshEvaluations g options session n s).foldl Tally.add t := by
  induction n generalizing stale b t s with
  | zero => rfl
  | succ n ih =>
      obtain ⟨hdrawn, hstate⟩ := drawAll_spec hstale [] hids b hb s
      rw [iterate_succ, freshEvaluations, List.foldl_cons, evaluate_table hf, hstate,
        f.answer_congr hdrawn]
      -- the next round starts from a redrawn table again; which one does not matter
      exact ih (forall₂_redrawAll session.table s) _ hdrawn _ _

/-! ## Tallies -/

/-- Adding evaluations one by one. -/
theorem foldl_add (es : List Evaluation) (t : Tally) :
    es.foldl Tally.add t =
      { values := t.values ++ (es.filterMap (·.value)).toArray
        warnings := Diagnostic.merge t.warnings (es.flatMap (·.warnings))
        unit := t.unit.or ((es.find? (·.value.isSome)).map (·.unit))
        firstError := t.firstError.or (es.findSome? failure?)
        failures := t.failures + es.countP (·.value.isNone) } := by
  induction es generalizing t with
  | nil => simp
  | cons e es ih =>
      have hmerge : Diagnostic.merge (Diagnostic.merge t.warnings e.warnings)
          (es.flatMap (·.warnings)) =
            Diagnostic.merge t.warnings ((e :: es).flatMap (·.warnings)) := by
        simp [Diagnostic.merge]
      rw [List.foldl_cons, ih]
      cases hvalue : e.value with
      | some value =>
          have hnone : failure? e = none := by simp [failure?, hvalue]
          simp only [Tally.add, hvalue, hmerge, List.findSome?_cons, hnone]
          cases t.unit <;> simp [hvalue]
      | none =>
          have herror : failure? e = e.error := by simp [failure?, hvalue]
          have hcount : t.failures + 1 + es.countP (·.value.isNone) =
              t.failures + (e :: es).countP (·.value.isNone) := by
            rw [List.countP_cons_of_pos (by simp [hvalue])]
            omega
          simp only [Tally.add, hvalue, hmerge, List.findSome?_cons, herror, hcount]
          cases t.firstError <;> cases e.error <;> simp [hvalue]

theorem foldl_add_empty (es : List Evaluation) : es.foldl Tally.add {} = .ofEvaluations es := by
  rw [foldl_add, ← Diagnostic.distinct, Diagnostic.distinct_eq_eraseDups]
  simp [Tally.ofEvaluations]

/-- The remarks of an answer: those of the iterations, then the one on failures. -/
theorem Tally.warnings_outcome (t : Tally) (iterations bins : Nat) :
    (t.outcome iterations bins).warnings =
      Diagnostic.merge t.warnings (failureRemark t.failures iterations) := by
  unfold Tally.outcome
  dsimp only
  split <;> rfl

/-- Without a value there is no unit. -/
theorem unit_ofEvaluations {es : List Evaluation} (h : es.filterMap (·.value) = []) :
    (Tally.ofEvaluations es).unit = none := by
  have hnone : es.find? (·.value.isSome) = none := by
    rw [List.find?_eq_none]
    intro e he
    rw [List.filterMap_eq_nil_iff.mp h e he]
    exact Bool.false_ne_true
  rw [Tally.ofEvaluations, hnone]
  rfl

/-- The unit of an answer is that of the first success, if there is one. -/
theorem unit_outcome (es : List Evaluation) (iterations bins : Nat) :
    ((Tally.ofEvaluations es).outcome iterations bins).statistics.unit =
      (Tally.ofEvaluations es).unit := by
  have hvalues : (Tally.ofEvaluations es).values.toList = es.filterMap (·.value) := rfl
  unfold Tally.outcome
  dsimp only
  rw [hvalues]
  by_cases h : es.filterMap (·.value) = []
  · rw [h, Statistics.ofSamples_nil, unit_ofEvaluations h]
    rfl
  · obtain ⟨summary, hsummary⟩ := Statistics.exists_summary h
    rw [hsummary]

/-! ## Formulas that do not compile -/

/-- A formula that does not compile fails alike in every copy of the session. -/
theorem freshEvaluations_of_error {session : Session} {e : FormulaError}
    (he : Formula.compile session.formula = .error e) (n : Nat) (s : σ) :
    freshEvaluations g options session n s =
      List.replicate n (.failure e.message e.diagnostics) := by
  induction n generalizing s with
  | zero => rfl
  | succ n ih =>
      have heval (table : List Variable) : { session with table := table }.evaluate =
          .failure e.message e.diagnostics := evaluate_of_error he table session.expectation?
      rw [List.replicate_succ, ← ih (redrawAll g options session.table s).2, ← heval]
      rfl

theorem eraseDups_diagnostics (e : FormulaError) :
    e.diagnostics.eraseDups = e.diagnostics := by
  cases e <;> rfl

/-- What equal evaluations without a value show. -/
theorem ofEvaluations_replicate {n : Nat} (hn : 0 < n) (error : String)
    (warnings : List Diagnostic) :
    Tally.ofEvaluations (List.replicate n (.failure error warnings)) =
      ⟨#[], warnings.eraseDups, none, some error, n⟩ := by
  obtain ⟨n, rfl⟩ := Nat.exists_eq_succ_of_ne_zero (Nat.ne_of_gt hn)
  have hagain : (List.replicate n (Evaluation.failure error warnings)).flatMap (·.warnings) ⊆
      Diagnostic.distinct warnings := by
    intro d hd
    obtain ⟨e, he, hde⟩ := List.mem_flatMap.mp hd
    obtain rfl := List.eq_of_mem_replicate he
    exact Diagnostic.mem_merge.mpr (.inr hde)
  have hwarnings : ((List.replicate (n + 1) (Evaluation.failure error warnings)).flatMap
      (·.warnings)).eraseDups = warnings.eraseDups := by
    rw [← Diagnostic.distinct_eq_eraseDups, List.replicate_succ, List.flatMap_cons,
      Diagnostic.distinct_append]
    exact (Diagnostic.merge_of_subset hagain).trans (Diagnostic.distinct_eq_eraseDups _)
  rw [Tally.ofEvaluations, hwarnings]
  simp [Evaluation.failure, failure?, List.countP_replicate]

theorem iterationCount_pos (p : SimulationPlan) : 0 < p.iterationCount :=
  Nat.lt_of_lt_of_le (by decide) (Nat.le_max_left 100 _)

/-- A session whose formula does not compile has the error's diagnostics and no values. -/
theorem fresh_of_error {session : Session} {e : FormulaError}
    (he : Formula.compile session.formula = .error e) (s : σ) :
    fresh g options session s =
      ⟨#[], e.diagnostics, none, some e.message, session.simulation.iterationCount⟩ := by
  rw [fresh, freshEvaluations_of_error he, ofEvaluations_replicate (iterationCount_pos _),
    eraseDups_diagnostics]

/-! ## Agreement -/

/-- The iterations of a valid session are tallied as fresh ones are. -/
theorem tally_eq_fresh (g : Generator σ) (options : Options) {session : Session}
    (hvalid : session.violation? = none) {f : Formula}
    (hf : Formula.compile session.formula = .ok f) (s : σ) :
    tally g options session f s = fresh g options session s := by
  have hstart : List.Forall₂ Redrawn session.table session.table :=
    List.forall₂_same.mpr fun v _ => .refl v
  rw [tally, iterate_eq_foldl hf (Session.nodup_ids hvalid) hstart _ _ (.refl _),
    foldl_add_empty]
  rfl

/-- **A simulation is what evaluating redrawn copies of the session gives**: for every valid
    session, every generator and all options. The values, the failures, the unit and the remarks are
    those of the copies, and the answer has that unit and those remarks, with the one on failures
    behind them. The copies differ from the session in the values of sampled variables only. A
    formula that does not compile is answered at once, with the diagnostics that the copies would
    give. -/
theorem run_eq_fresh (g : Generator σ) (options : Options) {session : Session}
    (hvalid : session.violation? = none) (s : σ) :
    (∀ f, Formula.compile session.formula = .ok f →
      tally g options session f s = fresh g options session s ∧
      run g options session s =
        (fresh g options session s).outcome session.simulation.iterationCount
          options.histogramBins ∧
      (run g options session s).statistics.unit = (fresh g options session s).unit ∧
      (run g options session s).warnings =
        Diagnostic.merge (fresh g options session s).warnings
          (failureRemark (fresh g options session s).failures
            session.simulation.iterationCount)) ∧
    (∀ e, Formula.compile session.formula = .error e →
      run g options session s = .failure e.message e.diagnostics ∧
      fresh g options session s =
        ⟨#[], e.diagnostics, none, some e.message, session.simulation.iterationCount⟩) ∧
    ∀ s, List.Forall₂ Redrawn session.table (redrawAll g options session.table s).1 := by
  refine ⟨fun f hf => ?_, fun e he => ?_, forall₂_redrawAll session.table⟩
  · have htally := tally_eq_fresh g options hvalid hf s
    have hrun : run g options session s = (fresh g options session s).outcome
        session.simulation.iterationCount options.histogramBins := by
      rw [run, hf, ← htally]
    refine ⟨htally, hrun, ?_, ?_⟩
    · rw [hrun]
      exact unit_outcome _ _ _
    · rw [hrun, Tally.warnings_outcome]
  · refine ⟨?_, fresh_of_error he s⟩
    rw [run, he]

/-- Two variables that are drawn, the second of them shadowed, and one that is kept. -/
def mixed : Session where
  table := [
    { id := "a", symbol := "x", value := 1.5, min := some 1.0, max := some 2.0,
      distribution := some .uniform },
    { id := "b", symbol := " x ", value := 7.0, min := some 6.0, max := some 9.0,
      distribution := some .normal },
    { id := "c", symbol := "k", value := 3.0 }]
  formula := "x * k"

theorem tally_mixed_eq_fresh :
    mixed.violation? = none ∧ ∃ f, Formula.compile mixed.formula = .ok f ∧
      tally xoshiro {} mixed f (.ofSeed 1) = fresh xoshiro {} mixed (.ofSeed 1) := by
  have hvalid : mixed.violation? = none := by rfl
  have hcompiles : (Formula.compile mixed.formula).toBool = true := by decide +kernel
  refine ⟨hvalid, ?_⟩
  cases hf : Formula.compile mixed.formula with
  | error e =>
      rw [hf] at hcompiles
      exact absurd hcompiles Bool.false_ne_true
  | ok f => exact ⟨f, rfl, ((run_eq_fresh xoshiro {} hvalid (.ofSeed 1)).1 f hf).1⟩

end Reckoner.Simulation
