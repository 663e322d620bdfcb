import Reckoner.Proofs.CompoundUnit.Comparison
import Reckoner.Proofs.Formula.Expectation
import Reckoner.Proofs.Formula.Influence
import Reckoner.Proofs.Simulation.Accounting
import Reckoner.Proofs.Sweep

/-!
# `Reckoner.Proofs.RunUnit` — the unit that a run reports

A sweep or a simulation reports the unit of its first success. All bindings of a run have the same
units, so that the others have this unit too, unless something with a unit is raised to an exponent
that is another one there. A length raised to a swept exponent has another unit at every position.

## Contents
- **Runs.** `Reassigned`: the bindings of a run, made by giving values to some variables.
- **Units.** Their units are the same, and so are exponents without those variables.
- **Successes.** `firstSuccess?`, and the unit reported for a run.
- **One unit.** `one_unit_unless_exponents_vary`, and `side_power_varies`, where they do.
-/

namespace Reckoner

open Bindings (SameUnits ofVariables)

/-! ## Runs -/

variable {table : List Variable} {names : List String} {b b' : Bindings} {v : Variable}

namespace Bindings

theorem find?_assign_of_ne {symbol : String} (h : v.key ≠ symbol) (b : Bindings) (x : Float) :
    (b.assign v x).find? symbol = b.find? symbol := by
  rw [find?_assign, if_neg fun hfound => h hfound.2.symm]

/-- The bindings of a table after some variables were given values, all with symbols among the given
    ones. -/
inductive Reassigned (table : List Variable) (names : List String) : Bindings → Prop
  | start : Reassigned table names (ofVariables table)
  | assign {b : Bindings} {v : Variable} (before : Reassigned table names b)
      (target : v.key ∈ names) (x : Float) : Reassigned table names (b.assign v x)

theorem Reassigned.labelled (h : Reassigned table names b) : Labelled table b := by
  induction h with
  | start => exact labelled_ofVariables table
  | assign _ _ x ih => exact ih.assign _ x

/-- The other symbols stand for what they stand for in the table. -/
theorem Reassigned.find?_eq (h : Reassigned table names b) {symbol : String}
    (hsymbol : symbol ∉ names) : b.find? symbol = (ofVariables table).find? symbol := by
  induction h with
  | start => rfl
  | @assign _ v _ target x ih =>
      -- the variable that is given a value carries another symbol
      have hne : v.key ≠ symbol := fun heq => hsymbol (heq ▸ target)
      rw [find?_assign_of_ne hne, ih]

end Bindings

open Bindings (Reassigned)

/-- The symbol that a sweep varies. -/
def Sweep.varied (s : Session) (id : Option String) : List String :=
  ((id <|> s.sweep.variableId).bind s.findVariable?).toList.map Variable.key

/-- The bindings at every position of a sweep. There are none if nothing can be swept. -/
def Sweep.stages (s : Session) (id : Option String) : List Bindings :=
  match (id <|> s.sweep.variableId).bind s.findVariable? with
  | none => []
  | some target =>
    match target.range? with
    | none => []
    | some (lower, upper) =>
      if (ofVariables s.table).owns target then
        (Sweep.positions lower upper s.sweep.pointCount).map ((ofVariables s.table).assign target)
      else []

/-- The symbols that a simulation varies. -/
def Simulation.varied (s : Session) : List String := (s.table.filter (·.isSampled)).map Variable.key

theorem Sweep.reassigned_stages {s : Session} {id : Option String} (h : b ∈ Sweep.stages s id) :
    Reassigned s.table (Sweep.varied s id) b := by
  unfold Sweep.stages at h
  unfold Sweep.varied
  cases htarget : (id <|> s.sweep.variableId).bind s.findVariable? with
  | none =>
      rw [htarget] at h
      exact absurd h List.not_mem_nil
  | some target =>
      simp only [htarget] at h
      split at h
      · exact absurd h List.not_mem_nil
      · split at h
        · obtain ⟨x, -, rfl⟩ := List.mem_map.mp h
          exact .assign .start List.mem_cons_self x
        · exact absurd h List.not_mem_nil

namespace Simulation

variable {σ : Type} {g : Generator σ} {options : Options}

theorem key_mem_varied {s : Session} {sampled : Variable × Sampler}
    (h : sampled ∈ samplers options s.table) : sampled.1.key ∈ Simulation.varied s := by
  obtain ⟨v, hv, hsampler⟩ := List.mem_filterMap.mp h
  obtain ⟨sampler, hsome, rfl⟩ := Option.map_eq_some_iff.mp hsampler
  have hsampled : v.isSampled = true := by rw [isSampled_eq_isSome options, hsome, Option.isSome_some]
  exact List.mem_map_of_mem (List.mem_filter.mpr ⟨hv, hsampled⟩)

/-- **One iteration** draws into the bindings of the one before it. -/
theorem reassigned_drawAll {sampled : List (Variable × Sampler)}
    (hsampled : ∀ p ∈ sampled, p.1.key ∈ names) (hb : Reassigned table names b) (s : σ) :
    Reassigned table names (drawAll g sampled b s).1 := by
  induction sampled generalizing b s with
  | nil => exact hb
  | cons p rest ih =>
      rw [List.forall_mem_cons] at hsampled
      exact ih hsampled.2 (.assign hb hsampled.1 _) _

/-- **All iterations.** -/
theorem reassigned_drawings {sampled : List (Variable × Sampler)}
    (hsampled : ∀ p ∈ sampled, p.1.key ∈ names) {n : Nat} {start : Bindings}
    (hstart : Reassigned table names start) {s : σ} (h : b ∈ drawings g sampled n start s) :
    Reassigned table names b := by
  induction n generalizing start s with
  | zero => exact absurd h List.not_mem_nil
  | succ n ih =>
      -- the draws of one iteration are the start of the next
      have hdrawn := reassigned_drawAll (g := g) hsampled hstart s
      rcases List.mem_cons.mp h with rfl | h
      · exact hdrawn
      · exact ih hdrawn h

theorem reassigned_stages {session : Session} {s : σ} (h : b ∈ stages g options session s) :
    Reassigned session.table (Simulation.varied session) b :=
  reassigned_drawings (fun _ => key_mem_varied) .start h

end Simulation

/-! ## Units -/

/-- Bindings with the labels of one table have the same units. -/
theorem Labelled.sameUnits (h : Labelled table b) (h' : Labelled table b') : SameUnits b b' :=
  fun symbol => (h symbol).trans (h' symbol).symm

/-- No exponent depends on the varied symbols. -/
def Expr.SteadyExponents (names : List String) (e : Expr) : Prop :=
  e.EveryPower fun _ exponent => ∀ name ∈ exponent.mentions, name ∉ names

/-- The base and the exponent of a power. -/
def Expr.power? : Expr → Option (Expr × Expr)
  | .binary .pow base exponent => some (base, exponent)
  | _ => none

theorem Expr.everyPower_iff {P : Expr → Expr → Prop} {e : Expr} :
    e.EveryPower P ↔ ∀ power ∈ e.nodes.filterMap Expr.power?, P power.1 power.2 := by
  constructor
  · intro h power hpower
    obtain ⟨node, hnode, hsome⟩ := List.mem_filterMap.mp hpower
    unfold Expr.power? at hsome
    split at hsome
    · obtain rfl := Option.some.inj hsome
      exact h _ _ hnode
    · exact absurd hsome.symm (Option.some_ne_none power)
  · intro h base exponent hnode
    exact h (base, exponent) (List.mem_filterMap.mpr ⟨_, hnode, rfl⟩)

instance (names : List String) (e : Expr) : Decidable (e.SteadyExponents names) :=
  decidable_of_iff _ Expr.everyPower_iff.symm

/-- Exponents that do not depend on what a run varies are the same throughout. -/
theorem Expr.SteadyExponents.sameExponents {e : Expr} (he : e.SteadyExponents names)
    (h : Reassigned table names b) (h' : Reassigned table names b') : e.SameExponents b b' := by
  refine he.imp fun base exponent hexponent => ?_
  right
  apply congrArg wholeExponent?
  apply measure_value_congr
  intro name hname
  rw [h.find?_eq (hexponent name hname), h'.find?_eq (hexponent name hname)]

/-- **Two successes of a run** with the same exponents have one unit. -/
theorem unit_eq_of_sameExponents {f : Formula} {m m' : Measure} (h : Reassigned table names b)
    (h' : Reassigned table names b') (hm : f.evaluate b = .ok m) (hm' : f.evaluate b' = .ok m')
    (hexponents : f.tree.SameExponents b b') : m'.unit = m.unit ∧ m'.unit.sameAs m.unit = true := by
  have hunit : m'.unit = m.unit := by
    rw [(Formula.evaluate_eq_ok hm).2, (Formula.evaluate_eq_ok hm').2]
    exact (measure_unit_congr (h.labelled.sameUnits h'.labelled) hexponents).symm
  have hnormal : m.unit.Normal := by
    rw [(Formula.evaluate_eq_ok hm).2]
    exact h.labelled.normal_measure f.tree
  refine ⟨hunit, ?_⟩
  rw [hunit]
  exact (CompoundUnit.sameAs_iff hnormal hnormal).mpr rfl

/-! ## Successes -/

/-- The first of some bindings with which a formula evaluates, and what it evaluates to. -/
def Formula.firstSuccess? (f : Formula) (bs : List Bindings) : Option (Bindings × Measure) :=
  bs.findSome? fun b => (f.evaluate b).toOption.map (b, ·)

variable {f : Formula} {bs : List Bindings} {m : Measure}

theorem Formula.firstSuccess?_eq_some {b₀ : Bindings} {m₀ : Measure}
    (h : f.firstSuccess? bs = some (b₀, m₀)) : b₀ ∈ bs ∧ f.evaluate b₀ = .ok m₀ := by
  obtain ⟨b, hb, hsome⟩ := List.exists_of_findSome?_eq_some h
  obtain ⟨m, hm, heq⟩ := exists_ok_of_map hsome
  obtain ⟨rfl, rfl⟩ := Prod.mk.inj heq
  exact ⟨hb, hm⟩

/-- Where something succeeds, something succeeds first. -/
theorem Formula.exists_firstSuccess (hb : b ∈ bs) (hm : f.evaluate b = .ok m) :
    ∃ b₀ m₀, f.firstSuccess? bs = some (b₀, m₀) := by
  have hsome : (f.firstSuccess? bs).isSome = true := by
    rw [Formula.firstSuccess?, List.findSome?_isSome_iff]
    exact ⟨b, hb, by rw [hm]; rfl⟩
  obtain ⟨⟨b₀, m₀⟩, hfirst⟩ := Option.isSome_iff_exists.mp hsome
  exact ⟨b₀, m₀, hfirst⟩

/-- The unit of the first answer without an error is that of the first success. -/
theorem unit_of_first {p : Evaluation → Bool} {expected : Option String}
    (hp : ∀ b, p (f.answer b expected) = !f.fails b) (bs : List Bindings) :
    ((bs.map fun b => f.answer b expected).find? p).map (·.unit) =
      (f.firstSuccess? bs).map (·.2.unit.label) := by
  induction bs with
  | nil => rfl
  | cons b bs ih =>
      have hb := hp b
      unfold Formula.firstSuccess? at ih ⊢
      rw [List.map_cons, List.find?_cons, List.findSome?_cons]
      unfold Formula.fails at hb
      cases hm : f.evaluate b with
      | error failure =>
          -- both searches pass over a failure
          rw [hm] at hb
          rw [hb]
          exact ih
      | ok m =>
          rw [hm] at hb
          rw [hb, Formula.answer, hm]
          rfl

/-- **A sweep** answers with the formula at every position and the unit of the first success. -/
theorem Sweep.run_eq_stages {s : Session} (hf : Formula.compile s.formula = .ok f)
    (id : Option String) :
    (Sweep.run s id).points.map (·.y) =
        (Sweep.stages s id).map (fun b => (f.answer b s.expectation?).value) ∧
      (Sweep.run s id).yUnit =
        ((f.firstSuccess? (Sweep.stages s id)).map (·.2.unit.label)).getD "" := by
  have herror (b : Bindings) : (f.answer b s.expectation?).error.isNone = !f.fails b := by
    unfold Formula.answer Formula.fails
    cases f.evaluate b <;> rfl
  rw [← unit_of_first (p := (·.error.isNone)) herror]
  unfold Sweep.run Sweep.stages
  cases (id <|> s.sweep.variableId).bind s.findVariable? with
  | none => exact ⟨rfl, rfl⟩
  | some target =>
      dsimp only
      cases target.range? with
      | none => exact ⟨rfl, rfl⟩
      | some range =>
          obtain ⟨lower, upper⟩ := range
          dsimp only
          rw [hf]
          dsimp only
          rw [Bindings.setValue?_eq]
          by_cases howns : (ofVariables s.table).owns target = true
          · rw [if_pos howns, if_pos howns]
            dsimp only
            -- a position overwrites the one before it, as if it were the first
            rw [evaluations_eq _ _ (Bindings.assign_assign _ target lower), collect_map]
            simp only [List.map_map]
            exact ⟨rfl, rfl⟩
          · rw [if_neg howns, if_neg howns]
            exact ⟨rfl, rfl⟩

/-- A formula that does not compile has no value at any position. -/
theorem Sweep.y_eq_none_of_error {s : Session} {e : FormulaError}
    (he : Formula.compile s.formula = .error e) {id : Option String} {point : Sweep.Point}
    (h : point ∈ (Sweep.run s id).points) : point.y = none := by
  unfold Sweep.run at h
  rw [he] at h
  split at h
  · exact absurd h List.not_mem_nil
  · split at h
    · exact absurd h List.not_mem_nil
    · obtain ⟨x, -, rfl⟩ := List.mem_map.mp h
      rfl

/-- **A simulation** reports the unit of the first success. -/
theorem Simulation.unit_eq_stages {σ : Type} {g : Generator σ} {options : Options}
    {session : Session} (hf : Formula.compile session.formula = .ok f) (s : σ) :
    (Simulation.run g options session s).statistics.unit =
      (f.firstSuccess? (Simulation.stages g options session s)).map (·.2.unit.label) := by
  have hvalue (b : Bindings) : (f.answer b session.expectation?).value.isSome = !f.fails b := by
    rw [← f.isNone_answer b session.expectation?, Option.not_isNone]
  rw [← unit_of_first (p := (·.value.isSome)) hvalue, Simulation.run_eq_outcome hf]
  exact Simulation.unit_outcome _ _ _

/-! ## One unit -/

/-- What evaluates with some bindings has the unit of what evaluates first, whose label is reported,
    if exponents are the same with both. They are if none depends on the given symbols. -/
def Formula.OneUnit (f : Formula) (names : List String) (bs : List Bindings)
    (reported : Option String) : Prop :=
  (∀ b ∈ bs, ∀ m, f.evaluate b = .ok m →
    ∃ b₀ m₀, f.firstSuccess? bs = some (b₀, m₀) ∧ reported = some m₀.unit.label ∧
      (f.tree.SameExponents b₀ b → m.unit = m₀.unit ∧ m.unit.sameAs m₀.unit = true)) ∧
  (f.tree.SteadyExponents names → ∀ b ∈ bs, ∀ b' ∈ bs, f.tree.SameExponents b b')

theorem oneUnit_of_reassigned {reported : Option String} (h : ∀ b ∈ bs, Reassigned table names b)
    (hreported : ∀ b₀ m₀, f.firstSuccess? bs = some (b₀, m₀) → reported = some m₀.unit.label) :
    f.OneUnit names bs reported := by
  constructor
  · intro b hb m hm
    obtain ⟨b₀, m₀, hfirst⟩ := Formula.exists_firstSuccess hb hm
    obtain ⟨hb₀, hm₀⟩ := Formula.firstSuccess?_eq_some hfirst
    exact ⟨b₀, m₀, hfirst, hreported b₀ m₀ hfirst, unit_eq_of_sameExponents (h b₀ hb₀) (h b hb) hm₀ hm⟩
  · intro hsteady b hb b' hb'
    exact hsteady.sameExponents (h b hb) (h b' hb')

/-- Where no exponent varies, every success has the unit that is reported. -/
theorem Formula.OneUnit.label_eq {reported : Option String} (h : f.OneUnit names bs reported)
    (hsteady : f.tree.SteadyExponents names) (hb : b ∈ bs) (hm : f.evaluate b = .ok m) :
    reported = some m.unit.label := by
  obtain ⟨hsuccess, hsame⟩ := h
  obtain ⟨b₀, m₀, hfirst, hreported, hunit⟩ := hsuccess b hb m hm
  have hb₀ := (Formula.firstSuccess?_eq_some hfirst).1
  rw [(hunit (hsame hsteady b₀ hb₀ b hb)).1]
  exact hreported

/-- **One run has one unit, unless exponents vary**: for every session, every choice of the swept
    variable, every generator and all options. A point of a sweep and an iteration of a simulation
    that succeed have the reported unit if everything with a unit is raised to the same whole numbers
    there as in the first success. That is so throughout if no exponent mentions the swept symbol or
    a sampled one. Nothing succeeds if the formula does not compile. -/
theorem one_unit_unless_exponents_vary (s : Session) :
    (∀ f, Formula.compile s.formula = .ok f →
      (∀ id,
        (Sweep.run s id).points.map (·.y) =
            (Sweep.stages s id).map (fun b => (f.answer b s.expectation?).value) ∧
          f.OneUnit (Sweep.varied s id) (Sweep.stages s id) (some (Sweep.run s id).yUnit)) ∧
      ∀ (σ : Type) (g : Simulation.Generator σ) (options : Simulation.Options)
        (state : σ),
        let stages := Simulation.stages g options s state
        let outcome := Simulation.run g options s state
        outcome = (Simulation.Tally.ofEvaluations (stages.map fun b =>
            f.answer b s.expectation?)).outcome s.simulation.iterationCount options.histogramBins ∧
          f.OneUnit (Simulation.varied s) stages outcome.statistics.unit) ∧
    ∀ e, Formula.compile s.formula = .error e →
      (∀ id, ∀ point ∈ (Sweep.run s id).points, point.y = none) ∧
      ∀ (σ : Type) (g : Simulation.Generator σ) (options : Simulation.Options)
        (state : σ),
        (Simulation.run g options s state).histogram = [] ∧
          (Simulation.run g options s state).statistics = {} := by
  constructor
  · intro f hf
    constructor
    · intro id
      obtain ⟨hpoints, hunit⟩ := Sweep.run_eq_stages hf id
      refine ⟨hpoints, oneUnit_of_reassigned (fun b => Sweep.reassigned_stages) ?_⟩
      intro b₀ m₀ hfirst
      rw [hunit, hfirst]
      rfl
    · intro σ g options state
      refine ⟨Simulation.run_eq_outcome hf,
        oneUnit_of_reassigned (fun b => Simulation.reassigned_stages) ?_⟩
      intro b₀ m₀ hfirst
      rw [Simulation.unit_eq_stages hf, hfirst]
      rfl
  · intro e he
    constructor
    · intro id point hpoint
      exact Sweep.y_eq_none_of_error he hpoint
    · intro σ g options state
      rw [Simulation.run, he]
      exact ⟨rfl, rfl⟩

/-- The volume of a slab whose thickness varies, and whose sides are one metre long. -/
def slab : Session where
  table := [
    { id := "d", symbol := "d", value := 2.0, unit := "mm", min := some 1.0, max := some 3.0,
      distribution := some .uniform },
    { id := "a", symbol := "a", value := 1.0, unit := "m" }]
  formula := "d * a ^ 2"
  sweep := { variableId := some "d", points := 5 }
  simulation := { iterations := 100 }

/-- Words that draw the lower end of a range and its middle by turns. -/
def ends : Simulation.Cycle := ⟨[0, 0x8000000000000000], []⟩

/-- Half a formula. -/
def slabHalf : Session := { slab with formula := "d * a ^" }

/-- All positions and all draws give the unit that is reported. Half a formula gives nothing. -/
theorem slab_one_unit :
    (∃ f, Formula.compile slab.formula = .ok f ∧ f.tree.SteadyExponents ["d"] ∧
      (Sweep.run slab none).yUnit = "mm m^2" ∧
      (∀ b ∈ Sweep.stages slab none, ∃ m, f.evaluate b = .ok m ∧ m.unit.label = "mm m^2") ∧
      ∀ b ∈ Simulation.stages Simulation.cycle {} slab ends,
        ∃ m, f.evaluate b = .ok m ∧
          (Simulation.run Simulation.cycle {} slab ends).statistics.unit = some m.unit.label) ∧
    ∃ e, Formula.compile slabHalf.formula = .error e ∧
      ∀ point ∈ (Sweep.run slabHalf none).points, point.y = none := by
  obtain ⟨hruns, -⟩ := one_unit_unless_exponents_vary slab
  obtain ⟨-, hfailed⟩ := one_unit_unless_exponents_vary slabHalf
  obtain ⟨e, he⟩ := exists_error_of_isNone
    (show (Formula.compile slabHalf.formula).toOption.isNone = true by decide +kernel)
  have hresult : (Formula.compile slab.formula).toOption.map (fun f =>
      (decide (f.tree.SteadyExponents ["d"]),
        (Sweep.stages slab none ++ Simulation.stages Simulation.cycle {} slab ends).all
          fun b => !f.fails b)) = some (true, true) := by
    decide +kernel
  obtain ⟨f, hf, hpair⟩ := exists_ok_of_map hresult
  obtain ⟨hdecided, hall⟩ := Prod.mk.inj hpair
  have hsteady : f.tree.SteadyExponents ["d"] := of_decide_eq_true hdecided
  have hyUnit : (Sweep.run slab none).yUnit = "mm m^2" := by decide +kernel
  rw [List.all_append, Bool.and_eq_true, List.all_eq_true, List.all_eq_true] at hall
  obtain ⟨hpositions, hdraws⟩ := hall
  obtain ⟨hsweep, hsimulation⟩ := hruns f hf
  have hswept := (hsweep none).2
  have hdrawn := (hsimulation Simulation.Cycle Simulation.cycle {} ends).2
  refine ⟨⟨f, hf, hsteady, hyUnit, ?_, ?_⟩, e, he, (hfailed e he).1 none⟩
  · intro b hb
    obtain ⟨m, hm⟩ := Formula.fails_eq_false_iff.mp (Bool.not_eq_true' _ ▸ hpositions b hb)
    have hlabel := Option.some.inj (hswept.label_eq hsteady hb hm)
    exact ⟨m, hm, hlabel.symm.trans hyUnit⟩
  · intro b hb
    obtain ⟨m, hm⟩ := Formula.fails_eq_false_iff.mp (Bool.not_eq_true' _ ▸ hdraws b hb)
    exact ⟨m, hm, hdrawn.label_eq hsteady hb hm⟩

/-- A length raised to a swept exponent. -/
def side : Session where
  table := [
    { id := "x", symbol := "x", value := 1.0, unit := "m" },
    { id := "n", symbol := "n", value := 1.0, min := some 1.0, max := some 2.0 }]
  formula := "x ^ n"
  expectedUnit := some "m"
  sweep := { variableId := some "n", points := 2 }

/-- **Its unit varies.** The first position has the unit that is reported, the second another one. -/
theorem side_power_varies :
    ∃ f, Formula.compile side.formula = .ok f ∧
      (Sweep.run side none).points.map (·.y) = [some 1.0, some 1.0] ∧
      ((Sweep.stages side none).map fun b => (f.evaluate b).toOption.map (·.unit)) =
        [some (.parse "m"), some (.parse "m^2")] ∧
      (Sweep.run side none).yUnit = "m" ∧
      (CompoundUnit.parse "m^2").sameAs (.parse "m") = false ∧
      (Sweep.run side none).warnings = [.unitMismatch "m" "m^2"] := by
  have hresult : (Formula.compile side.formula).toOption.map (fun f =>
      (Sweep.stages side none).map fun b => (f.evaluate b).toOption.map (·.unit)) =
        some [some (.parse "m"), some (.parse "m^2")] := by
    decide +kernel
  obtain ⟨f, hf, hunits⟩ := exists_ok_of_map hresult
  refine ⟨f, hf, ?_, hunits, ?_, ?_, ?_⟩
  · decide +kernel
  · decide +kernel
  · decide +kernel
  · decide +kernel

end Reckoner
