import Reckoner.Proofs.Simulation.Accounting
import Reckoner.Proofs.Statistics.Edges
import Reckoner.Proofs.Statistics.Order

/-!
# `Reckoner.Proofs.Simulation.Finite` — which numbers of a simulation are finite

Every value that a simulation collects is finite, and so is every quantile. The mean, the deviation and
the edges of the histogram are finite unless a sum or the range of the values is too large for a
double. For values of up to `1e144` nothing is too large.

## Contents
- **Values.** `successes`: the values of the iterations that succeed.
- **Answers.** `Outcome.AllFinite`, and `Outcome.FiniteParts`: what is finite when.
- **Simulations.** `finite_numbers_iff`.
-/

namespace Reckoner.Simulation

open Double Statistics

variable {σ : Type} {g : Generator σ} {options : Options} {session : Session} {f : Formula} {s : σ}

/-! ## Values -/

/-- The values of the iterations that succeed. -/
def successes (g : Generator σ) (options : Options) (session : Session) (f : Formula) (s : σ) :
    List Float :=
  (stages g options session s).filterMap fun b => (f.answer b session.expectation?).value

theorem values_tally (g : Generator σ) (options : Options) (session : Session) (f : Formula) (s : σ) :
    (tally g options session f s).values.toList = successes g options session f s := by
  rw [tally_eq_stages]
  show ((stages g options session s).map _).filterMap _ = _
  rw [List.filterMap_map]
  rfl

/-- A formula's answer has a finite value or none. -/
theorem isFinite_value {b : Bindings} {expected : Option String} {v : Float}
    (h : (f.answer b expected).value = some v) : v.isFinite = true := by
  unfold Formula.answer at h
  cases hm : f.evaluate b with
  | error failure =>
      rw [hm] at h
      exact absurd (show none = some v from h) (Option.some_ne_none v).symm
  | ok m =>
      rw [hm] at h
      obtain rfl := Option.some.inj h
      unfold Formula.evaluate at hm
      split at hm
      · cases hm
      · dsimp only at hm
        split_ifs at hm with hfinite
        obtain rfl := Except.ok.inj hm
        exact hfinite

theorem iterationCount_le (p : SimulationPlan) : p.iterationCount ≤ 10000 := by
  unfold SimulationPlan.iterationCount
  omega

/-- **The values of a simulation** are finite samples. -/
theorem samples_successes (h : successes g options session f s ≠ []) :
    Samples (successes g options session f s) := by
  refine ⟨h, fun v hv => ?_, ?_⟩
  · obtain ⟨b, -, hvalue⟩ := List.mem_filterMap.mp hv
    exact isFinite_value hvalue
  · calc (successes g options session f s).length ≤ (stages g options session s).length :=
          List.length_filterMap_le _ _
      _ = session.simulation.iterationCount := length_stages g options session s
      _ ≤ 10000 := iterationCount_le _

/-! ## Answers -/

/-- A number that is there and finite. -/
def IsFinite (x : Option Float) : Prop := ∃ y, x = some y ∧ y.isFinite = true

/-- All numbers of an answer are finite. -/
structure Outcome.AllFinite (o : Outcome) : Prop where
  mean : IsFinite o.statistics.mean
  deviation : IsFinite o.statistics.deviation
  p05 : IsFinite o.statistics.p05
  p50 : IsFinite o.statistics.p50
  p95 : IsFinite o.statistics.p95
  edges : EdgesFinite o.histogram

/-- Which numbers of an answer are finite, in terms of the values and the number of bins. -/
structure Outcome.FiniteParts (o : Outcome) (values : List Float) (bins : Nat) : Prop where
  quantiles : IsFinite o.statistics.p05 ∧ IsFinite o.statistics.p50 ∧ IsFinite o.statistics.p95
  mean_iff : IsFinite o.statistics.mean ↔ (sum (sortSamples values)).isFinite = true
  deviation_iff : IsFinite o.statistics.deviation ↔ values.length < 2 ∨
    (sum (squares (sortSamples values) (centre (sortSamples values)))).isFinite = true
  edges_iff : EdgesFinite o.histogram ↔ (bins ≤ 1 ∨ spread values ≤ Float.ofNat 0) ∨
    (spread values).isFinite = true ∧ (lastEdge values bins).isFinite = true
  edges_iff_range : bins ≤ 2 ^ 51 →
    (EdgesFinite o.histogram ↔ bins ≤ 1 ∨ (spread values).isFinite = true)
  /-- The first bin starts at the least value; zero may have the other sign. -/
  first_iff : (∃ bin, o.histogram.head? = some bin ∧ (bin.lower == least values) = true) ↔
    bins ≤ 1 ∨ (spread values).isFinite = true
  last : ∃ bin, o.histogram.getLast? = some bin ∧ bin.upper = greatest values

theorem isFinite_some (x : Float) : IsFinite (some x) ↔ x.isFinite = true :=
  ⟨fun ⟨_, hy, hfinite⟩ => Option.some.inj hy ▸ hfinite, fun h => ⟨x, rfl, h⟩⟩

/-- What a summary consists of. -/
theorem of_summary {samples : List Float} {summary : Summary}
    (h : Summary.ofSamples samples = some summary) :
    summary.mean = centre (sortSamples samples) ∧
      summary.deviation = deviation (sortSamples samples) summary.mean ∧
      quantile (sortSamples samples).toArray 0.05 = some summary.p05 ∧
      quantile (sortSamples samples).toArray 0.50 = some summary.p50 ∧
      quantile (sortSamples samples).toArray 0.95 = some summary.p95 := by
  unfold Summary.ofSamples Summary.ofSorted Statistics.mean at h
  split_ifs at h
  · exact absurd (show none = some summary from h)
      (Option.some_ne_none summary).symm
  · simp only [Option.bind_eq_bind, Option.bind_some, Option.bind_eq_some_iff] at h
    obtain ⟨p05, h05, p50, h50, p95, h95, hsummary⟩ := h
    obtain rfl := Option.some.inj hsummary
    exact ⟨rfl, rfl, h05, h50, h95⟩

/-- As soon as there is a value there is an answer with a summary. -/
theorem exists_outcome {t : Tally} (h : t.values.toList ≠ []) (iterations bins : Nat) :
    ∃ summary, Summary.ofSamples t.values.toList = some summary ∧
      t.outcome iterations bins =
        ⟨⟨some summary.mean, some summary.deviation, some summary.p05, some summary.p50,
          some summary.p95, t.unit⟩, histogram t.values.toList bins,
          Diagnostic.merge t.warnings (failureRemark t.failures iterations), none⟩ := by
  obtain ⟨summary, hsummary⟩ := exists_summary h
  refine ⟨summary, hsummary, ?_⟩
  unfold Tally.outcome
  dsimp only
  rw [hsummary]

/-- **The parts of an answer** that are finite. -/
theorem finiteParts_outcome {t : Tally} (h : Samples t.values.toList) (iterations bins : Nat) :
    (t.outcome iterations bins).FiniteParts t.values.toList bins := by
  obtain ⟨summary, hsummary, houtcome⟩ := exists_outcome h.nonempty iterations bins
  obtain ⟨hmean, hdeviation, h05, h50, h95⟩ := of_summary hsummary
  have hquantile {p x : Float} (hp : p.isFinite = true)
      (hx : quantile (sortSamples t.values.toList).toArray p = some x) : IsFinite (some x) := by
    refine (isFinite_some x).mpr (isFinite_quantile (fun v hv => ?_) ?_ hp hx)
    · exact h.sort.finite v (List.mem_toArray.mp hv)
    · rw [List.size_toArray]
      exact h.sort.length_lt.le
  have hlength : (sortSamples t.values.toList).length = t.values.toList.length :=
    List.length_mergeSort _
  rw [houtcome]
  refine ⟨⟨hquantile (by decide +kernel) h05, hquantile (by decide +kernel) h50,
    hquantile (by decide +kernel) h95⟩, ?_, ?_, edgesFinite_iff h bins,
    fun hfew => edgesFinite_iff_range h hfew, first_edge_iff h bins, last_edge h bins⟩
  · rw [isFinite_some, hmean]
    exact isFinite_centre_iff h.sort
  · rw [isFinite_some, hdeviation, hmean, ← hlength]
    exact isFinite_deviation_iff h.sort _

/-- With a finite sum, a finite sum of squares and a range that is a double, all is finite. -/
theorem Outcome.FiniteParts.allFinite {o : Outcome} {values : List Float} {bins : Nat}
    (h : o.FiniteParts values bins) (hsum : (sum (sortSamples values)).isFinite = true)
    (hsquares : (sum (squares (sortSamples values) (centre (sortSamples values)))).isFinite = true)
    (hedges : EdgesFinite o.histogram) : o.AllFinite :=
  ⟨h.mean_iff.mpr hsum, h.deviation_iff.mpr (.inr hsquares), h.quantiles.1, h.quantiles.2.1,
    h.quantiles.2.2, hedges⟩

/-- A double of up to `1e144`. -/
theorem abs_le_of_moderate {v : Float} (hv : v.isFinite = true) (h : v.abs ≤ 1e144) :
    |toRat v| ≤ 2 ^ (480 : ℤ) := by
  have hpower : parts (Float.ofBits 0x5DF0000000000000) =
      .finite .positive (2 ^ 52) 428 (by decide) := rfl
  have hfinite : (Float.ofBits 0x5DF0000000000000).isFinite = true := by
    rw [isFinite_eq, hpower]
    rfl
  have hlimit : (1e144 : Float).isFinite = true := by decide +kernel
  have hless : (1e144 : Float) ≤ Float.ofBits 0x5DF0000000000000 := by decide +kernel
  have hvalue : toRat (Float.ofBits 0x5DF0000000000000) = 2 ^ (480 : ℤ) := by
    rw [toRat_of_finite hpower, signum, one_mul, Nat.cast_pow, Nat.cast_ofNat, two_pow_mul_zpow]
    rfl
  rw [← hvalue, ← toRat_abs hv]
  exact ((le_iff ((isFinite_abs v).trans hv) hlimit).mp h).trans ((le_iff hlimit hfinite).mp hless)

/-- The range of moderate values is a double. -/
theorem isFinite_spread {values : List Float} (h : Samples values)
    (hsmall : ∀ v ∈ values, |toRat v| ≤ 2 ^ (480 : ℤ)) : (spread values).isFinite = true := by
  obtain ⟨hleast, hgreatest, -⟩ := h.extremes
  have hdifference : |toRat (greatest values) - toRat (least values)| ≤
      (2 : ℕ) * 2 ^ (480 : ℤ) := by
    rw [Nat.cast_ofNat, two_mul]
    exact (abs_sub _ _).trans (add_le_add (hsmall _ hgreatest) (hsmall _ hleast))
  exact ((rounds_sub (h.finite _ hgreatest) (h.finite _ hleast)).bounded hdifference (by decide)
    (by decide) (by decide)).1

/-- **Moderate values** have finite statistics and edges. -/
theorem Outcome.FiniteParts.of_moderate {o : Outcome} {values : List Float} {bins : Nat}
    (h : o.FiniteParts values bins) (hsamples : Samples values) (hfew : bins ≤ 2 ^ 51)
    (hmoderate : ∀ v ∈ values, v.abs ≤ 1e144) : o.AllFinite := by
  have hsmall : ∀ v ∈ values, |toRat v| ≤ 2 ^ (480 : ℤ) := fun v hv =>
    abs_le_of_moderate (hsamples.finite v hv) (hmoderate v hv)
  obtain ⟨hsum, hsquares⟩ := moments_bounded hsamples.sort fun v hv =>
    hsmall v ((List.mergeSort_perm values totalOrder).mem_iff.mp hv)
  exact h.allFinite hsum hsquares
    ((h.edges_iff_range hfew).mpr (.inr (isFinite_spread hsamples hsmall)))

/-! ## Simulations -/

/-- A simulation without an error has compiled its formula and collected values. -/
theorem of_error_eq_none (h : (run g options session s).error = none) :
    ∃ f, Formula.compile session.formula = .ok f ∧ successes g options session f s ≠ [] ∧
      run g options session s = (tally g options session f s).outcome
        session.simulation.iterationCount options.histogramBins := by
  unfold run at h ⊢
  cases hf : Formula.compile session.formula with
  | error e =>
      rw [hf] at h
      exact absurd (show some e.message = none from h) (Option.some_ne_none _)
  | ok f =>
      rw [hf] at h
      refine ⟨f, rfl, fun hnone => ?_, rfl⟩
      rw [← values_tally] at hnone
      unfold Tally.outcome at h
      dsimp only at h
      rw [hnone, ofSamples_nil] at h
      exact absurd h (Option.some_ne_none _)

/-- And a simulation that has collected values is without an error. -/
theorem error_eq_none (hf : Formula.compile session.formula = .ok f)
    (h : successes g options session f s ≠ []) : (run g options session s).error = none := by
  rw [← values_tally] at h
  obtain ⟨summary, -, houtcome⟩ :=
    exists_outcome h session.simulation.iterationCount options.histogramBins
  rw [run, hf]
  dsimp only
  rw [houtcome]

/-- **Which numbers of a simulation are finite.** Without an error, a simulation of any session, with
    any options and any generator, has collected finite values, and its quantiles are finite. The mean
    is finite exactly if the sum of the values is, the deviation exactly if there is one value or the
    sum of the squares is finite, and the edges exactly if there is one bin, or the range of the values
    is a double and so is the last computed edge, which it always is up to `2 ^ 51` bins. The histogram
    starts at the least value exactly if there is one bin or the range is a double, and it ends at the
    greatest value. If no value is beyond `1e144`, all numbers are finite. -/
theorem finite_numbers_iff (herror : (run g options session s).error = none) :
    ∃ f, Formula.compile session.formula = .ok f ∧
      let values := successes g options session f s
      let outcome := run g options session s
      values ≠ [] ∧ (∀ v ∈ values, v.isFinite = true) ∧
        (least values ∈ values ∧ greatest values ∈ values ∧
          ∀ v ∈ values, least values ≤ v ∧ v ≤ greatest values) ∧
        outcome.FiniteParts values options.histogramBins ∧
        (options.histogramBins ≤ 2 ^ 51 → (∀ v ∈ values, v.abs ≤ 1e144) → outcome.AllFinite) := by
  obtain ⟨f, hf, hvalues, hrun⟩ := of_error_eq_none herror
  have hsamples := samples_successes hvalues
  have hparts : (run g options session s).FiniteParts (successes g options session f s)
      options.histogramBins := by
    rw [hrun, ← values_tally]
    rw [← values_tally] at hsamples
    exact finiteParts_outcome hsamples _ _
  exact ⟨f, hf, hvalues, hsamples.finite, hsamples.extremes, hparts,
    fun hfew hmoderate => hparts.of_moderate hsamples hfew hmoderate⟩

/-- A variable that is drawn between -1 and 3, doubled. -/
def doubled : Session where
  table := [
    { id := "x", symbol := "x", value := 1.0, unit := "m", min := some (-1.0), max := some 3.0,
      distribution := some .uniform }]
  formula := "2 * x"
  simulation := { iterations := 100 }

/-- The lower end and the middle of the range by turns: all is finite, from -2 on. -/
theorem doubled_finite :
    (run cycle {} doubled turns).error = none ∧ (run cycle {} doubled turns).AllFinite ∧
      ∃ f, Formula.compile doubled.formula = .ok f ∧
        (successes cycle {} doubled f turns).all (·.abs ≤ 1e144) = true ∧
        (least (successes cycle {} doubled f turns) == -2.0) = true ∧
        ∃ bin, (run cycle {} doubled turns).histogram.head? = some bin ∧
          (bin.lower == least (successes cycle {} doubled f turns)) = true := by
  have hresult : (Formula.compile doubled.formula).toOption.map (fun f =>
      ((successes cycle {} doubled f turns).isEmpty,
        (successes cycle {} doubled f turns).all (·.abs ≤ 1e144),
        least (successes cycle {} doubled f turns) == -2.0,
        (spread (successes cycle {} doubled f turns)).isFinite)) =
      some (false, true, true, true) := by decide +kernel
  obtain ⟨f, hf, hvalues⟩ := exists_ok_of_map hresult
  simp only [Prod.mk.injEq] at hvalues
  obtain ⟨hsome, hmoderate, hleast, hspread⟩ := hvalues
  have herror : (run cycle {} doubled turns).error = none :=
    error_eq_none hf (by simpa using hsome)
  obtain ⟨f', hf', -, -, -, hparts, hall⟩ := finite_numbers_iff herror
  obtain rfl := Except.ok.inj (hf.symm.trans hf')
  have hmoderate' := fun v hv => of_decide_eq_true (List.all_eq_true.mp hmoderate v hv)
  exact ⟨herror, hall (by decide) hmoderate', f, hf, hmoderate, hleast,
    hparts.first_iff.mpr (.inr hspread)⟩

theorem sortSamples_replicate (n : Nat) (v : Float) :
    sortSamples (List.replicate n v) = List.replicate n v :=
  sortSamples_eq_iff.mpr ⟨List.Perm.refl _, List.pairwise_replicate.mpr (.inr (Int.le_refl _))⟩

/-- A constant that is a double, but not a hundred times. -/
def excessive : Session where
  formula := "1e308"
  simulation := { iterations := 100 }

/-- The sum of a hundred values of `1e308` is too large for a double, and so there is no mean. -/
theorem excessive_not_finite :
    excessive.violation? = none ∧ 1 ≤ ({} : Options).histogramBins ∧
      (runSeeded excessive 1).error = none ∧ ¬(runSeeded excessive 1).AllFinite := by
  have hresult : (Formula.compile excessive.formula).toOption.map (fun f =>
      (successes xoshiro {} excessive f (.ofSeed 1)).map Float.toBits) =
      some ((List.replicate 100 1e308).map Float.toBits) := by decide +kernel
  obtain ⟨f, hf, hbits⟩ := exists_ok_of_map hresult
  have hvalues : successes xoshiro {} excessive f (.ofSeed 1) = List.replicate 100 1e308 :=
    List.map_injective_iff.mpr (fun _ _ h => Float.toBits_inj.mp h) hbits
  have hsome : successes xoshiro {} excessive f (.ofSeed 1) ≠ [] := by
    rw [hvalues]
    decide
  have hparts : (runSeeded excessive 1).FiniteParts (List.replicate 100 1e308) 20 := by
    have hrun : runSeeded excessive 1 =
        (tally xoshiro {} excessive f (.ofSeed 1)).outcome 100 20 := by
      rw [runSeeded, run, hf]
      rfl
    have hsamples := samples_successes hsome
    rw [hrun, ← hvalues, ← values_tally]
    rw [← values_tally] at hsamples
    exact finiteParts_outcome hsamples 100 20
  refine ⟨by decide +kernel, by decide, error_eq_none hf hsome, fun hall => ?_⟩
  have hsum := hparts.mean_iff.mp hall.mean
  rw [sortSamples_replicate] at hsum
  exact absurd hsum (by decide +kernel)

end Reckoner.Simulation
