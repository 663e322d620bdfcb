import Reckoner.Proofs.Formula.Bindings
import Reckoner.Sweep

/-!
# `Reckoner.Proofs.Sweep` — a sweep is one evaluation for each position

`Sweep.run` compiles once and overwrites one binding from position to position. `Sweep.naive`
evaluates, at each position, a copy of the session in which nothing but the value of the swept
variable differs. The two agree for every session, valid or not.

## Contents
- **Copies.** `Session.withValue`: one value replaced.
- **The reference.** `isFirstCarrier` and `naive`.
- **Steps.** What the bindings of one step look up.
- **Agreement.** `sweep_eq_naive`.
-/

namespace Reckoner

/-! ## Copies -/

/-- The table with another value for the first variable with an id. -/
def setFirst (id : String) (x : Float) : List Variable → List Variable
  | [] => []
  | v :: vs => if v.id = id then { v with value := x } :: vs else v :: setFirst id x vs

/-- The session with another value for the first variable with an id. -/
def Session.withValue (s : Session) (id : String) (x : Float) : Session :=
  { s with table := setFirst id x s.table }

namespace Sweep

/-! ## The reference -/

/-- The first variable with the id of the target is also the first that carries its symbol. -/
def isFirstCarrier (table : List Variable) (target : Variable) : Bool :=
  table.findIdx (·.id == target.id) == table.findIdx (·.key == target.key)

/-- The remark on a target whose symbol an earlier variable carries. -/
def shadowedMessage (table : List Variable) (target : Variable) : String :=
  let owner := ((carrier? table target.key).map (·.id)).getD target.key
  "symbol '" ++ target.key ++ "' of '" ++ target.id ++ "' is shadowed by '" ++ owner ++ "'"

/-- The series of a variable, every position evaluated in a copy of the session. -/
def naiveSeries (s : Session) (target : Variable) (xs : List Float) : Series :=
  let evaluated := xs.map fun x => (s.withValue target.id x).evaluate
  { points := xs.map fun x => ⟨x, (s.withValue target.id x).evaluate.value⟩
    xUnit := target.unit
    yUnit := ((evaluated.find? (·.error.isNone)).map (·.unit)).getD ""
    warnings := (evaluated.flatMap (·.warnings)).eraseDups
    error := none }

/-- The sweep without any reuse. -/
def naive (s : Session) (id : Option String) : Series :=
  match (id <|> s.sweep.variableId).bind fun id => s.table.find? (·.id == id) with
  | none => .failure "range missing" []
  | some target =>
    match target.range? with
    | none => .failure "range missing" []
    | some (lower, upper) =>
      let xs := positions lower upper s.sweep.pointCount
      match Formula.compile s.formula with
      | .error e =>
        { points := xs.map fun x => ⟨x, none⟩, xUnit := target.unit, yUnit := "",
          warnings := e.diagnostics, error := some e.message }
      | .ok _ =>
        if isFirstCarrier s.table target then naiveSeries s target xs
        else .failure "range missing" [.invalidFormula (shadowedMessage s.table target)]

/-! ## Steps -/

open Bindings (Agree)

variable {table before behind : List Variable} {target : Variable}

/-- A variable that is found by its id stands behind others with other ids. -/
theorem exists_split (hfirst : table.find? (·.id == target.id) = some target) :
    ∃ before behind, table = before ++ target :: behind ∧ ∀ v ∈ before, v.id ≠ target.id := by
  obtain ⟨-, before, behind, htable, hbefore⟩ := List.find?_eq_some_iff_append.mp hfirst
  exact ⟨before, behind, htable, fun v hv => by simpa using hbefore v hv⟩

theorem setFirst_append (x : Float) (h : ∀ v ∈ before, v.id ≠ target.id) :
    setFirst target.id x (before ++ target :: behind) =
      before ++ { target with value := x } :: behind := by
  induction before with
  | nil => simp [setFirst]
  | cons v vs ih =>
      simp only [List.cons_append, setFirst, if_neg (h v List.mem_cons_self)]
      rw [ih fun w hw => h w (List.mem_cons_of_mem v hw)]

/-- A test that holds behind a prefix holds there first when it fails on the prefix. -/
theorem findIdx_append_cons {p : Variable → Bool} (hp : p target = true) :
    (before ++ target :: behind).findIdx p = before.length ↔ ∀ v ∈ before, p v = false := by
  rw [List.findIdx_append, List.findIdx_cons, hp]
  split
  · rename_i hlt
    obtain ⟨v, hv, hpv⟩ := List.findIdx_lt_length.mp hlt
    constructor
    · intro heq
      omega
    · intro hnone
      exact absurd hpv (by simp [hnone v hv])
  · rename_i hlt
    refine ⟨fun _ v hv => ?_, fun _ => Nat.zero_add _⟩
    cases hpv : p v with
    | false => rfl
    | true => exact absurd (List.findIdx_lt_length.mpr ⟨v, hv, hpv⟩) hlt

/-- The target is the first carrier of its symbol when no variable before it has the symbol. -/
theorem isFirstCarrier_append (hbefore : ∀ v ∈ before, v.id ≠ target.id) :
    isFirstCarrier (before ++ target :: behind) target = true ↔
      ∀ v ∈ before, v.key ≠ target.key := by
  have hid : (before ++ target :: behind).findIdx (·.id == target.id) = before.length :=
    (findIdx_append_cons (by simp)).mpr fun v hv => by simpa using hbefore v hv
  rw [isFirstCarrier, hid, beq_iff_eq, eq_comm, findIdx_append_cons (by simp)]
  simp

/-- **The owner test finds the first carrier**, also where ids or symbols are repeated. -/
theorem owns_iff_isFirstCarrier (hfirst : table.find? (·.id == target.id) = some target) :
    (Bindings.ofVariables table).owns target = true ↔ isFirstCarrier table target = true := by
  obtain ⟨before, behind, rfl, hbefore⟩ := exists_split hfirst
  rw [Bindings.owns_ofVariables, isFirstCarrier_append hbefore, carrier?_append, carrier?_cons,
    if_pos rfl]
  cases hc : carrier? before target.key with
  | none => simpa using carrier?_eq_none.mp hc
  | some w =>
      have hw := List.mem_of_find?_eq_some hc
      have hkey : w.key = target.key := by simpa using List.find?_some hc
      simp [hbefore w hw]
      exact ⟨w, hw, hkey⟩

/-- **One step.** Overwriting the value of the target looks up what the bindings of the copied
    session do. -/
theorem agree_step (hfirst : table.find? (·.id == target.id) = some target) (x : Float) :
    Agree ((Bindings.ofVariables table).assign target x)
      (Bindings.ofVariables (setFirst target.id x table)) := by
  obtain ⟨before, behind, rfl, hbefore⟩ := exists_split hfirst
  rw [setFirst_append x hbefore]
  exact Bindings.agree_assign_append hbefore x

/-- **All steps.** Whatever the bindings were before, every position is evaluated with the bindings
    of its own copy. -/
theorem evaluations_eq {f : Formula} {expected : Option String} {base : Bindings} (xs : List Float)
    (b : Bindings) (hb : ∀ x, Agree (b.assign target x) (base.assign target x)) :
    evaluations f target expected b xs =
      xs.map fun x => (x, f.answer (base.assign target x) expected) := by
  induction xs generalizing b with
  | nil => rfl
  | cons x xs ih =>
      rw [evaluations, List.map_cons, Formula.answer_congr (hb x),
        ih (b.assign target x) fun y => (b.assign_assign target x y).trans (hb y)]

/-! ## Agreement -/

theorem shadowed_eq (table : List Variable) (target : Variable) :
    shadowed table target = .invalidFormula (shadowedMessage table target) := by
  unfold shadowed shadowedMessage carrier?
  cases table.find? fun v => v.key == target.key <;> rfl

/-- Collecting evaluations made position by position. -/
theorem collect_map (xUnit : String) (answerAt : Float → Evaluation) (xs : List Float) :
    collect xUnit (xs.map fun x => (x, answerAt x)) =
      { points := xs.map fun x => ⟨x, (answerAt x).value⟩
        xUnit := xUnit
        yUnit := (((xs.map answerAt).find? (·.error.isNone)).map (·.unit)).getD ""
        warnings := ((xs.map answerAt).flatMap (·.warnings)).eraseDups
        error := none } := by
  have hwarnings := Diagnostic.foldl_merge (fun p : Float × Evaluation => p.2.warnings)
    (xs.map fun x => (x, answerAt x)) []
  rw [← Diagnostic.distinct, Diagnostic.distinct_eq_eraseDups] at hwarnings
  simp only [collect, hwarnings, List.map_map, List.find?_map, List.flatMap_map, Option.map_map]
  rfl

/-- The evaluation of the copied session is that of the compiled formula. -/
theorem evaluate_withValue {s : Session} {f : Formula} (hf : Formula.compile s.formula = .ok f)
    (hfirst : s.table.find? (·.id == target.id) = some target) (x : Float) :
    (s.withValue target.id x).evaluate =
      f.answer ((Bindings.ofVariables s.table).assign target x) s.expectation? := by
  show Reckoner.evaluate s.formula (setFirst target.id x s.table) s.expectation? = _
  rw [evaluate_of_ok hf]
  exact (Formula.answer_congr (agree_step hfirst x) f s.expectation?).symm

/-- A variable found by some id is found by its own. -/
theorem find?_id_of_bind {id : Option String}
    (h : (id.bind fun id => table.find? (·.id == id)) = some target) :
    table.find? (·.id == target.id) = some target := by
  obtain ⟨i, -, hi⟩ := Option.bind_eq_some_iff.mp h
  have hid : target.id = i := by simpa using List.find?_some hi
  rw [hid]
  exact hi

/-- **A sweep is what evaluating copies of the session gives**: for every session, valid or not, and
    every choice of the swept variable. -/
theorem sweep_eq_naive (s : Session) (id : Option String) : run s id = naive s id := by
  have hfind : s.findVariable? = fun id => s.table.find? (·.id == id) := rfl
  unfold run naive
  rw [hfind]
  cases htarget : (id <|> s.sweep.variableId).bind fun id => s.table.find? (·.id == id) with
  | none => rfl
  | some target =>
      have hfirst := find?_id_of_bind htarget
      dsimp only
      cases target.range? with
      | none => rfl
      | some range =>
          obtain ⟨lower, upper⟩ := range
          dsimp only
          cases hf : Formula.compile s.formula with
          | error e => rfl
          | ok f =>
              dsimp only
              rw [Bindings.setValue?_eq]
              -- a variable behind another one with its symbol is set nowhere
              by_cases hcarrier : isFirstCarrier s.table target = true
              · rw [if_pos ((owns_iff_isFirstCarrier hfirst).mpr hcarrier), if_pos hcarrier]
                dsimp only
                rw [evaluations_eq _ _ (Bindings.assign_assign _ target lower), collect_map]
                simp only [naiveSeries, evaluate_withValue hf hfirst]
              · rw [if_neg (mt (owns_iff_isFirstCarrier hfirst).mp hcarrier), if_neg hcarrier,
                  ← shadowed_eq]
                rfl

end Sweep

end Reckoner
