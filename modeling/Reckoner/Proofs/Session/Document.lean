import Reckoner.Proofs.Json.Decode
import Reckoner.Proofs.Session.Validity
import Reckoner.Proofs.Timestamp.Text
import Reckoner.Session.Document

/-!
# `Reckoner.Proofs.Session.Document` — sessions are read back from their JSON

A valid session and a valid list of saved sessions are read back from their own documents. The
members of each record fill its fields in the order they are written in; what is left out is filled
with nothing, which is what it was.

## Contents
- **Variables.** `asRecord_variable`.
- **Plans.** `asRecord_sweepPlan` and `asRecord_simulationPlan`.
- **Sessions.** `asRecord_session` and `asRecord_savedSession`.
- **Documents.** `Session.ofJson_toJson`, `SavedSession.listOfJson_listToJson`, and both together as
  `documents_read_back`.
-/

namespace Reckoner

open Json (Draft Fills)

/-! ## Variables -/

/-- The numbers of a variable are finite. -/
def Variable.IsFinite (v : Variable) : Prop := ∀ x ∈ v.numbers, x.isFinite = true

/-- The fields of a variable that is read. -/
def Variable.toFields (v : Variable) : VariableFields where
  id := some v.id
  symbol := some v.symbol
  name := some v.name
  description := some v.description
  value := some v.value
  unit := some v.unit
  min := v.min.map some
  max := v.max.map some
  distribution := v.distribution.map some

theorem Variable.finish_toFields (v : Variable) :
    (Variable.shape (δ := Draft)).finish v.toFields = some v := by
  obtain ⟨id, symbol, name, description, value, unit, min, max, distribution⟩ := v
  cases min <;> cases max <;> cases distribution <;> rfl

theorem asChoice_distribution (d : Distribution) :
    Draft.asChoice "Distribution" Distribution.ofName? (.ofJson (.string d.name)) = .ok d := by
  cases d with
  | uniform => rfl
  | normal => rfl

/-- The members of a variable fill its fields. -/
theorem fills_variable {v : Variable} (h : v.IsFinite) :
    Fills Variable.shape {}
      (("id", .string v.id) :: ("symbol", .string v.symbol) :: ("name", .string v.name) ::
        ("description", .string v.description) :: ("value", .number v.value) ::
        ("unit", .string v.unit) :: (Json.optionalMember "min" .number v.min ++
        (Json.optionalMember "max" .number v.max ++
        (Json.optionalMember "distribution" (.string ·.name) v.distribution ++ []))))
      v.toFields := by
  have hvalue : v.value.isFinite = true := h _ List.mem_cons_self
  have hmin : ∀ lo, v.min = some lo → lo.isFinite = true := fun lo hlo =>
    h lo (by simp [Variable.numbers, hlo])
  have hmax : ∀ hi, v.max = some hi → hi.isFinite = true := fun hi hhi =>
    h hi (by simp [Variable.numbers, hhi])
  refine .member (by decide) rfl (Json.set_ok (Json.asString_string _) _) ?_
  refine .member (by decide) rfl (Json.set_ok (Json.asString_string _) _) ?_
  refine .member (by decide) rfl (Json.set_ok (Json.asString_string _) _) ?_
  refine .member (by decide) rfl (Json.set_ok (Json.asString_string _) _) ?_
  refine .member (by decide) rfl (Json.set_ok (Json.asFloat_number hvalue) _) ?_
  refine .member (by decide) rfl (Json.set_ok (Json.asString_string _) _) ?_
  refine .optional
    (fun lo => { v.toFields with min := lo.map some, max := none, distribution := none })
    (by decide) rfl rfl (fun lo hlo => Json.set_ok (Json.asOption_number (hmin lo hlo)) _) ?_
  refine .optional (fun hi => { v.toFields with max := hi.map some, distribution := none })
    (by decide) rfl rfl (fun hi hhi => Json.set_ok (Json.asOption_number (hmax hi hhi)) _) ?_
  refine .optional (fun d => { v.toFields with distribution := d.map some }) (by decide) rfl rfl
    (fun d _ => Json.set_ok (Json.asOption_string (asChoice_distribution d)) _) ?_
  exact .nil

theorem asRecord_variable {v : Variable} (h : v.IsFinite) :
    Draft.asRecord Variable.shape (.ofJson v.toJson) = .ok v := by
  have hfills := fills_variable h
  rw [List.append_nil] at hfills
  have hread := Json.asRecord_object hfills v.finish_toFields
  simpa [Variable.toJson] using hread

/-! ## Plans -/

theorem asRecord_sweepPlan (p : SweepPlan) :
    Draft.asRecord SweepPlan.shape (.ofJson p.toJson) = .ok p := by
  have hfills : Fills SweepPlan.shape {}
      (Json.optionalMember "variableId" .string p.variableId ++ [("points", .whole p.points.toNat)])
      { variableId := p.variableId.map some, points := some p.points } := by
    refine .optional (fun id => { variableId := id.map some }) (by decide) rfl rfl
      (fun id _ => Json.set_ok (Json.asOption_string (Json.asString_string id)) _) ?_
    exact .member (by decide) rfl (Json.set_ok (Json.asWord_whole _) _) .nil
  refine Json.asRecord_object hfills ?_
  obtain ⟨variableId, points⟩ := p
  cases variableId <;> rfl

theorem asRecord_simulationPlan (p : SimulationPlan) :
    Draft.asRecord SimulationPlan.shape (.ofJson p.toJson) = .ok p := by
  have hfills : Fills SimulationPlan.shape {}
      (("iterations", .whole p.iterations.toNat) ::
        (Json.optionalMember "seed" (.whole ·.toNat) p.seed ++ []))
      { iterations := some p.iterations, seed := p.seed.map some } := by
    refine .member (by decide) rfl (Json.set_ok (Json.asWord_whole _) _) ?_
    exact .optional (fun seed => { iterations := some p.iterations, seed := seed.map some })
      (by decide) rfl rfl (fun seed _ => Json.set_ok (Json.asOption_whole seed) _) .nil
  rw [List.append_nil] at hfills
  refine Json.asRecord_object hfills ?_
  obtain ⟨iterations, seed⟩ := p
  cases seed <;> rfl

/-! ## Sessions -/

/-- The numbers of a session's variables are finite. -/
def Session.IsFinite (s : Session) : Prop := ∀ v ∈ s.table, v.IsFinite

theorem asRecord_session {s : Session} (h : s.IsFinite) :
    Draft.asRecord Session.shape (.ofJson s.toJson) = .ok s := by
  have hfills : Fills Session.shape {}
      (Json.optionalMember "title" .string s.title ++
        (("variables", .array (s.table.map Variable.toJson)) :: ("formula", .string s.formula) ::
        (Json.optionalMember "expectedUnit" .string s.expectedUnit ++
        [("sweep", s.sweep.toJson), ("monteCarlo", s.simulation.toJson)])))
      { title := s.title.map some, table := some s.table, formula := some s.formula,
        expectedUnit := s.expectedUnit.map some, sweep := some s.sweep,
        simulation := some s.simulation } := by
    refine .optional (fun title => { title := title.map some }) (by decide) rfl rfl
      (fun title _ => Json.set_ok (Json.asOption_string (Json.asString_string title)) _) ?_
    refine .member (by decide) rfl
      (Json.set_ok (Json.asList_array fun v hv => asRecord_variable (h v hv)) _) ?_
    refine .member (by decide) rfl (Json.set_ok (Json.asString_string _) _) ?_
    refine .optional
      (fun unit =>
        { title := s.title.map some, table := some s.table, formula := some s.formula,
          expectedUnit := unit.map some })
      (by decide) rfl rfl
      (fun unit _ => Json.set_ok (Json.asOption_string (Json.asString_string unit)) _) ?_
    refine .member (by decide) rfl (Json.set_ok (asRecord_sweepPlan _) _) ?_
    exact .member (by decide) rfl (Json.set_ok (asRecord_simulationPlan _) _) .nil
  have hread := Json.asRecord_object hfills (a := s) (by
    obtain ⟨title, table, formula, expectedUnit, sweep, simulation⟩ := s
    cases title <;> cases expectedUnit <;> rfl)
  simpa [Session.toJson] using hread

theorem decode_timestamp {t : Timestamp} (h : t.inRange = true) :
    Timestamp.decode (Draft.ofJson (.string t.render)) = .ok t := by
  refine (Json.set_ok (Json.asString_string _) _).trans ?_
  rw [Timestamp.read?_render h]
  rfl

theorem asRecord_savedSession {s : SavedSession} (hfinite : s.session.IsFinite)
    (hinstant : s.updatedAt.inRange = true) :
    Draft.asRecord SavedSession.shape (.ofJson s.toJson) = .ok s := by
  have hfills : Fills SavedSession.shape {}
      [("id", .string s.id), ("title", .string s.title), ("updatedAt", .string s.updatedAt.render),
        ("session", s.session.toJson)]
      { id := some s.id, title := some s.title, updatedAt := some s.updatedAt,
        session := some s.session } := by
    refine .member (by decide) rfl (Json.set_ok (Json.asString_string _) _) ?_
    refine .member (by decide) rfl (Json.set_ok (Json.asString_string _) _) ?_
    refine .member (by decide) rfl (Json.set_ok (decode_timestamp hinstant) _) ?_
    exact .member (by decide) rfl (Json.set_ok (asRecord_session hfinite) _) .nil
  exact Json.asRecord_object hfills rfl

/-! ## Documents -/

theorem Variable.isFinite_of_valid {v : Variable} (h : v.violation? = none) : v.IsFinite := by
  intro x hx
  unfold Variable.violation? at h
  split at h
  · exact absurd h nofun
  · split at h
    · exact absurd h nofun
    · split at h
      · exact absurd h nofun
      · rename_i hfinite
        by_contra hinfinite
        refine hfinite (List.any_eq_true.mpr ⟨x, hx, ?_⟩)
        simpa using hinfinite

theorem Session.isFinite_of_valid {s : Session} (h : s.violation? = none) : s.IsFinite :=
  fun v hv => Variable.isFinite_of_valid ((tableViolation?_eq_none_iff.mp h).1 v hv)

theorem SavedSession.session_valid {s : SavedSession} (h : s.violation? = none) :
    s.session.violation? = none := by
  unfold SavedSession.violation? at h
  split at h
  · exact absurd h nofun
  · exact h

/-- What is accepted breaks no rule. -/
theorem accept_eq_ok {α : Type} {violation : Option Violation} {a b : α}
    (h : accept violation a = .ok b) : violation = none ∧ a = b := by
  cases violation with
  | none => exact ⟨rfl, Except.ok.inj h⟩
  | some v => exact absurd h nofun

/-- **A valid session is read back from its document.** -/
theorem Session.ofJson_toJson {s : Session} (h : s.violation? = none) :
    Session.ofJson s.toJson.compact = .ok s := by
  have hread : Json.decode (Document.Format.asRecord Session.shape) s.toJson.compact = .ok s :=
    (Json.decode_compact _ _).trans (asRecord_session (Session.isFinite_of_valid h))
  rw [Session.ofJson, hread]
  dsimp only
  rw [h, accept]

/-- A session that is read from a document breaks no rule. -/
theorem Session.valid_of_ofJson {text : String} {s : Session} (h : Session.ofJson text = .ok s) :
    s.violation? = none := by
  unfold Session.ofJson at h
  split at h
  · exact absurd h nofun
  · obtain ⟨hvalid, rfl⟩ := accept_eq_ok h
    exact hvalid

theorem Session.valid_of_ofYaml {text : String} {s : Session} (h : Session.ofYaml text = .ok s) :
    s.violation? = none := by
  unfold Session.ofYaml at h
  split at h
  · obtain ⟨hvalid, rfl⟩ := accept_eq_ok h
    exact hvalid
  · exact absurd h nofun

/-- A list of saved sessions that are finite is decoded, and then checked. -/
theorem SavedSession.listOfJson_listToJson_eq {list : List SavedSession}
    (hfinite : ∀ s ∈ list, s.session.IsFinite)
    (hinstants : ∀ s ∈ list, s.updatedAt.inRange = true) :
    SavedSession.listOfJson (SavedSession.listToJson list) =
      accept (savedViolation? [] list) list := by
  have hread : Json.decode (Document.Format.asList (Document.Format.asRecord SavedSession.shape))
      (SavedSession.listToJson list) = .ok list :=
    (Json.decode_compact _ _).trans (Json.asList_array fun s hs =>
      asRecord_savedSession (hfinite s hs) (hinstants s hs))
  rw [SavedSession.listOfJson, hread]

/-- **A valid list of saved sessions is read back from its document.** -/
theorem SavedSession.listOfJson_listToJson {list : List SavedSession}
    (hvalid : savedViolation? [] list = none)
    (hinstants : ∀ s ∈ list, s.updatedAt.inRange = true) :
    SavedSession.listOfJson (SavedSession.listToJson list) = .ok list := by
  have hfinite : ∀ s ∈ list, s.session.IsFinite := fun s hs =>
    Session.isFinite_of_valid (s.session_valid ((savedViolation?_eq_none_iff.mp hvalid).1 s hs))
  rw [listOfJson_listToJson_eq hfinite hinstants, hvalid]
  rfl

/-- A list that is read from a document breaks no rule. -/
theorem SavedSession.valid_of_listOfJson {text : String} {list : List SavedSession}
    (h : SavedSession.listOfJson text = .ok list) : savedViolation? [] list = none := by
  unfold SavedSession.listOfJson at h
  split at h
  · exact absurd h nofun
  · obtain ⟨hvalid, rfl⟩ := accept_eq_ok h
    exact hvalid

/-- **Documents are read back.** A session is read from its own document exactly when it breaks no
    rule, and a saved list exactly when no entry breaks one and all ids are distinct. -/
theorem documents_read_back :
    (∀ s : Session, Session.ofJson s.toJson.compact = .ok s ↔ s.violation? = none) ∧
      ∀ list : List SavedSession, (∀ s ∈ list, s.updatedAt.inRange = true) →
        (SavedSession.listOfJson (SavedSession.listToJson list) = .ok list ↔
          (∀ s ∈ list, s.violation? = none) ∧ (list.map (·.id)).Nodup) := by
  constructor
  · intro s
    exact ⟨Session.valid_of_ofJson, Session.ofJson_toJson⟩
  · intro list hinstants
    constructor
    · intro hread
      obtain ⟨hvalid, hids, -⟩ :=
        savedViolation?_eq_none_iff.mp (SavedSession.valid_of_listOfJson hread)
      exact ⟨hvalid, hids⟩
    · rintro ⟨hvalid, hids⟩
      exact SavedSession.listOfJson_listToJson (savedViolation?_eq_none hvalid hids) hinstants

/-- Two entries with an emoji, a NUL, a negative zero, the smallest double and the largest seed. -/
theorem documents_read_back_extremes :
    let extreme : Session :=
      { table := [{ id := "\u0000", symbol := "Ω😀", name := "\"\\\n", value := -0.0,
                    min := some (-5e-324), distribution := some .normal }]
        formula := "Ω😀 / 2"
        sweep := { points := 18446744073709551615 }
        simulation := { seed := some 18446744073709551615 } }
    let list : List SavedSession := [⟨"a", "", ⟨0⟩, extreme⟩, ⟨"ä", "", ⟨-1⟩, extreme⟩]
    Session.ofJson extreme.toJson.compact = .ok extreme ∧
      (∀ s ∈ list, s.updatedAt.inRange = true) ∧
      SavedSession.listOfJson (SavedSession.listToJson list) = .ok list := by
  intro extreme list
  have hextreme : extreme.violation? = none := by decide +kernel
  have hinstants : ∀ s ∈ list, s.updatedAt.inRange = true := by decide +kernel
  have hvalid : ∀ s ∈ list, s.violation? = none := by decide +kernel
  refine ⟨(documents_read_back.1 extreme).mpr hextreme, hinstants, ?_⟩
  exact (documents_read_back.2 list hinstants).mpr ⟨hvalid, by decide +kernel⟩

end Reckoner
