import Reckoner.Proofs.Session.Document
import Reckoner.Proofs.Yaml.Decode

/-!
# `Reckoner.Proofs.Session.Yaml` — what is read back of a session's YAML

A session is read back as it is heard: its numbers as they are, and its texts as their styles keep
them. So a valid session is read back unchanged exactly if all of its texts survive.

## Contents
- **Hearing.** `Session.texts` and `Session.heard`.
- **Variables.** `yields_variable`.
- **Plans.** `yields_sweepPlan` and `yields_simulationPlan`.
- **Sessions.** `yields_session`.
- **Documents.** `Session.ofYaml_toYaml`, and `Session.ofYaml_toYaml_of_survives` for those that are
  read back unchanged.
-/

namespace Reckoner

open Json (optionalMember)
open Yaml (Fills Node Survives Yields heardOption heardText isAudible)

/-! ## Hearing -/

/-- The texts of a variable. -/
def Variable.texts (v : Variable) : List String := [v.id, v.symbol, v.name, v.description, v.unit]

/-- A variable as it is heard. -/
def Variable.heard (v : Variable) : Variable :=
  { v with
    id := heardText v.id, symbol := heardText v.symbol, name := heardText v.name,
    description := heardText v.description, unit := heardText v.unit }

/-- The texts of a session. -/
def Session.texts (s : Session) : List String :=
  s.title.toList ++ s.table.flatMap Variable.texts ++ s.formula :: s.expectedUnit.toList ++
    s.sweep.variableId.toList

/-- A session as it is heard. -/
def Session.heard (s : Session) : Session :=
  { s with
    title := s.title.bind heardOption, table := s.table.map Variable.heard,
    formula := heardText s.formula, expectedUnit := s.expectedUnit.bind heardOption,
    sweep := { s.sweep with variableId := s.sweep.variableId.bind heardOption } }

/-- No text that is required is heard as a word for nothing. -/
def Session.isAudible (s : Session) : Bool :=
  s.table.all (·.texts.all Yaml.isAudible) && Yaml.isAudible s.formula

/-! ## Variables -/

theorem Variable.finish_fields (v : Variable) :
    (Variable.shape (δ := Node)).finish v.toFields = some v := by
  obtain ⟨id, symbol, name, description, value, unit, min, max, distribution⟩ := v
  cases min <;> cases max <;> cases distribution <;> rfl

theorem asOption_distribution (d : Distribution) :
    Node.asOption (Node.asChoice "Distribution" Distribution.ofName?) (.ofJson (.string d.name)) =
      .ok (some d) := by
  cases d with
  | uniform => rfl
  | normal => rfl

/-- The members of a variable fill its fields. -/
theorem fills_heard {v : Variable} (h : v.IsFinite) :
    Fills Variable.shape (v.texts.all Yaml.isAudible) {}
      (("id", .string v.id) :: ("symbol", .string v.symbol) :: ("name", .string v.name) ::
        ("description", .string v.description) :: ("value", .number v.value) ::
        ("unit", .string v.unit) :: (optionalMember "min" .number v.min ++
        (optionalMember "max" .number v.max ++
        (optionalMember "distribution" (.string ·.name) v.distribution ++ []))))
      v.heard.toFields := by
  have hvalue : v.value.isFinite = true := h _ List.mem_cons_self
  have hmin : ∀ lo, v.min = some lo → lo.isFinite = true := fun lo hlo =>
    h lo (by simp [Variable.numbers, hlo])
  have hmax : ∀ hi, v.max = some hi → hi.isFinite = true := fun hi hhi =>
    h hi (by simp [Variable.numbers, hhi])
  have htexts : v.texts.all Yaml.isAudible =
      (isAudible v.id && (isAudible v.symbol && (isAudible v.name && (isAudible v.description &&
        (isAudible v.unit && true))))) := by
    simp [Variable.texts]
  rw [htexts]
  refine .member (by decide) (by decide) rfl ((Yaml.yields_string v.id).set rfl) ?_
  refine .member (by decide) (by decide) rfl ((Yaml.yields_string v.symbol).set rfl) ?_
  refine .member (by decide) (by decide) rfl ((Yaml.yields_string v.name).set rfl) ?_
  refine .member (by decide) (by decide) rfl ((Yaml.yields_string v.description).set rfl) ?_
  refine .certain (by decide) (by decide) rfl
    ((Yields.of_ok (Yaml.asFloat_number hvalue)).set rfl) ?_
  refine .member (by decide) (by decide) rfl ((Yaml.yields_string v.unit).set rfl) ?_
  refine .optional
    (fun lo => { v.heard.toFields with min := lo.map some, max := none, distribution := none })
    (by decide) (by decide) rfl rfl
    (fun lo hlo => (Yields.of_ok (Yaml.asOption_number (hmin lo hlo))).set rfl) ?_
  refine .optional (fun hi => { v.heard.toFields with max := hi.map some, distribution := none })
    (by decide) (by decide) rfl rfl
    (fun hi hhi => (Yields.of_ok (Yaml.asOption_number (hmax hi hhi))).set rfl) ?_
  refine .optional (fun d => { v.heard.toFields with distribution := d.map some })
    (by decide) (by decide) rfl rfl
    (fun d _ => (Yields.of_ok (asOption_distribution d)).set rfl) ?_
  exact .nil

theorem yields_variable {v : Variable} (h : v.IsFinite) :
    Yields (v.texts.all Yaml.isAudible) (Node.asRecord Variable.shape (.ofJson v.toJson))
      v.heard := by
  have hread := Yaml.yields_record (fills_heard h)
    (by cases v.min <;> cases v.max <;> cases v.distribution <;> simp [optionalMember])
    v.heard.finish_fields
  simpa [Variable.toJson] using hread

/-! ## Plans -/

theorem yields_sweepPlan (p : SweepPlan) :
    Yields true (Node.asRecord SweepPlan.shape (.ofJson p.toJson))
      { p with variableId := p.variableId.bind heardOption } := by
  have hfills : Fills SweepPlan.shape true {}
      (optionalMember "variableId" .string p.variableId ++ [("points", .whole p.points.toNat)])
      { variableId := p.variableId.map heardOption, points := some p.points } := by
    refine .optional (fun id => { variableId := id.map heardOption }) (by decide) (by decide) rfl
      rfl (fun id _ => (Yields.of_ok (Yaml.asOption_string id)).set rfl) ?_
    exact .certain (by decide) (by decide) rfl ((Yields.of_ok (Yaml.asWord_whole _)).set rfl) .nil
  refine Yaml.yields_record hfills (by cases p.variableId <;> simp [optionalMember]) ?_
  obtain ⟨variableId, points⟩ := p
  cases variableId <;> rfl

theorem yields_simulationPlan (p : SimulationPlan) :
    Yields true (Node.asRecord SimulationPlan.shape (.ofJson p.toJson)) p := by
  have hfills : Fills SimulationPlan.shape true {}
      (("iterations", .whole p.iterations.toNat) ::
        (optionalMember "seed" (.whole ·.toNat) p.seed ++ []))
      { iterations := some p.iterations, seed := p.seed.map some } := by
    refine .certain (by decide) (by decide) rfl ((Yields.of_ok (Yaml.asWord_whole _)).set rfl) ?_
    refine .optional (fun seed => { iterations := some p.iterations, seed := seed.map some })
      (by decide) (by decide) rfl rfl
      (fun seed _ => (Yields.of_ok (Yaml.asOption_whole seed)).set rfl) ?_
    exact .nil
  rw [List.append_nil] at hfills
  refine Yaml.yields_record hfills (by cases p.seed <;> simp [optionalMember]) ?_
  obtain ⟨iterations, seed⟩ := p
  cases seed <;> rfl

/-! ## Sessions -/

theorem yields_session {s : Session} (h : s.IsFinite) :
    Yields s.isAudible (Node.asRecord Session.shape (.ofJson s.toJson)) s.heard := by
  have hfills : Fills Session.shape s.isAudible {}
      (optionalMember "title" .string s.title ++
        (("variables", .array (s.table.map Variable.toJson)) :: ("formula", .string s.formula) ::
        (optionalMember "expectedUnit" .string s.expectedUnit ++
        [("sweep", s.sweep.toJson), ("monteCarlo", s.simulation.toJson)])))
      { title := s.title.map heardOption, table := some s.heard.table,
        formula := some s.heard.formula, expectedUnit := s.expectedUnit.map heardOption,
        sweep := some s.heard.sweep, simulation := some s.simulation } := by
    have haudible : s.isAudible =
        (s.table.all (·.texts.all Yaml.isAudible) && (isAudible s.formula && true)) := by
      simp [Session.isAudible]
    rw [haudible]
    refine .optional (fun title => { title := title.map heardOption }) (by decide) (by decide) rfl
      rfl (fun title _ => (Yields.of_ok (Yaml.asOption_string title)).set rfl) ?_
    refine .member (by decide) (by decide) rfl
      ((Yaml.yields_list fun v hv => yields_variable (h v hv)).set rfl) ?_
    refine .member (by decide) (by decide) rfl ((Yaml.yields_string _).set rfl) ?_
    refine .optional
      (fun unit =>
        { title := s.title.map heardOption, table := some s.heard.table,
          formula := some s.heard.formula, expectedUnit := unit.map heardOption })
      (by decide) (by decide) rfl rfl
      (fun unit _ => (Yields.of_ok (Yaml.asOption_string unit)).set rfl) ?_
    refine .certain (by decide) (by decide) rfl ((yields_sweepPlan _).set rfl) ?_
    exact .certain (by decide) (by decide) rfl ((yields_simulationPlan _).set rfl) .nil
  have hread := Yaml.yields_record hfills
    (by cases s.title <;> cases s.expectedUnit <;> simp [optionalMember]) (a := s.heard) (by
      obtain ⟨title, table, formula, expectedUnit, sweep, simulation⟩ := s
      cases title <;> cases expectedUnit <;> rfl)
  simpa [Session.toJson] using hread

/-! ## Documents -/

theorem fits_variable {v : Variable} (h : v.IsFinite) : Yaml.Fits 1 v.toJson := by
  have hmin : ∀ lo, v.min = some lo → lo.isFinite = true := fun lo hlo =>
    h lo (by simp [Variable.numbers, hlo])
  have hmax : ∀ hi, v.max = some hi → hi.isFinite = true := fun hi hhi =>
    h hi (by simp [Variable.numbers, hhi])
  refine Yaml.fits_object (List.cons_ne_nil _ _) (.append (.append (.append ?_ ?_) ?_) ?_)
  · refine .cons (by decide) (Yaml.fits_string _) ?_
    refine .cons (by decide) (Yaml.fits_string _) ?_
    refine .cons (by decide) (Yaml.fits_string _) ?_
    refine .cons (by decide) (Yaml.fits_string _) ?_
    refine .cons (by decide) (Yaml.fits_number (h _ List.mem_cons_self)) ?_
    exact .cons (by decide) (Yaml.fits_string _) .nil
  · exact .optional (by decide) fun lo hlo => Yaml.fits_number (hmin lo hlo)
  · exact .optional (by decide) fun hi hhi => Yaml.fits_number (hmax hi hhi)
  · exact .optional (by decide) fun _ _ => Yaml.fits_string _

theorem fits_sweepPlan (p : SweepPlan) : Yaml.Fits 1 p.toJson :=
  Yaml.fits_object (by simp) (.append (.optional (by decide) fun _ _ => Yaml.fits_string _)
    (.cons (by decide) (Yaml.fits_whole _) .nil))

theorem fits_simulationPlan (p : SimulationPlan) : Yaml.Fits 1 p.toJson :=
  Yaml.fits_object (List.cons_ne_nil _ _) (.cons (by decide) (Yaml.fits_whole _)
    (.optional (by decide) fun _ _ => Yaml.fits_whole _))

theorem fits_session {s : Session} (h : s.IsFinite) : Yaml.Fits 3 s.toJson := by
  have htable : Yaml.Fits 2 (.array (s.table.map Variable.toJson)) := by
    refine Yaml.fits_array fun json hjson => ?_
    obtain ⟨v, hv, rfl⟩ := List.mem_map.mp hjson
    exact ⟨⟨_, _, rfl⟩, fits_variable (h v hv)⟩
  refine Yaml.fits_object (by simp) (.append (.append (.append ?_ ?_) ?_) ?_)
  · exact .optional (by decide) fun _ _ => (Yaml.fits_string _).mono (by decide)
  · exact .cons (by decide) htable (.cons (by decide) ((Yaml.fits_string _).mono (by decide)) .nil)
  · exact .optional (by decide) fun _ _ => (Yaml.fits_string _).mono (by decide)
  · exact .cons (by decide) ((fits_sweepPlan _).mono (by decide))
      (.cons (by decide) ((fits_simulationPlan _).mono (by decide)) .nil)

/-- **A session is read back as it is heard**, unless a text that is required is heard as a word
    for nothing. -/
theorem Session.ofYaml_toYaml {s : Session} (h : s.IsFinite) :
    Session.ofYaml s.toYaml =
      if s.isAudible then accept s.heard.violation? s.heard else .error .yaml := by
  have hnode : Node.read? s.toYaml = some (.ofJson s.toJson) :=
    Yaml.read?_write (by simp) ((fits_session h).mono (by decide))
  have hrecord : Document.Format.asRecord Session.shape (Node.ofJson s.toJson) =
      if s.isAudible then .ok s.heard else .error .mismatched := yields_session h
  unfold Session.ofYaml
  rw [hnode, Option.map_some, hrecord]
  cases s.isAudible with
  | true => rfl
  | false => rfl

theorem Variable.heard_eq_iff {v : Variable} :
    v.heard = v ↔ ∀ text ∈ v.texts, Survives text.toList := by
  obtain ⟨id, symbol, name, description, value, unit, min, max, distribution⟩ := v
  simp only [Variable.heard, Variable.texts, Variable.mk.injEq, Yaml.heardText_eq_iff,
    List.forall_mem_cons, List.not_mem_nil, false_implies, implies_true, and_true, true_and]

theorem bind_heardOption_eq_iff {o : Option String} :
    o.bind heardOption = o ↔ ∀ text ∈ o.toList, Survives text.toList := by
  cases o with
  | none => simp
  | some text => simp [Yaml.heardOption_eq_iff]

theorem Session.heard_eq_iff {s : Session} :
    s.heard = s ↔ ∀ text ∈ s.texts, Survives text.toList := by
  have htable := List.map_inj_left (f := Variable.heard) (g := id) (l := s.table)
  rw [List.map_id] at htable
  obtain ⟨title, table, formula, expectedUnit, ⟨variableId, points⟩, simulation⟩ := s
  simp only [Session.heard, Session.texts, Session.mk.injEq, SweepPlan.mk.injEq, htable,
    Yaml.heardText_eq_iff, bind_heardOption_eq_iff, Variable.heard_eq_iff, id_eq,
    List.forall_mem_append, List.forall_mem_cons, and_true, List.mem_flatMap]
  constructor
  · rintro ⟨htitle, htexts, hformula, hunit, hid⟩
    exact ⟨⟨⟨htitle, fun text ⟨v, hv, htext⟩ => htexts v hv text htext⟩, hformula, hunit⟩, hid⟩
  · rintro ⟨⟨⟨htitle, htexts⟩, hformula, hunit⟩, hid⟩
    exact ⟨htitle, fun v hv text htext => htexts text ⟨v, hv, htext⟩, hformula, hunit, hid⟩

/-- What survives is heard. -/
theorem Session.isAudible_of_survives {s : Session}
    (h : ∀ text ∈ s.texts, Survives text.toList) : s.isAudible = true := by
  have haudible : ∀ text ∈ s.texts, Yaml.isAudible text = true := fun text htext =>
    (Yaml.heard_of_survives (h text htext)).2.1
  simp only [Session.texts, List.forall_mem_append, List.forall_mem_cons,
    List.mem_flatMap] at haudible
  obtain ⟨⟨⟨-, htexts⟩, hformula, -⟩, -⟩ := haudible
  rw [Session.isAudible, hformula, Bool.and_true, List.all_eq_true]
  exact fun v hv => List.all_eq_true.mpr fun text htext => htexts text ⟨v, hv, htext⟩

/-- A valid session whose texts survive is read back unchanged. -/
theorem Session.ofYaml_toYaml_of_survives {s : Session} (hvalid : s.violation? = none)
    (h : ∀ text ∈ s.texts, Survives text.toList) : Session.ofYaml s.toYaml = .ok s := by
  rw [Session.ofYaml_toYaml (Session.isFinite_of_valid hvalid), Session.isAudible_of_survives h,
    Session.heard_eq_iff.mpr h, hvalid]
  rfl

/-- So is a valid session whose texts fit on a line and do not end with a space. -/
theorem Session.ofYaml_toYaml_of_short {s : Session} (hvalid : s.violation? = none)
    (hsize : ∀ text ∈ s.texts, text.utf8ByteSize ≤ Yaml.lineWidth)
    (hlast : ∀ text ∈ s.texts, text.toList.getLast? ≠ some ' ') :
    Session.ofYaml s.toYaml = .ok s := by
  refine Session.ofYaml_toYaml_of_survives hvalid fun text htext => ?_
  refine Yaml.survives_of_short ?_ (hlast text htext)
  rw [String.ofList_toList]
  exact hsize text htext

/-- **A session is read back unchanged** exactly if it breaks no rule and all of its texts
    survive. -/
theorem Session.ofYaml_toYaml_eq_ok_iff (s : Session) :
    Session.ofYaml s.toYaml = .ok s ↔
      s.violation? = none ∧ ∀ text ∈ s.texts, Survives text.toList := by
  constructor
  · intro hread
    have hvalid := Session.valid_of_ofYaml hread
    refine ⟨hvalid, Session.heard_eq_iff.mp ?_⟩
    rw [Session.ofYaml_toYaml (Session.isFinite_of_valid hvalid)] at hread
    split at hread
    · exact (accept_eq_ok hread).2
    · exact absurd hread nofun
  · rintro ⟨hvalid, hsurvive⟩
    exact Session.ofYaml_toYaml_of_survives hvalid hsurvive

/-- A formula loses the space at its end, though the session is valid. -/
theorem formula_space_lost :
    let s : Session := { formula := "x " }
    s.violation? = none ∧ Session.ofYaml s.toYaml = .ok { s with formula := "x" } ∧
      Session.ofYaml s.toYaml ≠ .ok s := by
  intro s
  have hfinite : s.IsFinite := fun v hv => absurd hv List.not_mem_nil
  have haudible : s.isAudible = true := by decide
  have hheard : s.heard = { s with formula := "x" } := by
    have hformula : heardText "x " = "x" := by decide
    rw [Session.heard, hformula]
    rfl
  have hread : Session.ofYaml s.toYaml = .ok { s with formula := "x" } := by
    rw [Session.ofYaml_toYaml hfinite, hheard, haudible]
    rfl
  refine ⟨rfl, hread, fun h => ?_⟩
  rw [hread] at h
  exact absurd (congrArg Session.formula (Except.ok.inj h)) (by decide)

end Reckoner
