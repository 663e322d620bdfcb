import Reckoner.Executor.Threaded

/-!
# `Reckoner.Proofs.Executor.Line` — the runs that a threaded executor holds

Requests, worker and responses form one line: a run enters it at the end as a request, becomes a
response in the worker's hands, and leaves it at the front. A step of the worker changes the line in
few ways, and all that is said about executors is said about these.

## Contents
- **Runs.** `Run`, and the `line` of an executor.
- **One step.** `Advance`: what a step can do to the line; `advance_step`.
- **Live executors.** `Live`: nothing asks the worker to end.
- **What the shell does.** Submitting, receiving and shutting down, in terms of the line.
-/

namespace Reckoner.Threaded

/-! ## Runs -/

/-- How far a run has got. -/
inductive Stage where
  | asked (session : Session)
  | answered (outcome : Simulation.Outcome)

/-- A run on its way. -/
structure Run where
  generation : Generation
  stage : Stage

/-- A run that a request asks for. -/
def runOfRequest? : Request → Option Run
  | .run g s => some ⟨g, .asked s⟩
  | .shutdown => none

def runOfResponse (r : Response) : Run := ⟨r.generation, .answered r.outcome⟩

/-- The run in the worker's hands. -/
def held : Worker → List Run
  | .waiting | .ended => []
  | .gathering g s | .simulating g s => [⟨g, .asked s⟩]
  | .sending r => [runOfResponse r]

/-- All runs between the shell and itself, the oldest first. -/
def line (t : Threaded) : List Run :=
  t.responses.map runOfResponse ++ (held t.worker ++ t.requests.filterMap runOfRequest?)

/-! ## Live executors -/

/-- The worker goes on, and nothing asks it to end. -/
structure Live (t : Threaded) : Prop where
  noShutdown : .shutdown ∉ t.requests
  notEnded : t.worker ≠ .ended

theorem live_empty : Live {} := ⟨List.not_mem_nil, nofun⟩

/-! ## One step -/

/-- What a step of the worker can do to the line: nothing; drop a run that is not the last; drop
    any run of an executor that is not live; answer a run. -/
inductive Advance (simulate : Session → Simulation.Outcome) (t : Threaded) :
    List Run → List Run → Prop where
  | stay (line : List Run) : Advance simulate t line line
  | supersede (older : List Run) (dropped next : Run) (newer : List Run) :
      Advance simulate t (older ++ dropped :: next :: newer) (older ++ next :: newer)
  | abandon (hlive : ¬ t.Live) (older : List Run) (dropped : Run) (newer : List Run) :
      Advance simulate t (older ++ dropped :: newer) (older ++ newer)
  | answer (older : List Run) (g : Generation) (s : Session) (newer : List Run) :
      Advance simulate t (older ++ ⟨g, .asked s⟩ :: newer)
        (older ++ ⟨g, .answered (simulate s)⟩ :: newer)

variable {simulate : Session → Simulation.Outcome} {t : Threaded}

/-- **One step.** -/
theorem advance_step (simulate : Session → Simulation.Outcome) (t : Threaded) :
    Advance simulate t t.line (t.step simulate).line := by
  obtain ⟨requests, worker, responses⟩ := t
  cases worker with
  | waiting =>
      cases requests with
      | nil => exact .stay _
      | cons request rest => cases request <;> exact .stay _
  | gathering g s =>
      cases requests with
      | nil => exact .stay _
      | cons request rest =>
          cases request with
          | run g' s' => exact .supersede _ ⟨g, .asked s⟩ ⟨g', .asked s'⟩ _
          | shutdown =>
              refine .abandon (fun hlive => ?_) _ ⟨g, .asked s⟩ _
              exact hlive.noShutdown List.mem_cons_self
  | simulating g s => exact .answer _ g s _
  | sending r =>
      have hsent : (step simulate ⟨requests, .sending r, responses⟩).line =
          line ⟨requests, .sending r, responses⟩ := by
        simp [line, step, held]
      rw [hsent]
      exact .stay _
  | ended => exact .stay _

/-- The worker of a live executor does not end. -/
theorem Live.step (h : t.Live) (simulate : Session → Simulation.Outcome) :
    (t.step simulate).Live := by
  obtain ⟨requests, worker, responses⟩ := t
  obtain ⟨hrequests, hworker⟩ := h
  cases worker with
  | waiting =>
      cases requests with
      | nil => exact ⟨hrequests, nofun⟩
      | cons request rest =>
          cases request with
          | run g s => exact ⟨fun hmem => hrequests (List.mem_cons_of_mem _ hmem), nofun⟩
          | shutdown => exact absurd List.mem_cons_self hrequests
  | gathering g s =>
      cases requests with
      | nil => exact ⟨hrequests, nofun⟩
      | cons request rest =>
          cases request with
          | run g' s' => exact ⟨fun hmem => hrequests (List.mem_cons_of_mem _ hmem), nofun⟩
          | shutdown => exact absurd List.mem_cons_self hrequests
  | simulating g s => exact ⟨hrequests, nofun⟩
  | sending r => exact ⟨hrequests, nofun⟩
  | ended => exact absurd rfl hworker

namespace Advance

variable {before after : List Run}

/-- Generations only disappear. -/
theorem sublist (h : Advance simulate t before after) :
    (after.map Run.generation).Sublist (before.map Run.generation) := by
  cases h with
  | stay => exact .refl _
  | supersede older dropped next newer =>
      exact (((List.sublist_cons_self dropped _).append_left older).map _)
  | abandon _ older dropped newer =>
      exact (((List.sublist_cons_self dropped newer).append_left older).map _)
  | answer older g s newer => simp

/-- A run is as it was, or it has been answered. -/
theorem mem (h : Advance simulate t before after) {run : Run} (hrun : run ∈ after) :
    run ∈ before ∨ ∃ s, ⟨run.generation, .asked s⟩ ∈ before ∧ run.stage = .answered (simulate s) := by
  cases h with
  | stay => exact .inl hrun
  | supersede older dropped next newer =>
      exact .inl (((List.sublist_cons_self dropped _).append_left older).subset hrun)
  | abandon _ older dropped newer =>
      exact .inl (((List.sublist_cons_self dropped newer).append_left older).subset hrun)
  | answer older g s newer =>
      rcases List.mem_append.mp hrun with hold | hrest
      · exact .inl (List.mem_append_left _ hold)
      · rcases List.mem_cons.mp hrest with rfl | hnew
        · exact .inr ⟨s, List.mem_append_right _ List.mem_cons_self, rfl⟩
        · exact .inl (List.mem_append_right _ (List.mem_cons_of_mem _ hnew))

/-- The last run of a live executor stays, whatever stands in front of the line. -/
theorem getLast (h : Advance simulate t before after) (hlive : t.Live) (front : List Run) :
    ((front ++ after).map Run.generation).getLast? =
      ((front ++ before).map Run.generation).getLast? := by
  cases h with
  | stay => rfl
  | supersede older dropped next newer => simp [List.getLast?_append, List.getLast?_cons]
  | abandon hdead => exact absurd hlive hdead
  | answer older g s newer => simp

end Advance

/-! ## What the shell does -/

/-- A live executor accepts a run, which is then the last. -/
theorem submit_line (h : t.Live) (g : Generation) (s : Session) :
    (t.submit g s).1 = true ∧ (t.submit g s).2.Live ∧
      (t.submit g s).2.line = t.line ++ [⟨g, .asked s⟩] := by
  obtain ⟨requests, worker, responses⟩ := t
  obtain ⟨hrequests, hworker⟩ := h
  have hlive : Live ⟨requests ++ [.run g s], worker, responses⟩ := by
    refine ⟨fun hmem => ?_, hworker⟩
    rcases List.mem_append.mp hmem with hold | hnew
    · exact hrequests hold
    · exact absurd (List.mem_singleton.mp hnew) nofun
  have hline : line ⟨requests ++ [.run g s], worker, responses⟩ =
      line ⟨requests, worker, responses⟩ ++ [⟨g, .asked s⟩] := by
    simp [line, runOfRequest?]
  cases worker with
  | ended => exact absurd rfl hworker
  | waiting => exact ⟨rfl, hlive, hline⟩
  | gathering g' s' => exact ⟨rfl, hlive, hline⟩
  | simulating g' s' => exact ⟨rfl, hlive, hline⟩
  | sending r => exact ⟨rfl, hlive, hline⟩

/-- What is received was first in the line. -/
theorem tryReceive_line {r : Response} {t' : Threaded} (h : t.tryReceive = (some r, t')) :
    t.line = runOfResponse r :: t'.line ∧ (t.Live → t'.Live) := by
  obtain ⟨requests, worker, responses⟩ := t
  cases responses with
  | nil => exact absurd (Prod.mk.inj h).1 nofun
  | cons r' rest =>
      obtain ⟨hr, rfl⟩ := Prod.mk.inj h
      obtain rfl := Option.some.inj hr
      exact ⟨rfl, fun hlive => ⟨hlive.noShutdown, hlive.notEnded⟩⟩

theorem tryReceive_none {t' : Threaded} (h : t.tryReceive = (none, t')) : t' = t := by
  obtain ⟨requests, worker, responses⟩ := t
  cases responses with
  | nil => exact (Prod.mk.inj h).2.symm
  | cons r rest => exact absurd (Prod.mk.inj h).1 nofun

/-- A request to end is no run. -/
theorem shutdown_line : t.shutdown.line = t.line := by
  simp [line, shutdown, runOfRequest?]

end Reckoner.Threaded
