import Reckoner.Proofs.Executor.Deferred
import Reckoner.Proofs.Executor.Line
import Reckoner.Proofs.Shell.Freshness

/-!
# `Reckoner.Proofs.Executor.Latest` — the latest run is never lost

A shell and the worker of its executor take turns in any order. What the shell has received, what it
can receive, what the worker holds and what is asked of it form one trail of strictly increasing
generations, and as long as nobody shuts the executor down the latest run is at its end.

## Contents
- **Turns.** `Turn`: what the shell does and what the worker does.
- **The trail.** `delivered`, `trail` and `Genuine`.
- **The invariant.** `Tracked`, kept by every turn.
- **Runs.** `latest_never_lost`.
-/

namespace Reckoner.Threaded

open Shell (Call Event Submission recorded unrecorded numbering)

variable {simulate : Session → Simulation.Outcome}

/-! ## Turns -/

/-- One thing that the shell does, or one step of the worker, which may draw a random word. -/
inductive Turn where
  | start (session : Session)
  | poll
  | look
  | teardown
  | work (word : UInt64)

namespace Turn

def session? : Turn → Option Session
  | start session => some session
  | _ => none

/-- A turn, for a shell with a worker. -/
def event : Turn → Event Threaded
  | start session => .start session
  | poll => .poll
  | look => .look
  | teardown => .teardown
  | work word => .drift (step (Simulation.runDrawn word))

/-- A turn, for a shell that simulates on demand: there is nobody else to take turns. -/
def onDemand? : Turn → Option (Event Deferred)
  | start session => some (.start session)
  | poll => some .poll
  | look => some .look
  | teardown => some .teardown
  | work _ => none

end Turn

variable {turns : List Turn}

theorem sessions_event (turns : List Turn) :
    (turns.map Turn.event).filterMap Event.session? = turns.filterMap Turn.session? := by
  rw [List.filterMap_map]
  congr 1
  funext turn
  cases turn <;> rfl

theorem sessions_onDemand (turns : List Turn) :
    (turns.filterMap Turn.onDemand?).filterMap Event.session? = turns.filterMap Turn.session? := by
  rw [List.filterMap_filterMap]
  congr 1
  funext turn
  cases turn <;> rfl

/-- With a worker or without one, a shell has an executor at the same times. -/
theorem leaves_onDemand (turns : List Turn) (has : Bool) :
    (turns.filterMap Turn.onDemand?).foldl (fun has event => event.leaves has) has =
      (turns.map Turn.event).foldl (fun has event => event.leaves has) has := by
  induction turns generalizing has with
  | nil => rfl
  | cons turn turns ih => cases turn <;> exact ih _

/-- Without a teardown, a start is all it takes to have an executor. -/
theorem leaves_of_no_teardown (h : .teardown ∉ turns) (has : Bool) :
    (turns.map Turn.event).foldl (fun has event => event.leaves has) has =
      (has || !(turns.filterMap Turn.session?).isEmpty) := by
  induction turns generalizing has with
  | nil => simp
  | cons turn turns ih =>
      have hrest := ih (fun hmem => h (List.mem_cons_of_mem _ hmem))
      cases turn with
      | start session =>
          refine (hrest true).trans ?_
          simp [Turn.session?]
      | teardown => exact absurd List.mem_cons_self h
      | poll => exact hrest has
      | look => exact hrest has
      | work word => exact hrest has

/-! ## The trail -/

def response? : Call → Option Response
  | .deliver r => some r
  | _ => none

/-- What was delivered to the shell, the latest first. -/
def delivered (log : List Call) : List Response := log.filterMap response?

/-- All runs that are not superseded, the oldest first. -/
def trail (w : Threaded × List Call) : List Run :=
  ((delivered w.2).map runOfResponse).reverse ++ w.1.line

/-- A run belongs to the session that was started under its generation. -/
def Genuine (sessions : List Session) (run : Run) : Prop :=
  match run.stage with
  | .asked s => (s, run.generation) ∈ sessions.zipIdx 1
  | .answered o =>
    ∃ s word, (s, run.generation) ∈ sessions.zipIdx 1 ∧ o = Simulation.runDrawn word s

theorem Genuine.append {sessions : List Session} {run : Run} (h : Genuine sessions run)
    (more : List Session) : Genuine (sessions ++ more) run := by
  obtain ⟨g, stage⟩ := run
  cases stage with
  | asked s => exact numbered_append h more
  | answered o =>
      obtain ⟨s, word, hnumbered, ho⟩ := h
      exact ⟨s, word, numbered_append hnumbered more, ho⟩

theorem Genuine.le_length {sessions : List Session} {run : Run} (h : Genuine sessions run) :
    run.generation ≤ sessions.length := by
  obtain ⟨g, stage⟩ := run
  cases stage with
  | asked s => exact le_length_of_numbered h
  | answered o =>
      obtain ⟨s, word, hnumbered, -⟩ := h
      exact le_length_of_numbered hnumbered

/-! ## The invariant -/

/-- The runs on a trail are those of the sessions that were started, in their order. -/
structure Ordered (sessions : List Session) (runs : List Run) : Prop where
  genuine : ∀ run ∈ runs, Genuine sessions run
  increasing : (runs.map Run.generation).Pairwise (· < ·)

/-- The trail is in order; and as long as there is an executor it is live, the latest run is the last
    of the trail, and its outcome is shown as soon as it was delivered. -/
structure Tracked (sessions : List Session) (shell : Shell) (w : Threaded × List Call) : Prop where
  counted : shell.generation = sessions.length
  ordered : Ordered sessions (trail w)
  live : shell.hasExecutor = true → w.1.Live
  last : shell.hasExecutor = true →
    ((trail w).map Run.generation).getLast? = some shell.generation
  shown : shell.hasExecutor = true →
    shell.status = .running ∧ (∀ r ∈ delivered w.2, r.generation ≠ shell.generation) ∨
      ∃ r ∈ delivered w.2, r.generation = shell.generation ∧ shell.status = .done r.outcome

theorem Ordered.sublist {sessions : List Session} {runs fewer : List Run}
    (h : Ordered sessions runs) (hfewer : fewer.Sublist runs) : Ordered sessions fewer :=
  ⟨fun run hrun => h.genuine run (hfewer.subset hrun), h.increasing.sublist (hfewer.map _)⟩

/-- The next session is the last on the trail. -/
theorem Ordered.submit {sessions : List Session} {runs : List Run} (h : Ordered sessions runs)
    (s : Session) : Ordered (sessions ++ [s]) (runs ++ [⟨sessions.length + 1, .asked s⟩]) where
  genuine run hrun := by
    rcases List.mem_append.mp hrun with hold | hnew
    · exact (h.genuine run hold).append [s]
    · rw [List.mem_singleton.mp hnew]
      exact numbered_last sessions s
  increasing := by
    rw [List.map_append, List.pairwise_append]
    refine ⟨h.increasing, List.pairwise_singleton _ _, fun g hg g' hg' => ?_⟩
    obtain ⟨run, hrun, rfl⟩ := List.mem_map.mp hg
    rw [List.mem_singleton.mp hg']
    exact Nat.lt_succ_of_le (h.genuine run hrun).le_length

/-- A step of the worker keeps the order. -/
theorem Ordered.advance {sessions : List Session} {t : Threaded} {word : UInt64}
    {front before after : List Run} (h : Ordered sessions (front ++ before))
    (hstep : Advance (Simulation.runDrawn word) t before after) :
    Ordered sessions (front ++ after) where
  genuine run hrun := by
    rcases List.mem_append.mp hrun with hfront | hafter
    · exact h.genuine run (List.mem_append_left _ hfront)
    · rcases hstep.mem hafter with hold | ⟨s, hasked, hanswered⟩
      · exact h.genuine run (List.mem_append_right _ hold)
      · have hs : (s, run.generation) ∈ sessions.zipIdx 1 :=
          h.genuine _ (List.mem_append_right _ hasked)
        obtain ⟨g, stage⟩ := run
        obtain rfl : stage = _ := hanswered
        exact ⟨s, word, hs, rfl⟩
  increasing := by
    have hsorted := h.increasing
    rw [List.map_append] at hsorted ⊢
    exact hsorted.sublist (hstep.sublist.append_left _)

namespace Tracked

variable {sessions : List Session} {shell : Shell} {t : Threaded} {log : List Call}

theorem empty : Tracked [] {} ({}, []) where
  counted := rfl
  ordered := ⟨fun _ h => absurd h List.not_mem_nil, .nil⟩
  live := nofun
  last := nofun
  shown := nofun

/-- A step of the worker. -/
theorem work (h : Tracked sessions shell (t, log)) (word : UInt64) :
    Tracked sessions shell (t.step (Simulation.runDrawn word), log) where
  counted := h.counted
  ordered := h.ordered.advance (advance_step _ t)
  live hex := (h.live hex).step _
  last hex := ((advance_step _ t).getLast (h.live hex) _).trans (h.last hex)
  shown := h.shown

/-- What is delivered stays on the trail. -/
theorem deliver {r : Response} {t' : Threaded} (h : Tracked sessions shell (t, log))
    (hreceive : t.tryReceive = (some r, t')) :
    Tracked sessions (shell.accept r) (t', .deliver r :: log) := by
  obtain ⟨hline, hlive⟩ := tryReceive_line hreceive
  have htrail : trail (t', .deliver r :: log) = trail (t, log) := by
    change ((runOfResponse r :: (delivered log).map runOfResponse).reverse) ++ t'.line = _
    rw [List.reverse_cons, List.append_assoc, List.singleton_append, ← hline]
    rfl
  by_cases hg : r.generation = shell.generation
  · rw [Shell.accept_latest hg]
    exact ⟨h.counted, htrail ▸ h.ordered, fun hex => hlive (h.live hex),
      fun hex => htrail ▸ h.last hex, fun _ => .inr ⟨r, List.mem_cons_self, hg, rfl⟩⟩
  · rw [Shell.accept_stale hg]
    refine ⟨h.counted, htrail ▸ h.ordered, fun hex => hlive (h.live hex),
      fun hex => htrail ▸ h.last hex, fun hex => ?_⟩
    rcases h.shown hex with ⟨hrunning, hnone⟩ | ⟨r', hr', hlatest, hdone⟩
    · refine .inl ⟨hrunning, fun r' hr' => ?_⟩
      rcases List.mem_cons.mp hr' with rfl | hold
      · exact hg
      · exact hnone r' hold
    · exact .inr ⟨r', List.mem_cons_of_mem _ hr', hlatest, hdone⟩

theorem look (h : Tracked sessions shell (t, log)) :
    Tracked sessions (Shell.look (recorded (threaded simulate)) shell (t, log)).1
      (Shell.look (recorded (threaded simulate)) shell (t, log)).2 := by
  unfold Shell.look
  split
  · change Tracked sessions (shell.receiving (Shell.recordAnswer log t.tryReceive)).1
      (shell.receiving (Shell.recordAnswer log t.tryReceive)).2
    cases hreceive : t.tryReceive with
    | mk r? t' =>
        cases r? with
        | none =>
            obtain rfl := tryReceive_none hreceive
            exact h
        | some r => exact h.deliver hreceive
  · exact h

/-- A session is submitted to a live executor. -/
theorem submit (hcounted : shell.generation = sessions.length)
    (hordered : Ordered sessions (trail (t, log))) (hlive : t.Live) (s : Session) :
    Tracked (sessions ++ [s])
      ⟨true, shell.generation + 1,
        if (t.submit (shell.generation + 1) s).1 then .running else .done Shell.unavailable⟩
      ((t.submit (shell.generation + 1) s).2,
        .submit ⟨shell.generation + 1, s, (t.submit (shell.generation + 1) s).1⟩ :: log) := by
  obtain ⟨haccepted, hkept, hline⟩ := submit_line hlive (shell.generation + 1) s
  have htrail : trail ((t.submit (shell.generation + 1) s).2,
      .submit ⟨shell.generation + 1, s, (t.submit (shell.generation + 1) s).1⟩ :: log) =
      trail (t, log) ++ [⟨shell.generation + 1, .asked s⟩] := by
    change ((delivered log).map runOfResponse).reverse ++
      (t.submit (shell.generation + 1) s).2.line = _
    rw [hline, ← List.append_assoc]
    rfl
  refine ⟨by simp [hcounted], ?_, fun _ => hkept, fun _ => ?_, fun _ => .inl ⟨?_, ?_⟩⟩
  · rw [htrail, hcounted]
    exact hordered.submit s
  · rw [htrail, List.map_append, List.getLast?_append]
    rfl
  · simp only [haccepted, if_true]
  · -- what was delivered so far is older
    intro r hr
    have hmem : runOfResponse r ∈ trail (t, log) := by
      refine List.mem_append_left _ (List.mem_reverse.mpr (List.mem_map_of_mem ?_))
      exact hr
    have hle : r.generation ≤ sessions.length := (hordered.genuine _ hmem).le_length
    rw [← hcounted] at hle
    exact Nat.ne_of_lt (Nat.lt_succ_of_le hle)

theorem start (h : Tracked sessions shell (t, log)) (s : Session) :
    Tracked (sessions ++ [s]) (Shell.start (recorded (threaded simulate)) s shell (t, log)).1
      (Shell.start (recorded (threaded simulate)) s shell (t, log)).2 := by
  unfold Shell.start
  split
  · rename_i hex
    exact submit h.counted h.ordered (h.live hex) s
  · -- a new executor: only what was delivered is left of the trail
    refine submit h.counted (h.ordered.sublist ?_) live_empty s
    exact (List.nil_sublist _).append_left _

theorem teardown (h : Tracked sessions shell (t, log)) :
    Tracked sessions (Shell.teardown (recorded (threaded simulate)) shell (t, log)).1
      (Shell.teardown (recorded (threaded simulate)) shell (t, log)).2 := by
  have htrail : trail (t.shutdown, .shutdown :: log) = trail (t, log) := by
    change ((delivered log).map runOfResponse).reverse ++ t.shutdown.line = _
    rw [shutdown_line]
    rfl
  unfold Shell.teardown
  split
  · exact ⟨h.counted, htrail ▸ h.ordered, nofun, nofun, nofun⟩
  · exact ⟨h.counted, h.ordered, nofun, nofun, nofun⟩

/-- **One turn.** -/
theorem perform {c : Shell × Threaded × List Call} (h : Tracked sessions c.1 c.2) (turn : Turn) :
    Tracked (sessions ++ turn.event.recorded.session?.toList)
      (turn.event.recorded.perform (recorded (threaded simulate)) c).1
      (turn.event.recorded.perform (recorded (threaded simulate)) c).2 := by
  refine Shell.perform_induction (P := Tracked) (fun s _ w h => h.start s) (fun _ w h => h.look)
    ?_ (fun _ w h => h.teardown) ?_ h
  · intro left hawait
    cases turn <;> exact absurd hawait nofun
  · rintro change hchange shell w h
    cases turn with
    | work word =>
        obtain rfl := Event.drift.inj hchange
        exact h.work word
    | start s => exact absurd hchange nofun
    | poll => exact absurd hchange nofun
    | look => exact absurd hchange nofun
    | teardown => exact absurd hchange nofun

/-- **All turns.** -/
theorem run (simulate : Session → Simulation.Outcome) (turns : List Turn) :
    Tracked (turns.filterMap Turn.session?)
      (Shell.run (recorded (threaded simulate)) ((turns.map Turn.event).map Event.recorded)
        ({}, {}, [])).1
      (Shell.run (recorded (threaded simulate)) ((turns.map Turn.event).map Event.recorded)
        ({}, {}, [])).2 := by
  have hrun := Shell.run_induction (recorded (threaded simulate))
    ((turns.map Turn.event).map Event.recorded) (P := Tracked)
    (fun event hevent sessions c h => by
      obtain ⟨plain, hplain, rfl⟩ := List.mem_map.mp hevent
      obtain ⟨turn, -, rfl⟩ := List.mem_map.mp hplain
      exact h.perform turn) (c := ({}, {}, [])) empty
  rwa [Shell.sessions_recorded, sessions_event, List.nil_append] at hrun

end Tracked

/-! ## Runs -/

/-- A run has this generation. -/
def isOf (g : Generation) (run : Run) : Bool := run.generation == g

/-- The runs of a generation on a trail, place by place. -/
theorem countP_trail (g : Generation) (t : Threaded) (log : List Call) :
    (trail (t, log)).countP (isOf g) =
      (t.requests.filterMap runOfRequest?).countP (isOf g) + (held t.worker).countP (isOf g) +
        (t.responses.map runOfResponse).countP (isOf g) +
        ((delivered log).map runOfResponse).countP (isOf g) := by
  simp only [trail, line, List.countP_append, List.countP_reverse]
  omega

/-- The last generation of an ordered trail is there once. -/
theorem countP_of_last {sessions : List Session} {runs : List Run} {g : Generation}
    (h : Ordered sessions runs) (hlast : (runs.map Run.generation).getLast? = some g) :
    runs.countP (isOf g) = 1 := by
  have hnodup : (runs.map Run.generation).Nodup := h.increasing.imp Nat.ne_of_lt
  have hone := hnodup.count (a := g)
  rwa [if_pos (List.mem_of_getLast? hlast), List.count, List.countP_map] at hone

theorem countP_responses_eq_zero {g : Generation} {responses : List Response} :
    (responses.map runOfResponse).countP (isOf g) = 0 ↔ ∀ r ∈ responses, r.generation ≠ g := by
  rw [List.countP_map, List.countP_eq_zero]
  exact ⟨fun h r hr heq => h r hr (beq_iff_eq.mpr heq), fun h r hr heq => h r hr (eq_of_beq heq)⟩

theorem mem_trail_of_response {t : Threaded} {log : List Call} {r : Response}
    (hr : r ∈ delivered log ++ t.responses) : runOfResponse r ∈ trail (t, log) := by
  rcases List.mem_append.mp hr with hdelivered | hwaiting
  · exact List.mem_append_left _ (List.mem_reverse.mpr (List.mem_map_of_mem hdelivered))
  · exact List.mem_append_right _ (List.mem_append_left _ (List.mem_map_of_mem hwaiting))

/-- Responses come in the order of their generations. -/
theorem pairwise_responses {sessions : List Session} {t : Threaded} {log : List Call}
    (h : Ordered sessions (trail (t, log))) :
    (((delivered log).reverse ++ t.responses).map Response.generation).Pairwise (· < ·) := by
  have hsublist : (((delivered log).reverse ++ t.responses).map runOfResponse).Sublist
      (trail (t, log)) := by
    rw [List.map_append, List.map_reverse]
    exact (List.sublist_append_left _ _).append_left _
  have hsorted := h.increasing.sublist (hsublist.map Run.generation)
  rwa [List.map_map] at hsorted

/-- A session with a seed needs no random word. -/
theorem runDrawn_of_seed {s : Session} (h : s.simulation.seed.isSome = true) (word word' : UInt64) :
    Simulation.runDrawn word s = Simulation.runDrawn word' s := by
  obtain ⟨seed, hseed⟩ := Option.isSome_iff_exists.mp h
  simp [Simulation.runDrawn, hseed]

/-- On demand, the same turns and a poll bring the outcome of the latest session. -/
theorem status_onDemand {simulate : Session → Simulation.Outcome} {turns : List Turn}
    (h : (turns.map Turn.event).foldl (fun has event => event.leaves has) false = true) :
    ∃ s, (turns.filterMap Turn.session?).getLast? = some s ∧
      (Shell.run (deferred simulate) (turns.filterMap Turn.onDemand? ++ [.poll])
        ({}, {})).1.status = .done (simulate s) := by
  have hquiet : ∀ event ∈ turns.filterMap Turn.onDemand?, ∀ change, event ≠ .drift change := by
    rintro event hevent change rfl
    obtain ⟨turn, -, hturn⟩ := List.mem_filterMap.mp hevent
    cases turn <;> exact absurd hturn nofun
  rw [← leaves_onDemand] at h
  obtain ⟨s, hlast, hstatus⟩ := Deferred.status_after_poll hquiet
    ((Shell.run_hasExecutor _ ({}, {})).trans h)
  exact ⟨s, sessions_onDemand turns ▸ hlast, hstatus⟩

/-- **The latest run is never lost.** Whatever turns a shell and a worker take: every outcome that
    the worker sends is that of the very session submitted under its generation; outcomes come in
    strictly increasing order; as long as nobody shuts the executor down, the latest submission is in
    exactly one of the requests, the worker's hands, the responses and what the shell has taken, and
    the shell shows that a run is under way until it has taken it; and when both queues are empty and
    the worker waits, the shell shows the outcome of the latest session, which is, for a session with
    a seed, what a shell that simulates on demand shows after the same turns and a poll. -/
theorem latest_never_lost (simulate : Session → Simulation.Outcome) (turns : List Turn) :
    let events := turns.map Turn.event
    let c := Shell.run (recorded (threaded simulate)) (events.map Event.recorded) ({}, {}, [])
    let sessions := turns.filterMap Turn.session?
    let g := c.1.generation
    let t := c.2.1
    let log := c.2.2
    unrecorded c = Shell.run (threaded simulate) events ({}, {}) ∧
    numbering log = sessions.zipIdx 1 ∧
    (∀ r ∈ delivered log ++ t.responses, ∃ s word,
      (s, r.generation) ∈ numbering log ∧ r.outcome = Simulation.runDrawn word s) ∧
    (((delivered log).reverse ++ t.responses).map Response.generation).Pairwise (· < ·) ∧
    (sessions ≠ [] → .teardown ∉ turns → c.1.hasExecutor = true) ∧
    (c.1.hasExecutor = true →
      (t.requests.filterMap runOfRequest?).countP (isOf g) + (held t.worker).countP (isOf g) +
        (t.responses.map runOfResponse).countP (isOf g) +
        ((delivered log).map runOfResponse).countP (isOf g) = 1 ∧
      (c.1.status = .running ↔ ((delivered log).map runOfResponse).countP (isOf g) = 0)) ∧
    (c.1.hasExecutor = true → t.requests = [] → t.responses = [] → t.worker = .waiting →
      ∃ s word, sessions.getLast? = some s ∧ c.1.status = .done (Simulation.runDrawn word s) ∧
        (s.simulation.seed.isSome = true → ∀ word',
          (Shell.run (deferred (Simulation.runDrawn word'))
            (turns.filterMap Turn.onDemand? ++ [.poll]) ({}, {})).1.status = c.1.status)) := by
  intro events c sessions g t log
  have hplain : unrecorded c = Shell.run (threaded simulate) events ({}, {}) :=
    Shell.unrecorded_run events ({}, {}, [])
  have htracked : Tracked sessions c.1 (t, log) := Tracked.run simulate turns
  have hnumbered : numbering log = sessions.zipIdx 1 := by
    have hfresh := (Shell.Fresh.run (threaded simulate) events {}).numbered
    rwa [sessions_event] at hfresh
  have hexecutor : c.1.hasExecutor = events.foldl (fun has event => event.leaves has) false :=
    (congrArg (·.1.hasExecutor) hplain).trans (Shell.run_hasExecutor events ({}, {}))
  have hgenuine : ∀ r ∈ delivered log ++ t.responses, ∃ s word,
      (s, r.generation) ∈ numbering log ∧ r.outcome = Simulation.runDrawn word s := by
    intro r hr
    rw [hnumbered]
    exact htracked.ordered.genuine _ (mem_trail_of_response hr)
  have hplaces : c.1.hasExecutor = true → _ := fun hex =>
    (countP_trail g t log).symm.trans (countP_of_last htracked.ordered (htracked.last hex))
  refine ⟨hplain, hnumbered, hgenuine, ?_, ?_, fun hex => ⟨hplaces hex, ?_⟩, ?_⟩
  · exact pairwise_responses htracked.ordered
  · intro hsessions hteardown
    rw [hexecutor, leaves_of_no_teardown hteardown]
    simp only [Bool.false_or, Bool.not_eq_true', List.isEmpty_eq_false_iff]
    exact hsessions
  · rw [countP_responses_eq_zero]
    rcases htracked.shown hex with ⟨hrunning, hnone⟩ | ⟨r, hr, hlatest, hdone⟩
    · exact iff_of_true hrunning hnone
    · refine iff_of_false (fun hrunning => ?_) fun hnone => hnone r hr hlatest
      rw [hdone] at hrunning
      cases hrunning
  · intro hex hrequests hresponses hworker
    have hdelivered : ((delivered log).map runOfResponse).countP (isOf g) = 1 := by
      have hone := hplaces hex
      rw [hrequests, hresponses, hworker] at hone
      simpa [held] using hone
    rcases htracked.shown hex with ⟨-, hnone⟩ | ⟨r, hr, hlatest, hdone⟩
    · rw [countP_responses_eq_zero.mpr hnone] at hdelivered
      exact absurd hdelivered Nat.zero_ne_one
    · obtain ⟨s, word, hs, houtcome⟩ := hgenuine r (List.mem_append_left _ hr)
      rw [hnumbered, hlatest, htracked.counted] at hs
      have hlast : sessions.getLast? = some s := getLast?_of_numbered hs
      rw [houtcome] at hdone
      refine ⟨s, word, hlast, hdone, fun hseed word' => ?_⟩
      obtain ⟨s', hlast', hstatus⟩ := status_onDemand (hexecutor.symm.trans hex)
      obtain rfl : s' = s := Option.some.inj (hlast'.symm.trans hlast)
      rw [hstatus, hdone, runDrawn_of_seed hseed word' word]

end Reckoner.Threaded
