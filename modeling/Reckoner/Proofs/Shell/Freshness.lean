import Reckoner.Proofs.Shell.Events

/-!
# `Reckoner.Proofs.Shell.Freshness` — no stale outcome is shown

What a shell shows is explained by the record of its calls from the latest submission on, whatever
its executors answer and when: they may refuse any run, and deliver any outcome late, again, or
under the generation of another run.

## Contents
- **Reading a record.** `submissions`, `deliveredSince` and `numbering`.
- **The invariant.** `Explains`, what the record says of a status, and `Fresh`.
- **Idle shells.** Without an executor nothing is shown.
- **Runs.** `stale_never_visible`.
-/

namespace Reckoner.Shell

variable {ω : Type} {ex : Executor ω}

/-! ## Reading a record -/

def Call.submission? : Call → Option Submission
  | .submit s => some s
  | _ => none

/-- What was submitted, the latest first. -/
def submissions (log : List Call) : List Submission := log.filterMap Call.submission?

/-- What was delivered after the latest submission. -/
def deliveredSince : List Call → List Response
  | [] => []
  | .submit _ :: _ => []
  | .deliver r :: log => r :: deliveredSince log
  | .create :: log | .shutdown :: log => deliveredSince log

/-- The sessions that were submitted, with their generations, in the order of the submissions. -/
def numbering (log : List Call) : List (Session × Generation) :=
  ((submissions log).map fun s => (s.session, s.generation)).reverse

theorem numbering_submit (s : Submission) (log : List Call) :
    numbering (.submit s :: log) = numbering log ++ [(s.session, s.generation)] :=
  List.reverse_cons

/-- Generations that follow a numbering from 1 are in strict order. -/
theorem increasing_of_numbering {log : List Call} {sessions : List Session}
    (h : numbering log = sessions.zipIdx 1) :
    (submissions log).Pairwise fun later earlier => earlier.generation < later.generation := by
  have hsorted : ((numbering log).map Prod.snd).Pairwise (· < ·) := by
    rw [h, List.zipIdx_map_snd]
    exact List.pairwise_lt_range'
  rw [numbering, List.map_reverse, List.pairwise_reverse, List.map_map] at hsorted
  exact List.pairwise_map.mp hsorted

/-! ## The invariant -/

/-- The record explains a status at a generation. -/
def Explains (log : List Call) (g : Generation) : Status → Prop
  | .idle => True
  | .running =>
    (∃ session, (submissions log).head? = some ⟨g, session, true⟩) ∧
      ∀ r ∈ deliveredSince log, r.generation ≠ g
  | .done o =>
    ∃ session accepted, (submissions log).head? = some ⟨g, session, accepted⟩ ∧
      (⟨g, o⟩ ∈ deliveredSince log ∨ accepted = false ∧ o = unavailable)

/-- An explained status other than `idle` is that of the latest submission. -/
theorem Explains.latest {log : List Call} {g : Generation} {status : Status}
    (h : Explains log g status) (hidle : status ≠ .idle) :
    ∃ session accepted, (submissions log).head? = some ⟨g, session, accepted⟩ := by
  cases status with
  | idle => exact absurd rfl hidle
  | running =>
      obtain ⟨⟨session, hlatest⟩, -⟩ := h
      exact ⟨session, true, hlatest⟩
  | done o =>
      obtain ⟨session, accepted, hlatest, -⟩ := h
      exact ⟨session, accepted, hlatest⟩

/-- The record explains what the shell shows; the shell shows something as long as it has an
    executor; and the sessions that were started are submitted under the generations from 1 on. -/
structure Fresh (sessions : List Session) (shell : Shell) (log : List Call) : Prop where
  explained : Explains log shell.generation shell.status
  idle_iff : shell.status = .idle ↔ shell.hasExecutor = false
  numbered : numbering log = sessions.zipIdx 1
  counted : shell.generation = sessions.length

namespace Fresh

variable {sessions : List Session} {shell : Shell} {log : List Call}

theorem empty : Fresh [] {} [] := ⟨trivial, ⟨fun _ => rfl, fun _ => rfl⟩, rfl, rfl⟩

/-- A shell takes what is delivered: a response of the latest generation is shown, and another one
    makes no difference. -/
theorem deliver (h : Fresh sessions shell log) (hex : shell.hasExecutor = true) (r : Response) :
    Fresh sessions (shell.accept r) (.deliver r :: log) := by
  have hidle : shell.status ≠ .idle := fun hidle => by simp [h.idle_iff.mp hidle] at hex
  obtain ⟨session, accepted, hlatest⟩ := h.explained.latest hidle
  by_cases hg : r.generation = shell.generation
  · rw [accept_latest hg]
    refine ⟨⟨session, accepted, hlatest, .inl ?_⟩, by simp [hex], h.numbered, h.counted⟩
    rw [← hg]
    exact List.mem_cons_self
  · rw [accept_stale hg]
    refine ⟨?_, h.idle_iff, h.numbered, h.counted⟩
    have hexplained := h.explained
    cases hstatus : shell.status with
    | idle => exact absurd hstatus hidle
    | running =>
        rw [hstatus] at hexplained
        refine ⟨hexplained.1, fun r' hr' => ?_⟩
        rcases List.mem_cons.mp hr' with rfl | hr'
        · exact hg
        · exact hexplained.2 r' hr'
    | done o =>
        rw [hstatus] at hexplained
        obtain ⟨session, accepted, hlatest, hmem | hrefused⟩ := hexplained
        · exact ⟨session, accepted, hlatest, .inl (List.mem_cons_of_mem _ hmem)⟩
        · exact ⟨session, accepted, hlatest, .inr hrefused⟩

/-- Whatever an executor answers is taken in. -/
theorem receiving (h : Fresh sessions shell log) (hex : shell.hasExecutor = true)
    (answer : Option Response × ω) :
    Fresh sessions (shell.receiving (recordAnswer log answer)).1
      (shell.receiving (recordAnswer log answer)).2.2 := by
  obtain ⟨_ | r, w⟩ := answer
  · exact h
  · exact h.deliver hex r

theorem look {w : ω} (h : Fresh sessions shell log) :
    Fresh sessions (look (recorded ex) shell (w, log)).1
      (look (recorded ex) shell (w, log)).2.2 := by
  unfold Shell.look
  split
  · rename_i hex
    exact h.receiving hex (ex.tryReceive w)
  · exact h

/-- After a submission nothing has been delivered yet. -/
theorem submit (hnumbered : numbering log = sessions.zipIdx 1)
    (hcounted : shell.generation = sessions.length) (session : Session) (accepted : Bool) :
    Fresh (sessions ++ [session])
      ⟨true, shell.generation + 1, if accepted then .running else .done unavailable⟩
      (.submit ⟨shell.generation + 1, session, accepted⟩ :: log) where
  explained := by
    cases accepted with
    | false => exact ⟨session, false, rfl, .inr ⟨rfl, rfl⟩⟩
    | true => exact ⟨⟨session, rfl⟩, fun r hr => absurd hr List.not_mem_nil⟩
  idle_iff := by cases accepted <;> simp
  numbered := by
    rw [numbering_submit, hnumbered, hcounted, List.zipIdx_append, Nat.add_comm 1]
    rfl
  counted := by rw [hcounted, List.length_append, List.length_singleton]

theorem start (h : Fresh sessions shell log) (session : Session) (w : ω) :
    Fresh (sessions ++ [session]) (start (recorded ex) session shell (w, log)).1
      (start (recorded ex) session shell (w, log)).2.2 := by
  cases hex : shell.hasExecutor with
  | false =>
      have hnumbered : numbering (.create :: log) = sessions.zipIdx 1 := h.numbered
      simpa [Shell.start, hex, recorded] using submit hnumbered h.counted session
        (ex.submit (shell.generation + 1) session (ex.create w)).1
  | true =>
      simpa [Shell.start, hex, recorded] using submit h.numbered h.counted session
        (ex.submit (shell.generation + 1) session w).1

theorem teardown (h : Fresh sessions shell log) (w : ω) :
    Fresh sessions (teardown (recorded ex) shell (w, log)).1
      (teardown (recorded ex) shell (w, log)).2.2 := by
  refine ⟨trivial, ⟨fun _ => rfl, fun _ => rfl⟩, ?_, h.counted⟩
  unfold Shell.teardown
  split <;> exact h.numbered

/-- **One event.** -/
theorem perform (ex : Executor ω) {c : Shell × ω × List Call} (h : Fresh sessions c.1 c.2.2)
    (event : Event ω) :
    Fresh (sessions ++ event.recorded.session?.toList) (event.recorded.perform (recorded ex) c).1
      (event.recorded.perform (recorded ex) c).2.2 := by
  refine perform_induction (P := fun sessions shell (w : ω × List Call) => Fresh sessions shell w.2)
    (fun session shell w h => h.start session w.1) (fun shell w h => h.look) ?_
    (fun shell w h => h.teardown w.1) ?_ h
  · intro left _ shell w hex h
    exact h.receiving hex (ex.receive w.1)
  · rintro change hchange shell w h
    cases event with
    | drift change' =>
        obtain rfl := Event.drift.inj hchange
        exact h
    | start session => exact absurd hchange nofun
    | poll => exact absurd hchange nofun
    | look => exact absurd hchange nofun
    | await left => exact absurd hchange nofun
    | teardown => exact absurd hchange nofun

/-- **All events.** -/
theorem run (ex : Executor ω) (events : List (Event ω)) (w : ω) :
    Fresh (events.filterMap Event.session?)
      (run (recorded ex) (events.map Event.recorded) ({}, w, [])).1
      (run (recorded ex) (events.map Event.recorded) ({}, w, [])).2.2 := by
  have hrun := run_induction (recorded ex) (events.map Event.recorded)
    (P := fun sessions shell w => Fresh sessions shell w.2)
    (fun event hevent sessions c h => by
      obtain ⟨event, -, rfl⟩ := List.mem_map.mp hevent
      exact h.perform ex event) (c := ({}, w, [])) empty
  rwa [sessions_recorded, List.nil_append] at hrun

end Fresh

/-! ## Idle shells -/

/-- Nothing but a start wakes a shell that has no executor. -/
theorem perform_idle {event : Event ω} (hevent : event.session? = none) {g : Generation}
    {c : Shell × ω} (h : c.1 = ⟨false, g, .idle⟩) : (event.perform ex c).1 = ⟨false, g, .idle⟩ := by
  obtain ⟨shell, w⟩ := c
  have hlook : ∀ (shell : Shell) (w : ω), shell = ⟨false, g, .idle⟩ →
      (look ex shell w).1 = ⟨false, g, .idle⟩ := by
    rintro shell w rfl
    rfl
  cases event with
  | start session => exact absurd hevent nofun
  | poll => exact poll_induction hlook h
  | look => exact hlook shell w h
  | await left =>
      refine await_induction hlook (fun shell w hex h => ?_) h
      rw [h] at hex
      exact absurd hex nofun
  | teardown =>
      obtain rfl : shell = _ := h
      rfl
  | drift change => exact h

theorem run_idle (ex : Executor ω) {events : List (Event ω)} (hevents : ∀ event ∈ events, event.session? = none)
    {g : Generation} {c : Shell × ω} (h : c.1 = ⟨false, g, .idle⟩) :
    (run ex events c).1 = ⟨false, g, .idle⟩ := by
  induction events generalizing c with
  | nil => exact h
  | cons event events ih =>
      exact ih (fun e he => hevents e (List.mem_cons_of_mem _ he))
        (perform_idle (hevents event List.mem_cons_self) h)

/-- After a teardown and until the next start nothing is shown. -/
theorem idle_after_teardown (ex : Executor ω) (before : List (Event ω)) {after : List (Event ω)}
    (hafter : ∀ event ∈ after, event.session? = none) (c : Shell × ω) :
    (run ex (before ++ .teardown :: after) c).1.status = .idle := by
  rw [run_append]
  have hidle := run_idle ex hafter (c := Event.perform ex .teardown (run ex before c)) rfl
  exact congrArg Shell.status hidle

/-! ## Runs -/

/-- **No stale outcome is shown.** Whatever executors there are and whatever happens to a shell:
    recording the calls changes nothing; an outcome is shown only if it was delivered under the
    generation of the latest start and after that start, or if that start was refused; a run is under
    way only if the latest submission was accepted and nothing has been delivered under its generation
    since; the sessions that are started get the generations from 1 on, across all teardowns; and
    from a teardown to the next start nothing is shown. -/
theorem stale_never_visible (ex : Executor ω) (w : ω) (events : List (Event ω)) :
    let c := run (recorded ex) (events.map Event.recorded) ({}, w, [])
    let g := c.1.generation
    let log := c.2.2
    unrecorded c = run ex events ({}, w) ∧
    (∀ o, c.1.status = .done o →
      ∃ session accepted, (submissions log).head? = some ⟨g, session, accepted⟩ ∧
        (⟨g, o⟩ ∈ deliveredSince log ∨ accepted = false ∧ o = unavailable)) ∧
    (c.1.status = .running →
      (∃ session, (submissions log).head? = some ⟨g, session, true⟩) ∧
        ∀ r ∈ deliveredSince log, r.generation ≠ g) ∧
    numbering log = (events.filterMap Event.session?).zipIdx 1 ∧
    g = (events.filterMap Event.session?).length ∧
    (submissions log).Pairwise (fun later earlier => earlier.generation < later.generation) ∧
    ∀ before after, events = before ++ .teardown :: after →
      (∀ event ∈ after, event.session? = none) → c.1.status = .idle := by
  intro c g log
  have hfresh : Fresh (events.filterMap Event.session?) c.1 log := Fresh.run ex events w
  have hplain : unrecorded c = run ex events ({}, w) := unrecorded_run events ({}, w, [])
  refine ⟨hplain, fun o ho => ?_, fun hrunning => ?_, hfresh.numbered, hfresh.counted,
    increasing_of_numbering hfresh.numbered, ?_⟩
  · have hexplained := hfresh.explained
    rw [ho] at hexplained
    exact hexplained
  · have hexplained := hfresh.explained
    rw [hrunning] at hexplained
    exact hexplained
  · rintro before after rfl hafter
    have hidle := idle_after_teardown ex before hafter ({}, w)
    rw [← hplain] at hidle
    exact hidle

end Reckoner.Shell
