import Reckoner.Executor.Deferred
import Reckoner.Proofs.Shell.Events

/-!
# `Reckoner.Proofs.Executor.Deferred` — a poll simulates everything that waits

A shell whose executor simulates on demand shows the outcome of its latest session after every poll.

## Contents
- **Numbers.** `sessions.zipIdx 1`: sessions with the generations they are submitted under.
- **The invariant.** `Waits`: the latest session waits, or its outcome is shown.
- **Runs.** `status_after_poll`.
-/

namespace Reckoner

/-! ## Numbers -/

section Numbers

variable {sessions : List Session} {s : Session} {g : Generation}

theorem le_length_of_numbered (h : (s, g) ∈ sessions.zipIdx 1) : g ≤ sessions.length := by
  have hlt : g < sessions.length + 1 := List.snd_lt_of_mem_zipIdx h
  exact Nat.le_of_lt_succ hlt

theorem getLast?_of_numbered (h : (s, sessions.length) ∈ sessions.zipIdx 1) :
    sessions.getLast? = some s := by
  have hindex := (List.mk_mem_zipIdx_iff_le_and_getElem?_sub.mp h).2
  rw [List.getLast?_eq_getElem?, hindex]

theorem numbered_append (h : (s, g) ∈ sessions.zipIdx 1) (more : List Session) :
    (s, g) ∈ (sessions ++ more).zipIdx 1 := by
  rw [List.zipIdx_append]
  exact List.mem_append_left _ h

theorem numbered_last (sessions : List Session) (s : Session) :
    (s, sessions.length + 1) ∈ (sessions ++ [s]).zipIdx 1 := by
  rw [List.zipIdx_append, Nat.add_comm]
  exact List.mem_append_right _ List.mem_cons_self

end Numbers

namespace Deferred

variable {simulate : Session → Simulation.Outcome} {sessions : List Session} {shell : Shell}
  {d : Deferred}

/-! ## The invariant -/

/-- What waits was started under its generation, and the latest session waits or is shown. -/
structure Waits (simulate : Session → Simulation.Outcome) (sessions : List Session) (shell : Shell)
    (d : Deferred) : Prop where
  counted : shell.generation = sessions.length
  numbered : ∀ p ∈ d.pending, (p.2, p.1) ∈ sessions.zipIdx 1
  isOpen : shell.hasExecutor = true → d.closed = false
  shown : shell.hasExecutor = true → (∃ s, (shell.generation, s) ∈ d.pending) ∨
    ∃ s, sessions.getLast? = some s ∧ shell.status = .done (simulate s)

namespace Waits

theorem empty : Waits simulate [] {} {} :=
  ⟨rfl, fun _ h => absurd h List.not_mem_nil, nofun, nofun⟩

/-- Simulating what waits longest. -/
theorem receiving (h : Waits simulate sessions shell d) :
    Waits simulate sessions (shell.receiving (d.tryReceive simulate)).1
      (shell.receiving (d.tryReceive simulate)).2 := by
  obtain ⟨pending, closed⟩ := d
  cases pending with
  | nil => exact h
  | cons p rest =>
      obtain ⟨g, s⟩ := p
      have hnumbered := h.numbered (g, s) List.mem_cons_self
      have hrest : ∀ p ∈ rest, (p.2, p.1) ∈ sessions.zipIdx 1 :=
        fun p hp => h.numbered p (List.mem_cons_of_mem _ hp)
      change Waits simulate sessions (shell.accept ⟨g, simulate s⟩) ⟨rest, closed⟩
      by_cases hg : g = shell.generation
      · -- the latest session is simulated now
        rw [Shell.accept_latest hg]
        rw [hg, h.counted] at hnumbered
        exact ⟨h.counted, hrest, h.isOpen, fun _ => .inr ⟨s, getLast?_of_numbered hnumbered, rfl⟩⟩
      · rw [Shell.accept_stale hg]
        refine ⟨h.counted, hrest, h.isOpen, fun hex => (h.shown hex).imp_left ?_⟩
        rintro ⟨s', hs'⟩
        exact ⟨s', (List.mem_cons.mp hs').resolve_left fun heq => hg (Prod.mk.inj heq).1.symm⟩

theorem look (h : Waits simulate sessions shell d) :
    Waits simulate sessions (shell.look (deferred simulate) d).1
      (shell.look (deferred simulate) d).2 := by
  unfold Shell.look
  split
  · exact h.receiving
  · exact h

/-- A session that is submitted to an open executor waits. -/
theorem submit (hcounted : shell.generation = sessions.length)
    (hnumbered : ∀ p ∈ d.pending, (p.2, p.1) ∈ sessions.zipIdx 1) (hopen : d.closed = false)
    (s : Session) (status : Status) :
    Waits simulate (sessions ++ [s]) ⟨true, shell.generation + 1, status⟩
      (d.submit (shell.generation + 1) s).2 := by
  simp only [Deferred.submit, hopen]
  refine ⟨by simp [hcounted], fun p hp => ?_, fun _ => rfl, fun _ => .inl ⟨s, by simp⟩⟩
  rcases List.mem_append.mp hp with hold | hnew
  · exact numbered_append (hnumbered p hold) [s]
  · rw [List.mem_singleton.mp hnew, hcounted]
    exact numbered_last sessions s

theorem start (h : Waits simulate sessions shell d) (s : Session) :
    Waits simulate (sessions ++ [s]) (shell.start (deferred simulate) s d).1
      (shell.start (deferred simulate) s d).2 := by
  unfold Shell.start
  split
  · rename_i hex
    exact submit h.counted h.numbered (h.isOpen hex) s _
  · exact submit h.counted (fun p hp => absurd hp List.not_mem_nil) rfl s _

theorem teardown (h : Waits simulate sessions shell d) :
    Waits simulate sessions (shell.teardown (deferred simulate) d).1
      (shell.teardown (deferred simulate) d).2 := by
  unfold Shell.teardown
  split
  · exact ⟨h.counted, fun p hp => absurd hp List.not_mem_nil, nofun, nofun⟩
  · exact ⟨h.counted, h.numbered, nofun, nofun⟩

/-- **All events,** none of them a change of the world. -/
theorem run {events : List (Shell.Event Deferred)}
    (hquiet : ∀ event ∈ events, ∀ change, event ≠ .drift change) :
    Waits simulate (events.filterMap Shell.Event.session?)
      (Shell.run (deferred simulate) events ({}, {})).1
      (Shell.run (deferred simulate) events ({}, {})).2 := by
  refine Shell.run_induction _ events (P := Waits simulate)
    (fun event hevent sessions c h => ?_) (c := ({}, {})) empty
  exact Shell.perform_induction (fun s _ _ h => h.start s) (fun _ _ h => h.look)
    (fun _ _ _ _ _ h => h.receiving) (fun _ _ h => h.teardown)
    (fun change hchange => absurd hchange (hquiet event hevent change)) h

end Waits

/-! ## Runs -/

/-- A poll leaves nothing waiting. -/
theorem pending_drain (shell : Shell) (d : Deferred) :
    (shell.drain (deferred simulate) d).2.pending = [] := by
  fun_induction Shell.drain (deferred simulate) shell d with
  | case1 shell d d' hnone =>
      obtain ⟨pending, closed⟩ := d
      cases pending with
      | nil => exact congrArg (·.2.pending) hnone.symm
      | cons p rest => exact absurd (Prod.mk.inj hnone).1 (Option.some_ne_none _)
  | case2 shell d r d' hsome ih => exact ih

/-- After a poll, a shell that has an executor shows the outcome of the latest session. -/
theorem status_after_poll {events : List (Shell.Event Deferred)}
    (hquiet : ∀ event ∈ events, ∀ change, event ≠ .drift change)
    (hex : (Shell.run (deferred simulate) events ({}, {})).1.hasExecutor = true) :
    ∃ s, (events.filterMap Shell.Event.session?).getLast? = some s ∧
      (Shell.run (deferred simulate) (events ++ [.poll]) ({}, {})).1.status =
        .done (simulate s) := by
  have hwaits : Waits simulate _ _ _ := Waits.run hquiet
  rw [Shell.run_append]
  generalize Shell.run (deferred simulate) events ({}, {}) = c at hex hwaits
  obtain ⟨shell, d⟩ := c
  have hpolled : Waits simulate _ _ _ := Shell.poll_induction (fun _ _ h => h.look) hwaits
  have hkept : (shell.poll (deferred simulate) d).1.hasExecutor = true :=
    (Shell.perform_hasExecutor .poll (shell, d)).trans hex
  have hempty : (shell.poll (deferred simulate) d).2.pending = [] := by
    rw [Shell.poll, if_pos hex]
    exact pending_drain shell d
  refine (hpolled.shown hkept).resolve_left ?_
  rintro ⟨s, hs⟩
  rw [hempty] at hs
  exact absurd hs List.not_mem_nil

end Deferred

end Reckoner
