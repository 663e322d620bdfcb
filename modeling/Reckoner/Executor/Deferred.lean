import Reckoner.Executor.Basic

/-!
# `Reckoner.Executor.Deferred` — runs on demand

Submitted sessions wait in a queue; each is simulated when its outcome is asked for.
-/

namespace Reckoner

/-- The sessions that wait, and whether new ones are refused. -/
structure Deferred where
  pending : List (Generation × Session) := []
  closed : Bool := false

namespace Deferred

/-- Puts a session into the queue. -/
def submit (g : Generation) (s : Session) (d : Deferred) : Bool × Deferred :=
  if d.closed then (false, d) else (true, { d with pending := d.pending ++ [(g, s)] })

/-- Simulates the session that waits longest. -/
def tryReceive (simulate : Session → Simulation.Outcome) (d : Deferred) :
    Option Response × Deferred :=
  match d.pending with
  | [] => (none, d)
  | (g, s) :: rest => (some ⟨g, simulate s⟩, { d with pending := rest })

/-- Forgets the queue and refuses new sessions. -/
def shutdown (_ : Deferred) : Deferred := ⟨[], true⟩

theorem tryReceive_length {simulate : Session → Simulation.Outcome} {d d' : Deferred}
    {r : Response} (h : d.tryReceive simulate = (some r, d')) :
    d'.pending.length < d.pending.length := by
  unfold tryReceive at h
  split at h
  · simp at h
  · rename_i hp
    simp only [Prod.mk.injEq] at h
    rw [hp, ← h.2]
    simp

end Deferred

/-- The executor that simulates on demand. -/
def deferred (simulate : Session → Simulation.Outcome) : Executor Deferred where
  create _ := {}
  submit := Deferred.submit
  tryReceive := Deferred.tryReceive simulate
  receive := Deferred.tryReceive simulate
  shutdown := Deferred.shutdown
  backlog d := d.pending.length
  backlog_lt _ _ _ h := Deferred.tryReceive_length h

end Reckoner
