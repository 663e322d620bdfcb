import Reckoner.Executor.Basic

/-!
# `Reckoner.Shell` — the simulation behind a results panel

A shell starts an executor when the first run is submitted and keeps it until teardown. Every run
has a generation of its own; an outcome of an older generation is dropped, so that a slow run never
hides a newer one.

## Contents
- **State.** `Status` and `Shell`.
- **Operations.** `start`, `poll`, `await`, `wait` and `teardown`.
-/

namespace Reckoner

/-! ## State -/

/-- What a results panel shows. -/
inductive Status where
  | idle
  | running
  | done (outcome : Simulation.Outcome)

/-- A run is under way. -/
def Status.isRunning : Status → Bool
  | .running => true
  | _ => false

/-- A shell: whether it has an executor, the latest generation, and what it shows. -/
structure Shell where
  hasExecutor : Bool := false
  generation : Generation := 0
  status : Status := .idle

namespace Shell

variable {ω : Type}

/-! ## Operations -/

/-- The outcome of a run that was refused. -/
def unavailable : Simulation.Outcome := .failure "monte carlo executor is unavailable" []

/-- Submits a session; any run still under way is superseded. -/
def start (ex : Executor ω) (session : Session) (shell : Shell) (w : ω) : Shell × ω :=
  let generation := shell.generation + 1
  let w := if shell.hasExecutor then w else ex.create w
  let (accepted, w) := ex.submit generation session w
  (⟨true, generation, if accepted then .running else .done unavailable⟩, w)

/-- Shows an outcome, if it is that of the latest run. -/
def accept (shell : Shell) (r : Response) : Shell :=
  if r.generation == shell.generation then { shell with status := .done r.outcome } else shell

/-- Takes all finished runs. -/
def drain (ex : Executor ω) (shell : Shell) (w : ω) : Shell × ω :=
  match _h : ex.tryReceive w with
  | (none, w') => (shell, w')
  | (some r, w') => drain ex (shell.accept r) w'
termination_by ex.backlog w
decreasing_by exact ex.backlog_lt _ _ _ (by assumption)

/-- Looks for finished runs, without waiting. -/
def poll (ex : Executor ω) (shell : Shell) (w : ω) : Shell × ω :=
  if shell.hasExecutor then drain ex shell w else (shell, w)

/-- Looks for finished runs and waits for one as long as time is left. The list tells how much is
    left before each wait; behind its end the time is over. A wait that begins at the very end and
    brings nothing is the last. -/
def await (ex : Executor ω) : List Nat → Shell → ω → Shell × ω
  | [], shell, w => poll ex shell w
  | left :: later, shell, w =>
    let (shell, w) := poll ex shell w
    if shell.status.isRunning && shell.hasExecutor then
      match ex.receive w with
      | (some r, w) => await ex later (shell.accept r) w
      | (none, w) => if left == 0 then (shell, w) else await ex later shell w
    else (shell, w)

/-- The longest wait for one run, in milliseconds. -/
def longestWait : Nat := 50

/-- Looks for finished runs and waits at most so many times for one. -/
def wait (ex : Executor ω) (times : Nat) (shell : Shell) (w : ω) : Shell × ω :=
  await ex (List.replicate times longestWait) shell w

/-- Stops the executor and shows nothing. -/
def teardown (ex : Executor ω) (shell : Shell) (w : ω) : Shell × ω :=
  (⟨false, shell.generation, .idle⟩, if shell.hasExecutor then ex.shutdown w else w)

end Shell

end Reckoner
