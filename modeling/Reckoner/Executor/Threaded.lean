import Reckoner.Executor.Basic

/-!
# `Reckoner.Executor.Threaded` — runs on a thread of their own

A worker takes requests from one queue and puts outcomes into another. When several runs wait, only
the newest of them is simulated.

## Contents
- **State.** Both queues, and what the worker is about to do.
- **Steps.** `step`: what the worker does next; `settle` lets it go on until it waits.
- **Executor.** `threaded`.
-/

namespace Reckoner

/-! ## State -/

/-- What is sent to the worker. -/
inductive Request where
  | run (generation : Generation) (session : Session)
  | shutdown

/-- What the worker is about to do. -/
inductive Worker where
  /-- Wait for a request. -/
  | waiting
  /-- Look whether something newer than the run in hand is waiting. -/
  | gathering (generation : Generation) (session : Session)
  | simulating (generation : Generation) (session : Session)
  | sending (response : Response)
  /-- Nothing any more. -/
  | ended

/-- The two queues, the oldest entries first, and the worker between them. -/
structure Threaded where
  requests : List Request := []
  worker : Worker := .waiting
  responses : List Response := []

namespace Threaded

/-! ## Steps -/

/-- One step of the worker. It takes requests one by one, keeps the latest run it took, and begins to
    simulate it when no further request waits. A shutdown ends it, whatever it holds. -/
def step (simulate : Session → Simulation.Outcome) (t : Threaded) : Threaded :=
  match t.worker, t.requests with
  | .waiting, [] => t
  | .waiting, .run g s :: rest => { t with requests := rest, worker := .gathering g s }
  | .waiting, .shutdown :: rest => { t with requests := rest, worker := .ended }
  | .gathering _ _, .run g s :: rest => { t with requests := rest, worker := .gathering g s }
  | .gathering _ _, .shutdown :: rest => { t with requests := rest, worker := .ended }
  | .gathering g s, [] => { t with worker := .simulating g s }
  | .simulating g s, _ => { t with worker := .sending ⟨g, simulate s⟩ }
  | .sending r, _ => { t with worker := .waiting, responses := t.responses ++ [r] }
  | .ended, _ => t

/-- The number of steps from a point of the loop to the next wait, requests aside. -/
def Worker.remaining : Worker → Nat
  | .waiting | .ended => 0
  | .gathering _ _ => 3
  | .simulating _ _ => 2
  | .sending _ => 1

/-- The worker goes on until it waits for requests or has ended. -/
def settle (simulate : Session → Simulation.Outcome) (t : Threaded) : Threaded :=
  Nat.repeat (step simulate) (Worker.remaining t.worker + 4 * t.requests.length) t

/-! ## Executor -/

/-- Sends a run, unless the worker has ended. -/
def submit (g : Generation) (s : Session) (t : Threaded) : Bool × Threaded :=
  match t.worker with
  | .ended => (false, t)
  | _ => (true, { t with requests := t.requests ++ [.run g s] })

/-- The oldest outcome that was sent. -/
def tryReceive (t : Threaded) : Option Response × Threaded :=
  match t.responses with
  | [] => (none, t)
  | r :: rest => (some r, { t with responses := rest })

/-- The oldest outcome, after the worker has gone on. -/
def receive (simulate : Session → Simulation.Outcome) (t : Threaded) : Option Response × Threaded :=
  match t.responses with
  | [] => (t.settle simulate).tryReceive
  | r :: rest => (some r, { t with responses := rest })

/-- Asks the worker to end. -/
def shutdown (t : Threaded) : Threaded := { t with requests := t.requests ++ [.shutdown] }

theorem tryReceive_length {t t' : Threaded} {r : Response} (h : t.tryReceive = (some r, t')) :
    t'.responses.length < t.responses.length := by
  unfold tryReceive at h
  split at h
  · simp at h
  · rename_i hp
    simp only [Prod.mk.injEq] at h
    rw [hp, ← h.2]
    simp

end Threaded

/-- The executor with a worker. -/
def threaded (simulate : Session → Simulation.Outcome) : Executor Threaded where
  create _ := {}
  submit := Threaded.submit
  tryReceive := Threaded.tryReceive
  receive := Threaded.receive simulate
  shutdown := Threaded.shutdown
  backlog t := t.responses.length
  backlog_lt _ _ _ h := Threaded.tryReceive_length h

end Reckoner
