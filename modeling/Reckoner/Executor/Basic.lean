import Reckoner.Simulation.Basic

/-!
# `Reckoner.Executor.Basic` — where simulations run

A run is submitted under a generation, and its outcome comes back under the same one. What happens
in between is up to the executor.
-/

namespace Reckoner

/-- The number of a submission. It grows without bound: a counter of 64 bits, which would begin anew
    after `2 ^ 64` submissions, counts alike until then. -/
abbrev Generation := Nat

/-- The outcome of a run. -/
structure Response where
  generation : Generation
  outcome : Simulation.Outcome

/-- The operations of executors that live in a world `ω`. -/
structure Executor (ω : Type) where
  /-- Starts an executor. -/
  create : ω → ω
  /-- Hands a session over, unless it is refused. -/
  submit : Generation → Session → ω → Bool × ω
  /-- A finished run, without waiting. -/
  tryReceive : ω → Option Response × ω
  /-- A finished run, after waiting for it. -/
  receive : ω → Option Response × ω
  /-- Stops the executor. -/
  shutdown : ω → ω
  /-- How many runs can be received without waiting. -/
  backlog : ω → Nat
  /-- Receiving a run leaves fewer of them. -/
  backlog_lt : ∀ w r w', tryReceive w = (some r, w') → backlog w' < backlog w

end Reckoner
