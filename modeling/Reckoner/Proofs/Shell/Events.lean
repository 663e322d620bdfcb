import Reckoner.Shell

/-!
# `Reckoner.Proofs.Shell.Events` — what happens to a shell

A shell is started, polled, awaited and torn down in any order, and between these the world may
change as it likes. Everything that passes between the shell and its executors can be recorded
without changing it.

## Contents
- **Deliveries.** `receiving`: what one answer of an executor does to a shell; `poll_induction` and
  `await_induction`: what every delivery preserves, `poll` and `await` preserve.
- **Events.** `Event`, `Event.perform` and `run`, with `perform_induction` and `run_induction`.
- **Executors.** `run_hasExecutor`: when a shell has one.
- **Records.** `Call`, `recorded` and `unrecorded_run`.
-/

namespace Reckoner.Shell

variable {ω : Type} {ex : Executor ω}

/-! ## Deliveries -/

/-- The shell after an executor was asked for a finished run. -/
def receiving (shell : Shell) : Option Response × ω → Shell × ω
  | (none, w) => (shell, w)
  | (some r, w) => (shell.accept r, w)

@[simp] theorem receiving_none (shell : Shell) (w : ω) :
    shell.receiving (none, w) = (shell, w) := rfl

@[simp] theorem receiving_some (shell : Shell) (r : Response) (w : ω) :
    shell.receiving (some r, w) = (shell.accept r, w) := rfl

/-- One round of a poll. -/
def look (ex : Executor ω) (shell : Shell) (w : ω) : Shell × ω :=
  if shell.hasExecutor then shell.receiving (ex.tryReceive w) else (shell, w)

@[simp] theorem accept_hasExecutor (shell : Shell) (r : Response) :
    (shell.accept r).hasExecutor = shell.hasExecutor := by
  unfold accept
  split <;> rfl

@[simp] theorem accept_generation (shell : Shell) (r : Response) :
    (shell.accept r).generation = shell.generation := by
  unfold accept
  split <;> rfl

theorem accept_latest {shell : Shell} {r : Response} (h : r.generation = shell.generation) :
    shell.accept r = { shell with status := .done r.outcome } := by
  rw [accept, if_pos (beq_iff_eq.mpr h)]

theorem accept_stale {shell : Shell} {r : Response} (h : r.generation ≠ shell.generation) :
    shell.accept r = shell := by
  rw [accept, if_neg (fun heq => h (eq_of_beq heq))]

variable {P : Shell → ω → Prop}

/-- What every round of a poll preserves, a poll preserves. -/
theorem poll_induction (hlook : ∀ shell w, P shell w → P (look ex shell w).1 (look ex shell w).2)
    {shell : Shell} {w : ω} (h : P shell w) : P (poll ex shell w).1 (poll ex shell w).2 := by
  unfold poll
  split
  · rename_i hex
    fun_induction drain ex shell w with
    | case1 shell w w' hnone => simpa [look, hex, hnone] using hlook shell w h
    | case2 shell w r w' hsome ih =>
        have hnext : P (shell.accept r) w' := by simpa [look, hex, hsome] using hlook shell w h
        exact ih hnext ((accept_hasExecutor shell r).trans hex)
  · exact h

/-- What every round of a poll and every wait for one run preserve, `await` preserves. -/
theorem await_induction (hlook : ∀ shell w, P shell w → P (look ex shell w).1 (look ex shell w).2)
    (hreceive : ∀ shell w, shell.hasExecutor = true → P shell w →
      P (shell.receiving (ex.receive w)).1 (shell.receiving (ex.receive w)).2)
    {left : List Nat} {shell : Shell} {w : ω} (h : P shell w) :
    P (await ex left shell w).1 (await ex left shell w).2 := by
  induction left generalizing shell w with
  | nil => exact poll_induction hlook h
  | cons left later ih =>
      have hpoll := poll_induction hlook h
      unfold await
      generalize poll ex shell w = c at hpoll
      obtain ⟨shell, w⟩ := c
      dsimp only at hpoll ⊢
      split
      · rename_i hwaits
        have hreceived := hreceive shell w (Bool.and_eq_true_iff.mp hwaits).2 hpoll
        split
        · rename_i r w' hsome
          rw [hsome] at hreceived
          exact ih hreceived
        · rename_i w' hnone
          rw [hnone] at hreceived
          split
          · exact hreceived
          · exact ih hreceived
      · exact hpoll

/-! ## Events -/

/-- What can happen to a shell, and around it. -/
inductive Event (ω : Type) where
  | start (session : Session)
  | poll
  /-- One round of a poll; the world may change before the next one. -/
  | look
  | await (left : List Nat)
  | teardown
  /-- The world changes by itself. -/
  | drift (change : ω → ω)

/-- The session that an event submits. -/
def Event.session? : Event ω → Option Session
  | .start session => some session
  | _ => none

def Event.perform (ex : Executor ω) : Event ω → Shell × ω → Shell × ω
  | .start session, (shell, w) => shell.start ex session w
  | .poll, (shell, w) => shell.poll ex w
  | .look, (shell, w) => shell.look ex w
  | .await left, (shell, w) => Shell.await ex left shell w
  | .teardown, (shell, w) => shell.teardown ex w
  | .drift change, (shell, w) => (shell, change w)

/-- One event after the other. -/
def run (ex : Executor ω) (events : List (Event ω)) (c : Shell × ω) : Shell × ω :=
  events.foldl (fun c event => event.perform ex c) c

theorem run_cons (ex : Executor ω) (event : Event ω) (events : List (Event ω)) (c : Shell × ω) :
    run ex (event :: events) c = run ex events (event.perform ex c) := rfl

theorem run_append (ex : Executor ω) (before after : List (Event ω)) (c : Shell × ω) :
    run ex (before ++ after) c = run ex after (run ex before c) := List.foldl_append

section Induction

variable {P : List Session → Shell → ω → Prop} {sessions : List Session}

/-- What one event preserves, given what each of its parts preserves. -/
theorem perform_induction {event : Event ω}
    (hstart : ∀ session shell w, P sessions shell w →
      P (sessions ++ [session]) (start ex session shell w).1 (start ex session shell w).2)
    (hlook : ∀ shell w, P sessions shell w →
      P sessions (look ex shell w).1 (look ex shell w).2)
    (hreceive : ∀ left, event = .await left → ∀ shell w, shell.hasExecutor = true →
      P sessions shell w →
      P sessions (shell.receiving (ex.receive w)).1 (shell.receiving (ex.receive w)).2)
    (hteardown : ∀ shell w, P sessions shell w →
      P sessions (teardown ex shell w).1 (teardown ex shell w).2)
    (hdrift : ∀ change, event = .drift change → ∀ shell w, P sessions shell w →
      P sessions shell (change w))
    {c : Shell × ω} (h : P sessions c.1 c.2) :
    P (sessions ++ event.session?.toList) (event.perform ex c).1 (event.perform ex c).2 := by
  obtain ⟨shell, w⟩ := c
  cases event with
  | start session => exact hstart session shell w h
  | poll =>
      change P (sessions ++ []) _ _
      rw [List.append_nil]
      exact poll_induction hlook h
  | look =>
      change P (sessions ++ []) _ _
      rw [List.append_nil]
      exact hlook shell w h
  | await left =>
      change P (sessions ++ []) _ _
      rw [List.append_nil]
      exact await_induction hlook (hreceive left rfl) h
  | teardown =>
      change P (sessions ++ []) _ _
      rw [List.append_nil]
      exact hteardown shell w h
  | drift change =>
      change P (sessions ++ []) _ _
      rw [List.append_nil]
      exact hdrift change rfl shell w h

/-- What every event preserves, all of them preserve. -/
theorem run_induction (ex : Executor ω) (events : List (Event ω))
    (hperform : ∀ event ∈ events, ∀ sessions (c : Shell × ω), P sessions c.1 c.2 →
      P (sessions ++ event.session?.toList) (event.perform ex c).1 (event.perform ex c).2)
    {c : Shell × ω} (h : P sessions c.1 c.2) :
    P (sessions ++ events.filterMap Event.session?) (run ex events c).1 (run ex events c).2 := by
  induction events generalizing sessions c with
  | nil => rwa [List.filterMap_nil, List.append_nil]
  | cons event events ih =>
      have hrest := ih (fun e he => hperform e (List.mem_cons_of_mem _ he))
        (hperform event List.mem_cons_self sessions c h)
      rw [List.append_assoc] at hrest
      cases hsession : event.session? with
      | none => simpa [run_cons, List.filterMap_cons, hsession] using hrest
      | some session => simpa [run_cons, List.filterMap_cons, hsession] using hrest

end Induction

/-! ## Executors -/

/-- Whether a shell has an executor after an event, given whether it had one. -/
def Event.leaves : Event ω → Bool → Bool
  | .start _, _ => true
  | .teardown, _ => false
  | _, has => has

theorem receiving_hasExecutor (shell : Shell) (answer : Option Response × ω) :
    (shell.receiving answer).1.hasExecutor = shell.hasExecutor := by
  obtain ⟨_ | r, w⟩ := answer
  · rfl
  · exact accept_hasExecutor shell r

theorem perform_hasExecutor (event : Event ω) (c : Shell × ω) :
    (event.perform ex c).1.hasExecutor = event.leaves c.1.hasExecutor := by
  obtain ⟨shell, w⟩ := c
  have hlook : ∀ (other : Shell) (w : ω), other.hasExecutor = shell.hasExecutor →
      (look ex other w).1.hasExecutor = shell.hasExecutor := by
    intro other w hother
    unfold look
    split
    · exact (receiving_hasExecutor other _).trans hother
    · exact hother
  cases event with
  | start session => rfl
  | poll => exact poll_induction hlook rfl
  | look => exact hlook shell w rfl
  | await left =>
      refine await_induction hlook (fun other w _ hother => ?_) rfl
      exact (receiving_hasExecutor other _).trans hother
  | teardown => rfl
  | drift change => rfl

/-- Whether there is an executor depends on the events alone. -/
theorem run_hasExecutor (events : List (Event ω)) (c : Shell × ω) :
    (run ex events c).1.hasExecutor =
      events.foldl (fun has event => event.leaves has) c.1.hasExecutor := by
  induction events generalizing c with
  | nil => rfl
  | cons event events ih => rw [run_cons, ih, perform_hasExecutor, List.foldl_cons]

/-! ## Records -/

/-- A session that was handed to an executor, and whether it was accepted. -/
structure Submission where
  generation : Generation
  session : Session
  accepted : Bool

/-- What passes between a shell and its executors. -/
inductive Call where
  | create
  | submit (submission : Submission)
  /-- The shell asks for a finished run and gets one. -/
  | deliver (response : Response)
  | shutdown

/-- An answer, with the record of it. -/
def recordAnswer (log : List Call) : Option Response × ω → Option Response × ω × List Call
  | (none, w) => (none, w, log)
  | (some r, w) => (some r, w, .deliver r :: log)

theorem eq_of_recordAnswer {log : List Call} {answer : Option Response × ω} {r? : Option Response}
    {w : ω × List Call} (h : recordAnswer log answer = (r?, w)) : answer = (r?, w.1) := by
  obtain ⟨_ | r, v⟩ := answer <;> obtain ⟨rfl, rfl⟩ := Prod.mk.inj h <;> rfl

/-- The same executor, with a record of all calls beside its world, the latest call first. -/
def recorded (ex : Executor ω) : Executor (ω × List Call) where
  create w := (ex.create w.1, .create :: w.2)
  submit g session w :=
    let (accepted, w') := ex.submit g session w.1
    (accepted, w', .submit ⟨g, session, accepted⟩ :: w.2)
  tryReceive w := recordAnswer w.2 (ex.tryReceive w.1)
  receive w := recordAnswer w.2 (ex.receive w.1)
  shutdown w := (ex.shutdown w.1, .shutdown :: w.2)
  backlog w := ex.backlog w.1
  backlog_lt _ _ _ h := ex.backlog_lt _ _ _ (eq_of_recordAnswer h)

/-- The same event in a world with a record; what the world does by itself is not recorded. -/
def Event.recorded : Event ω → Event (ω × List Call)
  | .start session => .start session
  | .poll => .poll
  | .look => .look
  | .await left => .await left
  | .teardown => .teardown
  | .drift change => .drift fun w => (change w.1, w.2)

theorem sessions_recorded (events : List (Event ω)) :
    (events.map Event.recorded).filterMap Event.session? = events.filterMap Event.session? := by
  rw [List.filterMap_map]
  congr 1
  funext event
  cases event <;> rfl

/-- A configuration without its record. -/
def unrecorded (c : Shell × ω × List Call) : Shell × ω := (c.1, c.2.1)

@[simp] theorem unrecorded_receiving (shell : Shell) (log : List Call)
    (answer : Option Response × ω) :
    unrecorded (shell.receiving (recordAnswer log answer)) = shell.receiving answer := by
  obtain ⟨_ | r, w⟩ := answer <;> rfl

theorem unrecorded_look (shell : Shell) (w : ω × List Call) :
    unrecorded (look (recorded ex) shell w) = look ex shell w.1 := by
  unfold look
  split
  · exact unrecorded_receiving shell w.2 (ex.tryReceive w.1)
  · rfl

theorem drain_none {shell : Shell} {w w' : ω} (h : ex.tryReceive w = (none, w')) :
    drain ex shell w = (shell, w') := by
  unfold drain
  split
  · rename_i hnone
    rw [h] at hnone
    exact congrArg (Prod.mk shell) (Prod.mk.inj hnone).2.symm
  · rename_i hsome
    rw [h] at hsome
    exact absurd (Prod.mk.inj hsome).1.symm (Option.some_ne_none _)

theorem drain_some {shell : Shell} {w w' : ω} {r : Response} (h : ex.tryReceive w = (some r, w')) :
    drain ex shell w = drain ex (shell.accept r) w' := by
  rw [drain]
  split
  · rename_i hnone
    rw [h] at hnone
    exact absurd (Prod.mk.inj hnone).1 (Option.some_ne_none _)
  · rename_i hsome
    rw [h] at hsome
    obtain ⟨hr, rfl⟩ := Prod.mk.inj hsome
    obtain rfl := Option.some.inj hr
    rfl

theorem unrecorded_drain (shell : Shell) (w : ω × List Call) :
    unrecorded (drain (recorded ex) shell w) = drain ex shell w.1 := by
  fun_induction drain (recorded ex) shell w with
  | case1 shell w w' hnone => exact (drain_none (eq_of_recordAnswer hnone)).symm
  | case2 shell w r w' hsome ih =>
      rw [drain_some (eq_of_recordAnswer hsome)]
      exact ih

theorem unrecorded_poll (shell : Shell) (w : ω × List Call) :
    unrecorded (poll (recorded ex) shell w) = poll ex shell w.1 := by
  unfold poll
  split
  · exact unrecorded_drain shell w
  · rfl

theorem unrecorded_await (left : List Nat) (shell : Shell) (w : ω × List Call) :
    unrecorded (await (recorded ex) left shell w) = await ex left shell w.1 := by
  induction left generalizing shell w with
  | nil => exact unrecorded_poll shell w
  | cons left later ih =>
      unfold await
      rw [← unrecorded_poll]
      generalize poll (recorded ex) shell w = c
      obtain ⟨shell, w, log⟩ := c
      by_cases hwaits : (shell.status.isRunning && shell.hasExecutor) = true
      · simp only [unrecorded, hwaits, if_true, recorded]
        generalize ex.receive w = answer
        obtain ⟨_ | r, w⟩ := answer
        · simp only [recordAnswer]
          split
          · rfl
          · exact ih shell (w, log)
        · exact ih (shell.accept r) (w, .deliver r :: log)
      · simp only [unrecorded, hwaits]
        rfl

theorem unrecorded_perform (event : Event ω) (c : Shell × ω × List Call) :
    unrecorded (event.recorded.perform (recorded ex) c) = event.perform ex (unrecorded c) := by
  obtain ⟨shell, w⟩ := c
  cases event with
  | start session =>
      obtain ⟨_ | _, generation, status⟩ := shell <;> rfl
  | poll => exact unrecorded_poll shell w
  | look => exact unrecorded_look shell w
  | await left => exact unrecorded_await left shell w
  | teardown =>
      obtain ⟨_ | _, generation, status⟩ := shell <;> rfl
  | drift change => rfl

/-- A record changes nothing. -/
theorem unrecorded_run (events : List (Event ω)) (c : Shell × ω × List Call) :
    unrecorded (run (recorded ex) (events.map Event.recorded) c) = run ex events (unrecorded c) := by
  induction events generalizing c with
  | nil => rfl
  | cons event events ih =>
      rw [List.map_cons, run_cons, ih, unrecorded_perform]
      rfl

end Reckoner.Shell
