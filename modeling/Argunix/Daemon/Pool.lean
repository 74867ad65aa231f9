import Argunix.Daemon.Abort

/-!
# `build_one` and `dispatch_pool_build`, wait by wait

`Phase.buildOne` knows four states of a build task. Here is the task as the source has it: the
checks before the guard, the dispatch loop with its three waits, and one attempt on one builder
(push the closure, send `Build`, drain the lifecycle under the cancel token and the wall clock,
pull the outputs, write the log).

One `TaskAct` is what one `await` yields. What the pool, the registry, the token, the clock and
the disk decide is the choice of the act; a wait that ends by cancellation needs a token that has
fired.

An attempt ends in a verdict, in a transport failure (and the loop goes on with that connection
excluded), or as cancelled. **The last one is also what an agent-reported `Killed` comes to**, and
the wrapper writes `cancelled` to the row and returns an error.

A `PoolPhase` is a phase with these tasks in its set. `Task.step_simulates` and
`PoolRun.phaseRun`: whatever a task does, `buildOne` can do with the same writes, so a run with
these tasks is a run of the phase.

A spec without a derivation is never put into the strategy, so `build_one` is not entered with one
and its check of `drv_path` is left out.
-/

set_option autoImplicit false

namespace Argunix.Daemon

open Argunix.Lib Argunix.Sched Argunix.Sched.DagStrategy Argunix.Eval Argunix.Store

/-- The verdict of a `BuildFinished`. -/
inductive BuildOutcomeStatus
  | success
  | failure
  | timeout
  | killed
  | spawnFailed
deriving DecidableEq, Repr

/-- `BuildLifecycle`, with the fields the verdict depends on. -/
inductive BuildLifecycle
  | started
  | logChunk
  | finished (status : BuildOutcomeStatus) (outputPaths : List String)
deriving DecidableEq, Repr

/-- How a push or a pull ends. -/
inductive CopyPhaseOutcome
  | done
  | failed
  | cancelled
  | builderGone
deriving DecidableEq, Repr

/-- What `dispatch_pool_build` returns. -/
inductive PoolDispatchResult
  | outcome (success : Bool)
  | cancelled
  | transportFailure
deriving DecidableEq, Repr

/-- Where a build task stands. `connection` is the builder's `connection_id`; `again` says that
    an attempt has been made, so that `JobStore::dispatch` has run. -/
inductive TaskPc
  | entry
  | acquiring (again : Bool)
  | picking (again : Bool)
  | reserving (again : Bool) (connection : ℕ)
  | pushing (connection : ℕ)
  | sending (connection : ℕ)
  | building (connection : ℕ) (aborted : Bool)
  | grace (connection : ℕ)
  | acquiringForPull (connection : ℕ)
  | pulling (connection : ℕ)
  | writingLog (connection : ℕ) (result : PoolDispatchResult)
  | recording (success : Bool)
  | cancelling
  | atCapacity (again : Bool)
  | enrolling (again : Bool)
  | returned (outcome : Outcome)
deriving DecidableEq, Repr

/-- A build task. -/
structure Task where
  pc : TaskPc
  /-- The `TransferSlot` has its permit: it is there from the beginning, and is given back for the
      waits and for the drain. -/
  held : Bool
  /-- `builder_wait_used` -/
  waitUsed : Bool
  excluded : List ℕ
deriving DecidableEq, Repr

/-- What a build task can do next, and what can come to it. -/
inductive TaskAct
  | evalError
  | cached
  | preflight
  | arm
  | slot
  | pick (connection : ℕ)
  | busy
  | noMatch
  | dispatch
  | copied (outcome : CopyPhaseOutcome)
  | sent (ok : Bool)
  | event (ev : Option BuildLifecycle)
  | deadline
  | graceOver
  | logWritten
  | record
  | goOn
  | sleep
  | expired
  | seeCancel
  | fail
deriving DecidableEq, Repr

namespace Task

/-- It was just spawned. -/
def start : Task := { pc := .entry, held := true, waitUsed := false, excluded := [] }

/-- It goes on there and writes nothing. -/
def goto (t : Task) (pc : TaskPc) : Option (Task × Option RowWrite) :=
  some ({ t with pc := pc }, none)

/-- `finish(status)`, and `build_one` returns. -/
def conclude (t : Task) (status : JobStatus) : Option (Task × Option RowWrite) :=
  some ({ t with pc := .returned (.ok status) }, some (.finish status))

/-- What follows the drain of the lifecycle. `closed`: the channel closed before `BuildFinished`. -/
def afterDrain (connection : ℕ) (status : BuildOutcomeStatus) (outputPaths : List String)
    (aborted timedOut closed : Bool) : TaskPc :=
  if aborted = true ∨ (status = .killed ∧ timedOut = false) then .writingLog connection .cancelled
  else if timedOut then .writingLog connection (.outcome false)
  else if status = .success ∧ outputPaths ≠ [] then .acquiringForPull connection
  else .writingLog connection
    (if closed then .transportFailure else .outcome (status = .success))

/-- After `write_zstd_log`: `dispatch_build_via_pool` and the match in `build_one`. -/
def afterLog (t : Task) (connection : ℕ) : PoolDispatchResult → Task
  | .outcome success => { t with pc := .recording success }
  | .cancelled => { t with pc := .cancelling }
  | .transportFailure => { t with pc := .acquiring true, excluded := connection :: t.excluded }

/-- One step of a build task. `builderWait`: `schedule.builder_wait_seconds` is not zero. -/
def step (builderWait cancel : Bool) (spec : JobSpec) (t : Task) :
    TaskAct → Option (Task × Option RowWrite)
  | .evalError =>
    match t.pc with
    | .entry => if spec.error.isSome then t.goto (.returned (.ok .failure)) else none
    | _ => none
  | .cached =>
    match t.pc with
    | .entry => if spec.error = none ∧ spec.isCached = true then t.conclude .cached else none
    | _ => none
  | .preflight =>
    match t.pc with
    | .entry =>
      if spec.error = none ∧ spec.requiredSystemFeatures ≠ [] ∧ spec.system.isSome = true then
        t.conclude .failure
      else none
    | _ => none
  | .arm =>
    match t.pc with
    | .entry => if spec.error = none then t.goto (.acquiring false) else none
    | _ => none
  | .slot =>
    match t.pc with
    | .acquiring again => some ({ t with pc := .picking again, held := true }, none)
    | .acquiringForPull connection =>
      some ({ t with pc := .pulling connection, held := true }, none)
    | _ => none
  | .pick connection =>
    match t.pc with
    | .picking again =>
      if spec.system.isSome = true ∧ connection ∉ t.excluded then
        t.goto (.reserving again connection)
      else none
    | _ => none
  | .busy =>
    match t.pc with
    | .picking again => some ({ t with pc := .atCapacity again, held := false }, none)
    | _ => none
  | .noMatch =>
    match t.pc with
    | .picking again =>
      if t.waitUsed = false ∧ builderWait = true then
        some ({ t with pc := .enrolling again, held := false, waitUsed := true }, none)
      else t.conclude .interrupted
    | _ => none
  | .dispatch =>
    match t.pc with
    | .reserving _ connection => some ({ t with pc := .pushing connection }, some .dispatch)
    | _ => none
  | .copied outcome =>
    match t.pc, outcome with
    | .pushing connection, .done => some ({ t with pc := .sending connection, held := false }, none)
    | .pulling connection, .done => t.goto (.writingLog connection (.outcome true))
    | .pushing connection, .failed | .pushing connection, .builderGone
    | .pulling connection, .failed | .pulling connection, .builderGone =>
      t.goto (.writingLog connection .transportFailure)
    | .pushing connection, .cancelled | .pulling connection, .cancelled =>
      if cancel then t.goto (.writingLog connection .cancelled) else none
    | _, _ => none
  | .sent ok =>
    match t.pc with
    | .sending connection =>
      t.goto (if ok then .building connection false else .writingLog connection .transportFailure)
    | _ => none
  | .event ev =>
    match t.pc, ev with
    | .building connection aborted, some (.finished status outputPaths) =>
      t.goto (afterDrain connection status outputPaths aborted false false)
    | .building connection aborted, none =>
      t.goto (afterDrain connection .failure [] aborted false true)
    | .grace connection, some (.finished status outputPaths) =>
      t.goto (afterDrain connection status outputPaths false true false)
    | .grace connection, none => t.goto (afterDrain connection .killed [] false true false)
    | .building .., some _ | .grace _, some _ => t.goto t.pc
    | _, _ => none
  | .deadline =>
    match t.pc with
    | .building connection false => t.goto (.grace connection)
    | _ => none
  | .graceOver =>
    match t.pc with
    | .grace connection => t.goto (afterDrain connection .killed [] false true false)
    | _ => none
  | .logWritten =>
    match t.pc with
    | .writingLog connection result => some (t.afterLog connection result, none)
    | _ => none
  | .record =>
    match t.pc with
    | .recording success => t.conclude (if success then .success else .failure)
    -- the wrapper writes the row and returns `Err("build cancelled")`
    | .cancelling => some ({ t with pc := .returned .err }, some (.finish .cancelled))
    | _ => none
  | .goOn =>
    match t.pc with
    | .atCapacity again | .enrolling again => t.goto (.acquiring again)
    | _ => none
  | .sleep =>
    match t.pc with
    | .atCapacity _ | .enrolling _ => t.goto t.pc
    | _ => none
  | .expired =>
    match t.pc with
    | .enrolling _ => t.conclude .interrupted
    | _ => none
  | .seeCancel =>
    if cancel then
      match t.pc with
      -- a permit that is held is not waited for
      | .acquiring _ => if t.held then none else t.conclude .cancelled
      | .atCapacity _ | .enrolling _ => t.conclude .cancelled
      | .building connection false => t.goto (.building connection true)
      | .acquiringForPull connection => t.goto (.writingLog connection .cancelled)
      | _ => none
    else none
  | .fail =>
    match t.pc with
    | .returned _ => none
    | _ => t.goto (.returned .err)

/-- What a step of a task comes to. -/
inductive Steps (cancel : Bool) (spec : JobSpec) (t : Task) :
    TaskAct → Task → Option RowWrite → Prop
  | evalError : t.pc = .entry → spec.error.isSome = true →
      Steps cancel spec t .evalError { t with pc := .returned (.ok .failure) } none
  | cached : t.pc = .entry → spec.error = none ∧ spec.isCached = true →
      Steps cancel spec t .cached { t with pc := .returned (.ok .cached) } (some (.finish .cached))
  | preflight : t.pc = .entry → spec.error = none ∧ spec.requiredSystemFeatures ≠ [] ∧
      spec.system.isSome = true →
      Steps cancel spec t .preflight { t with pc := .returned (.ok .failure) }
        (some (.finish .failure))
  | arm : t.pc = .entry → spec.error = none →
      Steps cancel spec t .arm { t with pc := .acquiring false } none
  | slot {again : Bool} : t.pc = .acquiring again →
      Steps cancel spec t .slot { t with pc := .picking again, held := true } none
  | slotForPull {c : ℕ} : t.pc = .acquiringForPull c →
      Steps cancel spec t .slot { t with pc := .pulling c, held := true } none
  | pick {again : Bool} {c : ℕ} : t.pc = .picking again → c ∉ t.excluded →
      Steps cancel spec t (.pick c) { t with pc := .reserving again c } none
  | busy {again : Bool} : t.pc = .picking again →
      Steps cancel spec t .busy { t with pc := .atCapacity again, held := false } none
  | enrol {again : Bool} : t.pc = .picking again →
      Steps cancel spec t .noMatch
        { t with pc := .enrolling again, held := false, waitUsed := true } none
  | interrupted {a : TaskAct} {again : Bool} : t.pc = .picking again ∨ t.pc = .enrolling again →
      Steps cancel spec t a { t with pc := .returned (.ok .interrupted) }
        (some (.finish .interrupted))
  | dispatch {again : Bool} {c : ℕ} : t.pc = .reserving again c →
      Steps cancel spec t .dispatch { t with pc := .pushing c } (some .dispatch)
  | pushed {c : ℕ} : t.pc = .pushing c →
      Steps cancel spec t (.copied .done) { t with pc := .sending c, held := false } none
  | pulled {c : ℕ} : t.pc = .pulling c →
      Steps cancel spec t (.copied .done) { t with pc := .writingLog c (.outcome true) } none
  /-- The push or the pull ends the attempt. -/
  | broke {c : ℕ} {outcome : CopyPhaseOutcome} {result : PoolDispatchResult} :
      t.pc = .pushing c ∨ t.pc = .pulling c →
      Steps cancel spec t (.copied outcome) { t with pc := .writingLog c result } none
  | sent {c : ℕ} (ok : Bool) : t.pc = .sending c →
      Steps cancel spec t (.sent ok) { t with
        pc := if ok then .building c false else .writingLog c .transportFailure } none
  | drained {a : TaskAct} {c : ℕ} (status : BuildOutcomeStatus) (outputPaths : List String)
      (aborted timedOut closed : Bool) : (∃ aborted, t.pc = .building c aborted) ∨ t.pc = .grace c →
      Steps cancel spec t a
        { t with pc := afterDrain c status outputPaths aborted timedOut closed } none
  | waited {a : TaskAct} : Steps cancel spec t a t none
  | deadline {c : ℕ} : t.pc = .building c false →
      Steps cancel spec t .deadline { t with pc := .grace c } none
  | logWritten {c : ℕ} {result : PoolDispatchResult} : t.pc = .writingLog c result →
      Steps cancel spec t .logWritten (t.afterLog c result) none
  | verdict {success : Bool} : t.pc = .recording success →
      Steps cancel spec t .record
        { t with pc := .returned (.ok (if success then .success else .failure)) }
        (some (.finish (if success then .success else .failure)))
  | killed : t.pc = .cancelling →
      Steps cancel spec t .record { t with pc := .returned .err } (some (.finish .cancelled))
  | goOn {again : Bool} : t.pc = .atCapacity again ∨ t.pc = .enrolling again →
      Steps cancel spec t .goOn { t with pc := .acquiring again } none
  /-- The token fires in one of the waits of the loop. -/
  | cancelled {again : Bool} : cancel = true →
      (t.pc = .acquiring again ∧ t.held = false) ∨ t.pc = .atCapacity again ∨
        t.pc = .enrolling again →
      Steps cancel spec t .seeCancel { t with pc := .returned (.ok .cancelled) }
        (some (.finish .cancelled))
  | abort {c : ℕ} : t.pc = .building c false →
      Steps cancel spec t .seeCancel { t with pc := .building c true } none
  | pullCancelled {c : ℕ} : t.pc = .acquiringForPull c →
      Steps cancel spec t .seeCancel { t with pc := .writingLog c .cancelled } none
  | fail : (∀ outcome, t.pc ≠ .returned outcome) →
      Steps cancel spec t .fail { t with pc := .returned .err } none

section Steps

variable {builderWait cancel : Bool} {spec : JobSpec} {t t' : Task} {a : TaskAct}
  {write : Option RowWrite}

theorem goto_eq {pc : TaskPc} (h : t.goto pc = some (t', write)) :
    t' = { t with pc := pc } ∧ write = none := by
  obtain ⟨rfl, rfl⟩ := Prod.mk.inj (Option.some.inj h)
  exact ⟨rfl, rfl⟩

theorem conclude_eq {status : JobStatus} (h : t.conclude status = some (t', write)) :
    t' = { t with pc := .returned (.ok status) } ∧ write = some (.finish status) := by
  obtain ⟨rfl, rfl⟩ := Prod.mk.inj (Option.some.inj h)
  exact ⟨rfl, rfl⟩

/-- **One inversion for all that is to be known of a step.** -/
theorem step_steps (h : t.step builderWait cancel spec a = some (t', write)) :
    Steps cancel spec t a t' write := by
  cases a with
  | evalError =>
    simp only [step] at h
    split at h
    · rename_i hpc
      obtain ⟨herr, h⟩ := Option.ite_none_right_eq_some.mp h
      obtain ⟨rfl, rfl⟩ := goto_eq h
      exact .evalError hpc herr
    · cases h
  | cached =>
    simp only [step] at h
    split at h
    · rename_i hpc
      obtain ⟨hc, h⟩ := Option.ite_none_right_eq_some.mp h
      obtain ⟨rfl, rfl⟩ := conclude_eq h
      exact .cached hpc hc
    · cases h
  | preflight =>
    simp only [step] at h
    split at h
    · rename_i hpc
      obtain ⟨hc, h⟩ := Option.ite_none_right_eq_some.mp h
      obtain ⟨rfl, rfl⟩ := conclude_eq h
      exact .preflight hpc hc
    · cases h
  | arm =>
    simp only [step] at h
    split at h
    · rename_i hpc
      obtain ⟨herr, h⟩ := Option.ite_none_right_eq_some.mp h
      obtain ⟨rfl, rfl⟩ := goto_eq h
      exact .arm hpc herr
    · cases h
  | slot =>
    simp only [step] at h
    split at h
    · rename_i hpc
      obtain ⟨rfl, rfl⟩ := Prod.mk.inj (Option.some.inj h)
      exact .slot hpc
    · rename_i hpc
      obtain ⟨rfl, rfl⟩ := Prod.mk.inj (Option.some.inj h)
      exact .slotForPull hpc
    · cases h
  | pick c =>
    simp only [step] at h
    split at h
    · rename_i hpc
      obtain ⟨hc, h⟩ := Option.ite_none_right_eq_some.mp h
      obtain ⟨rfl, rfl⟩ := goto_eq h
      exact .pick hpc hc.2
    · cases h
  | busy =>
    simp only [step] at h
    split at h
    · rename_i hpc
      obtain ⟨rfl, rfl⟩ := Prod.mk.inj (Option.some.inj h)
      exact .busy hpc
    · cases h
  | noMatch =>
    simp only [step] at h
    split at h
    · rename_i hpc
      split at h
      · obtain ⟨rfl, rfl⟩ := Prod.mk.inj (Option.some.inj h)
        exact .enrol hpc
      · obtain ⟨rfl, rfl⟩ := conclude_eq h
        exact .interrupted (.inl hpc)
    · cases h
  | dispatch =>
    simp only [step] at h
    split at h
    · rename_i hpc
      obtain ⟨rfl, rfl⟩ := Prod.mk.inj (Option.some.inj h)
      exact .dispatch hpc
    · cases h
  | copied outcome =>
    simp only [step] at h
    split at h
    case h_1 hpc =>
      obtain ⟨rfl, rfl⟩ := Prod.mk.inj (Option.some.inj h)
      exact .pushed hpc
    case h_2 hpc =>
      obtain ⟨rfl, rfl⟩ := goto_eq h
      exact .pulled hpc
    case h_3 hpc | h_4 hpc =>
      obtain ⟨rfl, rfl⟩ := goto_eq h
      exact .broke (.inl hpc)
    case h_5 hpc | h_6 hpc =>
      obtain ⟨rfl, rfl⟩ := goto_eq h
      exact .broke (.inr hpc)
    case h_7 hpc =>
      obtain ⟨-, h⟩ := Option.ite_none_right_eq_some.mp h
      obtain ⟨rfl, rfl⟩ := goto_eq h
      exact .broke (.inl hpc)
    case h_8 hpc =>
      obtain ⟨-, h⟩ := Option.ite_none_right_eq_some.mp h
      obtain ⟨rfl, rfl⟩ := goto_eq h
      exact .broke (.inr hpc)
    case h_9 => cases h
  | sent ok =>
    simp only [step] at h
    split at h
    · rename_i hpc
      obtain ⟨rfl, rfl⟩ := goto_eq h
      exact .sent ok hpc
    · cases h
  | event ev =>
    simp only [step] at h
    split at h
    case h_1 hpc | h_2 hpc =>
      obtain ⟨rfl, rfl⟩ := goto_eq h
      exact .drained _ _ _ _ _ (.inl ⟨_, hpc⟩)
    case h_3 hpc | h_4 hpc =>
      obtain ⟨rfl, rfl⟩ := goto_eq h
      exact .drained _ _ _ _ _ (.inr hpc)
    case h_5 | h_6 =>
      obtain ⟨rfl, rfl⟩ := goto_eq h
      exact .waited
    case h_7 => cases h
  | deadline =>
    simp only [step] at h
    split at h
    · rename_i hpc
      obtain ⟨rfl, rfl⟩ := goto_eq h
      exact .deadline hpc
    · cases h
  | graceOver =>
    simp only [step] at h
    split at h
    · rename_i hpc
      obtain ⟨rfl, rfl⟩ := goto_eq h
      exact .drained _ _ _ _ _ (.inr hpc)
    · cases h
  | logWritten =>
    simp only [step] at h
    split at h
    · rename_i hpc
      obtain ⟨rfl, rfl⟩ := Prod.mk.inj (Option.some.inj h)
      exact .logWritten hpc
    · cases h
  | record =>
    simp only [step] at h
    split at h
    · rename_i hpc
      obtain ⟨rfl, rfl⟩ := conclude_eq h
      exact .verdict hpc
    · rename_i hpc
      obtain ⟨rfl, rfl⟩ := Prod.mk.inj (Option.some.inj h)
      exact .killed hpc
    · cases h
  | goOn =>
    simp only [step] at h
    split at h
    · rename_i hpc
      obtain ⟨rfl, rfl⟩ := goto_eq h
      exact .goOn (.inl hpc)
    · rename_i hpc
      obtain ⟨rfl, rfl⟩ := goto_eq h
      exact .goOn (.inr hpc)
    · cases h
  | sleep =>
    simp only [step] at h
    split at h
    · obtain ⟨rfl, rfl⟩ := goto_eq h
      exact .waited
    · obtain ⟨rfl, rfl⟩ := goto_eq h
      exact .waited
    · cases h
  | expired =>
    simp only [step] at h
    split at h
    · rename_i hpc
      obtain ⟨rfl, rfl⟩ := conclude_eq h
      exact .interrupted (.inr hpc)
    · cases h
  | seeCancel =>
    simp only [step] at h
    obtain ⟨hc, h⟩ := Option.ite_none_right_eq_some.mp h
    split at h
    · rename_i hpc
      split at h
      · cases h
      · rename_i hheld
        obtain ⟨rfl, rfl⟩ := conclude_eq h
        exact .cancelled hc (.inl ⟨hpc, Bool.eq_false_iff.mpr hheld⟩)
    · rename_i hpc
      obtain ⟨rfl, rfl⟩ := conclude_eq h
      exact .cancelled hc (.inr (.inl hpc))
    · rename_i hpc
      obtain ⟨rfl, rfl⟩ := conclude_eq h
      exact .cancelled hc (.inr (.inr hpc))
    · rename_i hpc
      obtain ⟨rfl, rfl⟩ := goto_eq h
      exact .abort hpc
    · rename_i hpc
      obtain ⟨rfl, rfl⟩ := goto_eq h
      exact .pullCancelled hpc
    · cases h
  | fail =>
    simp only [step] at h
    split at h
    · cases h
    · rename_i hnot
      obtain ⟨rfl, rfl⟩ := goto_eq h
      exact .fail hnot

end Steps

/-! ## Against the four states -/

/-- What `Phase.buildOne` knows of the task. -/
def abs (t : Task) : BuildState :=
  match t.pc with
  | .entry => .entered
  | .returned outcome => .returned outcome
  | .acquiring again | .picking again | .reserving again _ | .atCapacity again
  | .enrolling again => if again then .dispatched else .armed
  | .pushing _ | .sending _ | .building .. | .grace _ | .acquiringForPull _ | .pulling _
  | .writingLog .. | .recording _ | .cancelling => .dispatched

/-- `buildOne` stays where it is, or does the same in one action. It fails only where the task
    does. -/
def Simulated (cancel : Bool) (spec : JobSpec) (t : Task) (a : TaskAct)
    (r : Task × Option RowWrite) : Prop :=
  (r.1.abs = t.abs ∧ r.2 = none) ∨
    ∃ b, (b = .fail → a = .fail) ∧ buildOne cancel spec t.abs b = some (r.1.abs, r.2)

variable {builderWait cancel : Bool} {spec : JobSpec} {t t' : Task} {a : TaskAct}
  {write : Option RowWrite}

theorem abs_of_pc {pc : TaskPc} (h : t.pc = pc) : t.abs = abs { t with pc := pc } := by
  subst h
  rfl

theorem afterDrain_abs (t : Task) (connection : ℕ) (status : BuildOutcomeStatus)
    (outputPaths : List String) (aborted timedOut closed : Bool) :
    abs { t with pc := afterDrain connection status outputPaths aborted timedOut closed }
      = .dispatched := by
  unfold afterDrain
  repeat' split
  all_goals rfl

/-- The waits of the loop come before or after a first dispatch. -/
theorem armed_or_dispatched (again : Bool)
    (hpc : t.pc = .acquiring again ∨ t.pc = .picking again ∨ t.pc = .atCapacity again ∨
      t.pc = .enrolling again ∨ ∃ connection, t.pc = .reserving again connection) :
    t.abs = .armed ∨ t.abs = .dispatched := by
  unfold abs
  rcases hpc with hpc | hpc | hpc | hpc | ⟨connection, hpc⟩ <;> rw [hpc] <;>
    cases again <;> simp

theorem simulated_cancelled (hc : cancel = true) (h : t.abs = .armed ∨ t.abs = .dispatched) :
    Simulated cancel spec t a
      ({ t with pc := .returned (.ok .cancelled) }, some (.finish .cancelled)) := by
  refine Or.inr ⟨.cancelled, by simp, ?_⟩
  subst hc
  rcases h with h | h <;> rw [h] <;> rfl

theorem simulated_interrupted (h : t.abs = .armed ∨ t.abs = .dispatched) :
    Simulated cancel spec t a
      ({ t with pc := .returned (.ok .interrupted) }, some (.finish .interrupted)) := by
  refine Or.inr ⟨.noBuilder, by simp, ?_⟩
  rcases h with h | h <;> rw [h] <;> rfl

/-- An await that changes nothing `buildOne` knows of. -/
theorem simulated_none (h : t'.abs = t.abs) : Simulated cancel spec t a (t', none) :=
  Or.inl ⟨h, rfl⟩

theorem pc_of_returned {outcome : Outcome} (h : t.abs = .returned outcome) :
    t.pc = .returned outcome := by
  unfold abs at h
  cases hpc : t.pc with
  | returned outcome' =>
    rw [hpc] at h
    rw [BuildState.returned.inj h]
  | acquiring again | picking again | reserving again | atCapacity again | enrolling again =>
    rw [hpc] at h
    cases again <;> simp at h
  | entry | pushing | sending | building | grace | acquiringForPull | pulling | writingLog
  | recording | cancelling =>
    rw [hpc] at h
    exact absurd h (by simp)

/-- **Every step of a task is a step of `buildOne`**, or none. -/
theorem step_simulates (h : t.step builderWait cancel spec a = some (t', write)) :
    Simulated cancel spec t a (t', write) := by
  cases step_steps h with
  | evalError hpc herr =>
    exact Or.inr ⟨.evalError, by simp, by rw [abs_of_pc hpc]; exact if_pos herr⟩
  | cached hpc hc => exact Or.inr ⟨.cached, by simp, by rw [abs_of_pc hpc]; exact if_pos hc⟩
  | preflight hpc hc => exact Or.inr ⟨.preflight, by simp, by rw [abs_of_pc hpc]; exact if_pos hc⟩
  | arm hpc herr => exact Or.inr ⟨.arm, by simp, by rw [abs_of_pc hpc]; exact if_pos herr⟩
  | slot hpc | slotForPull hpc | pick hpc | busy hpc | enrol hpc | pushed hpc | pulled hpc
  | deadline hpc | abort hpc | pullCancelled hpc => exact simulated_none (abs_of_pc hpc).symm
  | broke hpc => exact simulated_none (hpc.elim abs_of_pc abs_of_pc).symm
  | goOn hpc => exact simulated_none (hpc.elim abs_of_pc abs_of_pc).symm
  | waited => exact simulated_none rfl
  | sent ok hpc =>
    refine simulated_none (Eq.trans ?_ (abs_of_pc hpc).symm)
    cases ok <;> rfl
  | drained status outputPaths aborted timedOut closed hpc =>
    have hdispatched : t.abs = .dispatched := by
      rcases hpc with ⟨aborted', hpc⟩ | hpc <;> exact abs_of_pc hpc
    exact simulated_none ((afterDrain_abs ..).trans hdispatched.symm)
  | @logWritten c result hpc =>
    refine simulated_none (Eq.trans ?_ (abs_of_pc hpc).symm)
    cases result <;> rfl
  | @interrupted _ again hpc =>
    refine simulated_interrupted (armed_or_dispatched again ?_)
    rcases hpc with hpc | hpc
    · exact .inr (.inl hpc)
    · exact .inr (.inr (.inr (.inl hpc)))
  | @cancelled again hc hpc =>
    refine simulated_cancelled hc (armed_or_dispatched again ?_)
    rcases hpc with ⟨hpc, -⟩ | hpc | hpc
    · exact .inl hpc
    · exact .inr (.inr (.inl hpc))
    · exact .inr (.inr (.inr (.inl hpc)))
  | dispatch hpc =>
    refine Or.inr ⟨.dispatch, by simp, ?_⟩
    rcases armed_or_dispatched (t := t) _ (.inr (.inr (.inr (.inr ⟨_, hpc⟩)))) with hst | hst <;>
      rw [hst] <;> rfl
  | @verdict success hpc => exact Or.inr ⟨.verdict success, by simp, by rw [abs_of_pc hpc]; rfl⟩
  | killed hpc => exact Or.inr ⟨.killed, by simp, by rw [abs_of_pc hpc]; rfl⟩
  | fail hnot =>
    refine Or.inr ⟨.fail, fun _ => rfl, ?_⟩
    cases hst : t.abs with
    | entered | armed | dispatched => rfl
    | returned outcome => exact absurd (pc_of_returned hst) (hnot outcome)

end Task

/-! ## A phase with these tasks -/

/-- `phase.builds` is what the loop can see of the tasks. -/
structure PoolPhase where
  phase : Phase
  tasks : DispatchToken → Task

/-- The action of a task, not of the loop. -/
def PhaseAct.ofTask : PhaseAct → Bool
  | .build .. => true
  | _ => false

/-- An action of the loop or of a task. -/
inductive PoolAct
  | loop (a : PhaseAct)
  | task (token : DispatchToken) (a : TaskAct)
deriving DecidableEq, Repr

namespace PoolPhase

/-- The phase as it begins. -/
def start (persisted : Persisted) (strategy : DagStrategy) (cancel : Bool) : PoolPhase :=
  { phase := Phase.start persisted strategy cancel, tasks := fun _ => Task.start }

/-- The loop spawns a task with a dispatch. -/
def spawn (q : PoolPhase) : PhaseAct → DispatchToken → Task
  | .dispatch =>
    match q.phase.session.strategy.dispatch.1 with
    | some d => Function.update q.tasks d.token Task.start
    | none => q.tasks
  | _ => q.tasks

/-- A task has moved from `state` to `t'`. -/
def moved (q : PoolPhase) (token : DispatchToken) (jobId : JobId) (state : BuildState) (t' : Task)
    (write : Option RowWrite) : PoolPhase :=
  { phase :=
      if t'.abs = state ∧ write = none then q.phase
      else { q.phase with
        builds := q.phase.builds.insert token t'.abs
        guards :=
          if state.holdsGuard && t'.abs.hasReturned then q.phase.guards ++ [jobId]
          else q.phase.guards }
    tasks := Function.update q.tasks token t' }

/-- One action. -/
def act (builderWait : Bool) (e : EvalId) (row : EvalRow) (q : PoolPhase) :
    PoolAct → Option (EvalRow × PoolPhase)
  | .loop a =>
    if a.ofTask then none
    else (q.phase.act e row a).map fun (row', p') => (row', { phase := p', tasks := q.spawn a })
  | .task token a =>
    match q.phase.task token with
    | some (jobId, spec, state) =>
      ((q.tasks token).step builderWait q.phase.cancel spec a).map fun (t', write) =>
        ((write.map (RowWrite.apply jobId row)).getD row, q.moved token jobId state t' write)
    | none => none

/-- The maps of the strategy iterate in another order. -/
def reorder (q : PoolPhase) (s : DagStrategy) : PoolPhase := { q with phase := q.phase.reorder s }

/-- The loop sees every task as it is. -/
def Seen (q : PoolPhase) : Prop :=
  ∀ token state, q.phase.builds.lookup token = some state → (q.tasks token).abs = state

end PoolPhase

/-- One action, the hash maps being iterated in any order. A task does not see them. -/
def PoolStep (builderWait : Bool) (e : EvalId) (row : EvalRow) (q : PoolPhase) (a : PoolAct)
    (row' : EvalRow) (q' : PoolPhase) : Prop :=
  ∃ s, Shuffle q.phase.session.strategy s ∧
    (∀ token c, a = .task token c → s = q.phase.session.strategy) ∧
    (q.reorder s).act builderWait e row a = some (row', q')

/-- A run whose actions all meet a condition. -/
inductive PoolRun (ok : PoolPhase → PoolAct → Prop) (builderWait : Bool) (e : EvalId)
    (row₀ : EvalRow) (q₀ : PoolPhase) : EvalRow → PoolPhase → Prop
  | refl : PoolRun ok builderWait e row₀ q₀ row₀ q₀
  | step {row row' : EvalRow} {q q' : PoolPhase} {a : PoolAct} :
      PoolRun ok builderWait e row₀ q₀ row q → ok q a → PoolStep builderWait e row q a row' q' →
      PoolRun ok builderWait e row₀ q₀ row' q'

namespace PoolPhase

variable {builderWait : Bool} {e : EvalId} {row row' : EvalRow} {q q' : PoolPhase} {a : PoolAct}

/-- What an action of a phase with tasks can be. -/
theorem act_cases (h : q.act builderWait e row a = some (row', q')) :
    (∃ b, a = .loop b ∧ b.ofTask = false ∧ q.phase.act e row b = some (row', q'.phase) ∧
        q'.tasks = q.spawn b) ∨
      ∃ token c jobId spec state t' write, a = .task token c ∧
        q.phase.task token = some (jobId, spec, state) ∧
        (q.tasks token).step builderWait q.phase.cancel spec c = some (t', write) ∧
        row' = (write.map (RowWrite.apply jobId row)).getD row ∧
        q' = q.moved token jobId state t' write := by
  cases a with
  | loop b =>
    simp only [act] at h
    split at h
    · exact absurd h (by simp)
    · rename_i hb
      obtain ⟨⟨row₁, p₁⟩, hact, hr⟩ := Option.map_eq_some_iff.mp h
      obtain ⟨rfl, rfl⟩ := Prod.mk.inj hr
      exact Or.inl ⟨b, rfl, by simpa using hb, hact, rfl⟩
  | task token c =>
    simp only [act] at h
    split at h
    · rename_i jobId spec state ht
      obtain ⟨⟨t', write⟩, hstep, hr⟩ := Option.map_eq_some_iff.mp h
      obtain ⟨rfl, rfl⟩ := Prod.mk.inj hr
      exact Or.inr ⟨token, c, jobId, spec, state, t', write, rfl, ht, hstep, rfl, rfl⟩
    · exact absurd h (by simp)

/-- What the loop sees after an action of its own: the task it has spawned, and the old ones. -/
theorem lookup_builds {p p' : Phase} {b : PhaseAct} (hact : PhaseActs e row p b row' p')
    (hb : b.ofTask = false) {token : DispatchToken} {state : BuildState}
    (hl : p'.builds.lookup token = some state) :
    (∃ d, b = .dispatch ∧ p.session.strategy.dispatch.1 = some d ∧ token = d.token ∧
        state = .entered) ∨
      (p.builds.lookup token = some state ∧
        ∀ d, b = .dispatch → p.session.strategy.dispatch.1 = some d → token ≠ d.token) := by
  cases hact with
  | @spawned d s hpc hd =>
    rw [HashMap.lookup_insert_eq] at hl
    split at hl
    · rename_i htok
      exact Or.inl ⟨d, rfl, by rw [hd], htok, (Option.some.inj hl).symm⟩
    · rename_i htok
      refine Or.inr ⟨hl, fun d' _ hd' => ?_⟩
      rw [hd] at hd'
      exact Option.some.inj hd' ▸ htok
  | idle hpc hd =>
    refine Or.inr ⟨hl, fun d' _ hd' => ?_⟩
    rw [hd] at hd'
    exact absurd hd' (by simp)
  | join | drain =>
    rw [Phase.joined_eq] at hl
    have hl' := (HashMap.lookup_erase_eq _ _ _).symm.trans hl
    split at hl'
    · exact absurd hl' (by simp)
    · exact Or.inr ⟨hl', by simp⟩
  | build => exact absurd hb (by simp [PhaseAct.ofTask])
  | look | noPermit | check | wake | abort | polled | permit | sleep | settled | settle
  | aborted | skip | drained | finish | post | dropGuard | supersede | fire =>
    exact Or.inr ⟨hl, by simp⟩

theorem spawn_of_ne {b : PhaseAct} {token : DispatchToken}
    (h : ∀ d, b = .dispatch → q.phase.session.strategy.dispatch.1 = some d → token ≠ d.token) :
    q.spawn b token = q.tasks token := by
  cases b with
  | dispatch =>
    cases hd : q.phase.session.strategy.dispatch.1 with
    | none => simp only [spawn, hd]
    | some d =>
      simp only [spawn, hd]
      exact Function.update_of_ne (h d rfl hd) _ _
  | _ => rfl

theorem seen_start (persisted : Persisted) (strategy : DagStrategy) (cancel : Bool) :
    (start persisted strategy cancel).Seen :=
  fun _ _ hl => absurd hl (by simp [start, Phase.start])

theorem Seen.act (hseen : q.Seen) (h : q.act builderWait e row a = some (row', q')) :
    q'.Seen := by
  intro token₀ state₀ hl
  rcases act_cases h with ⟨b, rfl, hb, hact, htasks⟩ |
    ⟨token, c, jobId, spec, state, t', write, rfl, ht, hstep, rfl, rfl⟩
  · rw [htasks]
    rcases lookup_builds (Phase.act_acts hact) hb hl with ⟨d, rfl, hd, rfl, rfl⟩ | ⟨hl, hne⟩
    · simp only [spawn, hd, Function.update_self]
      rfl
    · rw [spawn_of_ne hne]
      exact hseen token₀ state₀ hl
  · obtain ⟨-, -, -, -, -, hstate⟩ := Phase.task_eq_some ht
    simp only [moved] at hl ⊢
    by_cases htok : token₀ = token
    · subst htok
      rw [Function.update_self]
      split at hl
      · rename_i hsame
        rw [hstate, Option.some.injEq] at hl
        exact hsame.1.trans hl
      · rw [HashMap.lookup_insert_eq, if_pos rfl, Option.some.injEq] at hl
        exact hl
    · rw [Function.update_of_ne htok]
      refine hseen token₀ state₀ ?_
      split at hl
      · exact hl
      · rwa [HashMap.lookup_insert_eq, if_neg htok] at hl

/-- The phase an action with tasks looks like. A task that only waits is not seen. -/
theorem act_simulates (hseen : q.Seen) (h : q.act builderWait e row a = some (row', q')) :
    (row' = row ∧ q'.phase = q.phase ∧ ∃ token c, a = .task token c) ∨
      ∃ b, q.phase.act e row b = some (row', q'.phase) ∧
        (a = .loop b ∨ ∃ token c d, a = .task token c ∧ b = .build token d ∧
          (d = .fail → c = .fail)) := by
  rcases act_cases h with ⟨b, rfl, hb, hact, htasks⟩ |
    ⟨token, c, jobId, spec, state, t', write, rfl, ht, hstep, rfl, rfl⟩
  · exact Or.inr ⟨b, hact, Or.inl rfl⟩
  · obtain ⟨-, -, -, -, -, hstate⟩ := Phase.task_eq_some ht
    obtain rfl := hseen token state hstate
    by_cases hsame : t'.abs = (q.tasks token).abs ∧ write = none
    · refine Or.inl ⟨?_, if_pos hsame, token, c, rfl⟩
      rw [hsame.2]
      rfl
    · obtain ⟨d, hfail, hd⟩ := (Task.step_simulates hstep).resolve_left hsame
      refine Or.inr ⟨.build token d, ?_, Or.inr ⟨token, c, d, rfl, rfl, hfail⟩⟩
      simp only [Phase.act, ht, hd, moved, if_neg hsame]
      rfl

end PoolPhase

/-- What a condition on actions with tasks comes to for the phase. -/
def PoolAct.Lifts (ok : PoolPhase → PoolAct → Prop) (ok' : Phase → PhaseAct → Prop) : Prop :=
  ∀ q b, (ok q (.loop b) → ok' q.phase b) ∧
    ∀ token c d, (d = .fail → c = .fail) → ok q (.task token c) → ok' q.phase (.build token d)

/-- **A run with tasks is a run of the phase.** -/
theorem PoolRun.phaseRun {ok : PoolPhase → PoolAct → Prop} {ok' : Phase → PhaseAct → Prop}
    (hlift : PoolAct.Lifts ok ok') {builderWait : Bool} {e : EvalId} {row₀ row : EvalRow}
    {q₀ q : PoolPhase} (hseen : q₀.Seen) (h : PoolRun ok builderWait e row₀ q₀ row q) :
    PhaseRun ok' e row₀ q₀.phase row q.phase ∧ q.Seen := by
  induction h with
  | refl => exact ⟨.refl, hseen⟩
  | @step row row' q q' a hrun hok hstep ih =>
    obtain ⟨ihrun, ihseen⟩ := ih
    obtain ⟨s, hs, htask, hact⟩ := hstep
    have hseen' : (q.reorder s).Seen := ihseen
    refine ⟨?_, hseen'.act hact⟩
    rcases PoolPhase.act_simulates hseen' hact with ⟨rfl, hphase, token, c, hc⟩ | ⟨b, hb, hkind⟩
    · obtain rfl := htask token c hc
      rw [hphase]
      exact ihrun
    · have hok' : ok' q.phase b := by
        rcases hkind with rfl | ⟨token, c, d, rfl, rfl, hfail⟩
        · exact (hlift q b).1 hok
        · exact (hlift q (.build token d)).2 token c d hfail hok
      exact .step ihrun hok' ⟨s, hs, hb⟩

/-! ## Concrete runs -/

theorem PoolRun.trans {ok : PoolPhase → PoolAct → Prop} {builderWait : Bool} {e : EvalId}
    {row₀ row₁ row₂ : EvalRow} {q₀ q₁ q₂ : PoolPhase}
    (h : PoolRun ok builderWait e row₀ q₀ row₁ q₁) (h' : PoolRun ok builderWait e row₁ q₁ row₂ q₂) :
    PoolRun ok builderWait e row₀ q₀ row₂ q₂ := by
  induction h' with
  | refl => exact h
  | step _ hok hs ih => exact .step ih hok hs

/-- A script of actions, with every hash map in the order it is stored. -/
def PoolPhase.script (ok : PoolPhase → PoolAct → Prop) [∀ q a, Decidable (ok q a)]
    (builderWait : Bool) (e : EvalId) :
    EvalRow → PoolPhase → List PoolAct → Option (EvalRow × PoolPhase)
  | row, q, [] => some (row, q)
  | row, q, a :: as =>
    if ok q a then
      (q.act builderWait e row a).bind fun r => script ok builderWait e r.1 r.2 as
    else none

theorem PoolRun.of_script {ok : PoolPhase → PoolAct → Prop} [∀ q a, Decidable (ok q a)]
    {builderWait : Bool} {e : EvalId} :
    ∀ {as : List PoolAct} {row row' : EvalRow} {q q' : PoolPhase},
      q.script ok builderWait e row as = some (row', q') →
      PoolRun ok builderWait e row q row' q'
  | [], row, row', q, q', h => by
    obtain ⟨rfl, rfl⟩ := Prod.mk.inj (Option.some.inj h)
    exact .refl
  | a :: as, row, row', q, q', h => by
    simp only [PoolPhase.script] at h
    split at h
    · rename_i hok
      obtain ⟨⟨row₁, q₁⟩, hact, hrest⟩ := Option.bind_eq_some_iff.mp h
      have hstep : PoolStep builderWait e row q a row₁ q₁ :=
        ⟨q.phase.session.strategy, .refl _, fun _ _ _ => rfl, hact⟩
      exact (PoolRun.step .refl hok hstep).trans (PoolRun.of_script hrest)
    · exact absurd h (by simp)

end Argunix.Daemon
