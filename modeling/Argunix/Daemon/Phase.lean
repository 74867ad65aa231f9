import Argunix.Store
import Argunix.Sched.Cancel
import Argunix.Daemon.Plan

/-!
# `run_build_phase`: the dispatch loop of one evaluation

The loop owns a strategy, a set of build tasks, a tally and a cancel token. It is a state machine
here: one action is one thing the loop (or a build task, or the world around them) can do before
another party may interfere, and `LoopPc` says where the loop stands between two actions. What
the scheduler of the runtime, the global semaphore and the builders decide is the choice of the
next action.

* `look … check` is one turn of the loop: read the token, spawn while permits and ready Steps
  last, test the exits.
* `pollCancel … sleep` is the `select!`. It is biased: the cancel arm is polled first. A token
  that fires *after* that poll does not stop a `join` of the same poll.
* `handle` writes one row and counts it: the skips behind a failed Step, its aliases, and last the
  tally of the Job that was built.
* `build` is a build task: it moves its row along and returns.
* `supersede` and `fire` are the webhook of a newer push: it writes `cancelled` to the evaluation's
  row, then fires the token.

`Phase.act` runs one action. A `PhaseStep` is one action after the hash maps of the strategy have
been put into any order.
-/

set_option autoImplicit false

namespace Argunix.Daemon

open Argunix.Lib Argunix.Sched Argunix.Sched.DagStrategy Argunix.Eval Argunix.Store

/-! ## The tally -/

/-- The counts behind the overall check. -/
structure JobTally where
  success : ℕ := 0
  cached : ℕ := 0
  failure : ℕ := 0
  interrupted : ℕ := 0
  cancelled : ℕ := 0
deriving DecidableEq, Repr

/-- The state of a check. -/
inductive CheckState
  | pending
  | success
  | failure
  | error
deriving DecidableEq, Repr

namespace JobTally

/-- One more Job with this status. -/
def record (tally : JobTally) : JobStatus → JobTally
  | .success => { tally with success := tally.success + 1 }
  | .cached => { tally with cached := tally.cached + 1 }
  | .failure => { tally with failure := tally.failure + 1 }
  | .interrupted => { tally with interrupted := tally.interrupted + 1 }
  | .cancelled => { tally with cancelled := tally.cancelled + 1 }
  | .skippedNoBuilder | .queued | .running => tally

/-- `overall_state` -/
def overallState (tally : JobTally) : CheckState :=
  if tally.failure > 0 then .failure else if tally.interrupted > 0 then .error else .success

end JobTally

/-! ## A build task -/

/-- What `build_one` returned. A panic is caught and surfaces as an error. -/
inductive Outcome
  | ok (status : JobStatus)
  | err
deriving DecidableEq, Repr

/-- `final_status` -/
def Outcome.finalStatus : Outcome → JobStatus
  | ok status => status
  | err => .failure

/-- How far a build task has come. From `armed` on a `RunningJobGuard` is on its stack;
    `dispatched` is reached with `JobStore::dispatch`. -/
inductive BuildState
  | entered
  | armed
  | dispatched
  | returned (outcome : Outcome)
deriving DecidableEq, Repr

namespace BuildState

/-- Leaving `build_one` from this state drops a `RunningJobGuard`. -/
def holdsGuard : BuildState → Bool
  | armed | dispatched => true
  | entered | returned _ => false

/-- The task can be joined. -/
def hasReturned : BuildState → Bool
  | returned _ => true
  | entered | armed | dispatched => false

end BuildState

/-- What `build_one` can do next. -/
inductive BuildAct
  | evalError
  | cached
  | preflight
  | arm
  | dispatch
  | verdict (built : Bool)
  | noBuilder
  | cancelled
  | killed
  | fail
deriving DecidableEq, Repr

/-- A statement `build_one` runs on its own row. -/
inductive RowWrite
  | dispatch
  | finish (status : JobStatus)
deriving DecidableEq, Repr

/-- The write on the row of a Job. -/
def RowWrite.apply (jobId : JobId) (row : EvalRow) : RowWrite → EvalRow
  | dispatch => row.dispatchJob jobId
  | finish status => row.finishJob jobId status

/-- `build_one`, with what the pool, the token and the clock decide as the action. A verdict of
    the pool, a kill and an error need a dispatch before them; waiting for a builder does not. An
    error may also come from the store or be a panic, and then at any point. -/
def buildOne (cancel : Bool) (spec : JobSpec) :
    BuildState → BuildAct → Option (BuildState × Option RowWrite)
  | .entered, .evalError =>
    if spec.error.isSome then some (.returned (.ok .failure), none) else none
  | .entered, .cached =>
    if spec.error = none ∧ spec.isCached = true then
      some (.returned (.ok .cached), some (.finish .cached))
    else none
  | .entered, .preflight =>
    if spec.error = none ∧ spec.requiredSystemFeatures ≠ [] ∧ spec.system.isSome = true then
      some (.returned (.ok .failure), some (.finish .failure))
    else none
  | .entered, .arm => if spec.error = none then some (.armed, none) else none
  | .entered, .fail => some (.returned .err, none)
  | .armed, .dispatch => some (.dispatched, some .dispatch)
  | .armed, .noBuilder => some (.returned (.ok .interrupted), some (.finish .interrupted))
  | .armed, .cancelled =>
    if cancel then some (.returned (.ok .cancelled), some (.finish .cancelled)) else none
  | .armed, .fail => some (.returned .err, none)
  -- after a transport failure the task is back in its wait loop, with the row still running
  | .dispatched, .dispatch => some (.dispatched, some .dispatch)
  | .dispatched, .noBuilder => some (.returned (.ok .interrupted), some (.finish .interrupted))
  | .dispatched, .cancelled =>
    if cancel then some (.returned (.ok .cancelled), some (.finish .cancelled)) else none
  | .dispatched, .verdict built =>
    let status := if built then JobStatus.success else .failure
    some (.returned (.ok status), some (.finish status))
  | .dispatched, .killed => some (.returned .err, some (.finish .cancelled))
  | .dispatched, .fail => some (.returned .err, none)
  | _, _ => none

/-- The statuses `build_one` reports. -/
def reportable : List JobStatus := [.success, .cached, .failure, .interrupted, .cancelled]

/-- What one action of a build task can be. -/
inductive Built (cancel : Bool) (spec : JobSpec) :
    BuildState → BuildState → Option RowWrite → Prop
  | arm : spec.error = none → Built cancel spec .entered .armed none
  | dispatch {state : BuildState} : state.holdsGuard = true →
      Built cancel spec state .dispatched (some .dispatch)
  | rejected : spec.error.isSome = true →
      Built cancel spec .entered (.returned (.ok .failure)) none
  | reported {state : BuildState} {status : JobStatus} : state.hasReturned = false →
      (state = .entered → spec.error = none) → status ∈ reportable → (status = .cancelled → cancel = true) →
      Built cancel spec state (.returned (.ok status)) (some (.finish status))
  | killed : Built cancel spec .dispatched (.returned .err) (some (.finish .cancelled))
  | failed {state : BuildState} : state.hasReturned = false →
      Built cancel spec state (.returned .err) none

theorem buildOne_built {cancel : Bool} {spec : JobSpec} {state state' : BuildState} {a : BuildAct}
    {write : Option RowWrite} (h : buildOne cancel spec state a = some (state', write)) :
    Built cancel spec state state' write := by
  unfold buildOne at h
  split at h
  case h_1 =>
    split at h
    · rename_i herr
      obtain ⟨rfl, rfl⟩ := Prod.mk.inj (Option.some.inj h)
      exact .rejected herr
    · exact absurd h (by simp)
  case h_2 | h_3 =>
    split at h
    · rename_i hc
      obtain ⟨rfl, rfl⟩ := Prod.mk.inj (Option.some.inj h)
      exact .reported rfl (fun _ => hc.1) (by decide) (by simp)
    · exact absurd h (by simp)
  case h_4 =>
    split at h
    · rename_i herr
      obtain ⟨rfl, rfl⟩ := Prod.mk.inj (Option.some.inj h)
      exact .arm herr
    · exact absurd h (by simp)
  case h_5 | h_9 | h_15 =>
    obtain ⟨rfl, rfl⟩ := Prod.mk.inj (Option.some.inj h)
    exact .failed rfl
  case h_6 | h_10 =>
    obtain ⟨rfl, rfl⟩ := Prod.mk.inj (Option.some.inj h)
    exact .dispatch rfl
  case h_7 | h_11 =>
    obtain ⟨rfl, rfl⟩ := Prod.mk.inj (Option.some.inj h)
    exact .reported rfl (by simp) (by decide) (by simp)
  case h_8 | h_12 =>
    split at h
    · rename_i hc
      obtain ⟨rfl, rfl⟩ := Prod.mk.inj (Option.some.inj h)
      exact .reported rfl (by simp) (by decide) fun _ => hc
    · exact absurd h (by simp)
  case h_13 built =>
    obtain ⟨rfl, rfl⟩ := Prod.mk.inj (Option.some.inj h)
    refine .reported rfl (by simp) ?_ ?_
    · cases built <;> decide
    · cases built <;> simp
  case h_14 =>
    obtain ⟨rfl, rfl⟩ := Prod.mk.inj (Option.some.inj h)
    exact .killed
  case h_16 => exact absurd h (by simp)

/-! ## The loop -/

/-- What a completion leaves to be written: `handle_cascade_skip`, `handle_alias_completion`, and
    the tally of the Job that was built. -/
inductive Effect
  | skip (jobId : JobId)
  | mirror (jobId : JobId) (status : JobStatus)
  | count (jobId : JobId) (status : JobStatus)
deriving DecidableEq, Repr

namespace Effect

/-- The Job it is about. -/
def jobId : Effect → JobId
  | skip jobId => jobId
  | mirror jobId _ => jobId
  | count jobId _ => jobId

/-- `known`: `specs_by_id` has the Job. -/
def apply (known : Bool) (row : EvalRow) (tally : JobTally) : Effect → EvalRow × JobTally
  | skip jobId =>
    if known then (row.finishJob jobId .failure, tally.record .failure) else (row, tally)
  | mirror jobId status =>
    if known then (row.finishJob jobId status, tally.record status) else (row, tally)
  | count _ status => (row, tally.record status)

end Effect

/-- Where the loop stands. `drained` is `strategy_drained_with_permit`. -/
inductive LoopPc
  | top
  | spawning
  | checking (drained : Bool)
  | parked
  | selecting (drained : Bool)
  | polled (drained : Bool)
  | settling (todo : List Effect)
  | aborting (todo : List Effect)
  | draining
  | finishing (status : EvalStatus)
  | posting
  | ended
deriving DecidableEq, Repr

/-- The build phase of one evaluation, with its tasks. -/
structure Phase where
  specsById : Persisted
  session : Session
  builds : HashMap DispatchToken BuildState
  pc : LoopPc
  tally : JobTally
  cancel : Bool
  /-- Dropped guards whose detached `interrupt_if_running` has not run yet. -/
  guards : List JobId
  /-- The status the phase finished its evaluation with. -/
  wrote : Option EvalStatus
  /-- The final overall check. -/
  posted : Option CheckState

namespace Phase

/-- Jobs without a derivation are counted up front. -/
def evalErrorTally (persisted : Persisted) : JobTally :=
  persisted.foldl (fun tally p => if p.1.drvPath.isSome then tally else tally.record .failure) {}

/-- The phase with its strategy loaded, at the loop head. -/
def start (persisted : Persisted) (strategy : DagStrategy) (cancel : Bool) : Phase :=
  { specsById := persisted
    session := Session.start strategy
    builds := ∅
    pc := .top
    tally := evalErrorTally persisted
    cancel := cancel
    guards := []
    wrote := none
    posted := none }

/-- `specs_by_id.contains_key` -/
def knows (p : Phase) (jobId : JobId) : Bool := p.specsById.any fun q => q.2 = jobId

/-- What the evaluation says of a Job. -/
def specOf (p : Phase) (jobId : JobId) : Option JobSpec :=
  (p.specsById.find? fun q => q.2 = jobId).map Prod.fst

/-- Where the exit checks lead. The second and the third exit also end in `finish(Done)`: the
    comment at the second speaks of a cancelled-finish, but there is none below it. -/
def afterChecks (p : Phase) (drained : Bool) : LoopPc :=
  if p.session.inFlight = [] ∧ p.session.strategy.pendingCount = 0 then .finishing .done
  else if p.cancel = true ∧ p.session.inFlight = [] then .finishing .done
  else if p.session.inFlight = [] then if drained then .finishing .done else .parked
  else .selecting drained

/-- The build task under a token, if it has not been joined. -/
def task (p : Phase) (token : DispatchToken) : Option (JobId × JobSpec × BuildState) := do
  let d ← p.session.inFlight.find? fun d => d.token = token
  let jobId ← d.headJob
  let spec ← p.specOf jobId
  let state ← p.builds.lookup token
  pure (jobId, spec, state)

/-- Take one finished task out of the set and tell the strategy. -/
def joined (p : Phase) (token : DispatchToken) (status : JobStatus) :
    CompletionEffects × Phase :=
  let (effects, s) := p.session.strategy.complete token status
  (effects,
    { p with
      session := p.session.record s (.complete token status) (.completed effects)
      builds := p.builds.erase token })

/-- What is written after a completion, in order. -/
def effectsOf (jobId : JobId) (status : JobStatus) (effects : CompletionEffects) : List Effect :=
  effects.cascadedSkips.map (fun skip => .skip skip.jobId)
    ++ effects.aliasCompletions.map (fun al => .mirror al.jobId status) ++ [.count jobId status]

end Phase

/-- What the loop, its tasks and others do in a phase. -/
inductive PhaseAct
  | look
  | noPermit
  | dispatch
  | check
  | wake
  | pollCancel
  | join (token : DispatchToken)
  | permit
  | sleep
  | handle
  | drain (token : DispatchToken)
  | drained
  | finish
  | post
  | build (token : DispatchToken) (act : BuildAct)
  | dropGuard (jobId : JobId)
  | supersede
  | fire
deriving DecidableEq, Repr

namespace Phase

/-- One action of the phase of evaluation `e`, whose rows are `row`. -/
def act (e : EvalId) (row : EvalRow) (p : Phase) : PhaseAct → Option (EvalRow × Phase)
  | .look =>
    match p.pc with
    | .top => some (row, { p with pc := if p.cancel then .checking false else .spawning })
    | _ => none
  | .noPermit =>
    match p.pc with
    | .spawning => some (row, { p with pc := .checking false })
    | _ => none
  | .dispatch =>
    match p.pc, p.session.strategy.dispatch with
    | .spawning, (none, s) =>
      some (row, { p with
        session := p.session.record s .dispatch (.dispatched none)
        pc := .checking true })
    | .spawning, (some d, s) =>
      some (row, { p with
        session := p.session.record s .dispatch (.dispatched (some d))
        builds := p.builds.insert d.token .entered })
    | _, _ => none
  | .check =>
    match p.pc with
    | .checking drained => some (row, { p with pc := p.afterChecks drained })
    | _ => none
  | .wake =>
    match p.pc with
    | .parked => some (row, { p with pc := .top })
    | _ => none
  | .pollCancel =>
    match p.pc with
    | .selecting drained =>
      if p.cancel then
        let (skips, s) := p.session.strategy.cancelEval e
        some (row, { p with
          session := p.session.record s (.cancelEval e) (.cancelled skips)
          pc := .aborting (skips.map fun skip => .skip skip.jobId) })
      else some (row, { p with pc := .polled drained })
    | _ => none
  | .join token =>
    match p.pc, p.task token with
    | .polled _, some (jobId, _, .returned outcome) =>
      let (effects, p') := p.joined token outcome.finalStatus
      some (row, { p' with pc := .settling (effectsOf jobId outcome.finalStatus effects) })
    | _, _ => none
  | .permit =>
    match p.pc with
    | .polled drained =>
      if drained = false ∧ 0 < p.session.strategy.pendingCount then some (row, { p with pc := .top })
      else none
    | _ => none
  | .sleep =>
    match p.pc with
    | .polled drained => some (row, { p with pc := .selecting drained })
    | _ => none
  | .handle =>
    match p.pc with
    | .settling [] => some (row, { p with pc := .top })
    | .settling (x :: todo) =>
      let (row', tally) := x.apply (p.knows x.jobId) row p.tally
      some (row', { p with tally := tally, pc := .settling todo })
    | .aborting [] => some (row, { p with pc := .draining })
    | .aborting (x :: todo) =>
      let (row', tally) := x.apply (p.knows x.jobId) row p.tally
      some (row', { p with tally := tally, pc := .aborting todo })
    | _ => none
  | .drain token =>
    match p.pc, p.task token with
    | .draining, some (_, _, .returned _) => some (row, (p.joined token .cancelled).2)
    | _, _ => none
  | .drained =>
    match p.pc, p.session.inFlight with
    | .draining, [] => some (row, { p with pc := .finishing .cancelled })
    | _, _ => none
  | .finish =>
    match p.pc with
    | .finishing status =>
      some (row.finish status,
        { p with wrote := some status, pc := if status = .cancelled then .ended else .posting })
    | _ => none
  | .post =>
    match p.pc with
    | .posting => some (row, { p with posted := some p.tally.overallState, pc := .ended })
    | _ => none
  | .build token a =>
    match p.task token with
    | some (jobId, spec, state) =>
      (buildOne p.cancel spec state a).map fun (state', write) =>
        ((write.map (RowWrite.apply jobId row)).getD row,
          { p with
            builds := p.builds.insert token state'
            guards :=
              if state.holdsGuard && state'.hasReturned then p.guards ++ [jobId] else p.guards })
    | none => none
  | .dropGuard jobId =>
    if jobId ∈ p.guards then
      some (row.interruptIfRunning jobId, { p with guards := p.guards.erase jobId })
    else none
  | .supersede => some (row.finish .cancelled, p)
  | .fire => if row.status.isTerminal then some (row, { p with cancel := true }) else none

/-- The same phase with the maps of its strategy in another order. -/
def reorder (p : Phase) (s : DagStrategy) : Phase :=
  { p with session := { p.session with strategy := s } }

end Phase

/-- One action, the hash maps being iterated in any order. -/
def PhaseStep (e : EvalId) (row : EvalRow) (p : Phase) (a : PhaseAct) (row' : EvalRow)
    (p' : Phase) : Prop :=
  ∃ s, Shuffle p.session.strategy s ∧ (p.reorder s).act e row a = some (row', p')

/-! ## What an action can do -/

/-- What an action comes to: the row and the phase after it. -/
inductive PhaseActs (e : EvalId) (row : EvalRow) (p : Phase) :
    PhaseAct → EvalRow → Phase → Prop
  | look : p.pc = .top →
      PhaseActs e row p .look row { p with pc := if p.cancel then .checking false else .spawning }
  | noPermit : p.pc = .spawning →
      PhaseActs e row p .noPermit row { p with pc := .checking false }
  | idle {s : DagStrategy} : p.pc = .spawning → p.session.strategy.dispatch = (none, s) →
      PhaseActs e row p .dispatch row { p with
        session := p.session.record s .dispatch (.dispatched none)
        pc := .checking true }
  | spawned {d : Dispatched} {s : DagStrategy} : p.pc = .spawning →
      p.session.strategy.dispatch = (some d, s) →
      PhaseActs e row p .dispatch row { p with
        session := p.session.record s .dispatch (.dispatched (some d))
        builds := p.builds.insert d.token .entered }
  | check {drained : Bool} : p.pc = .checking drained →
      PhaseActs e row p .check row { p with pc := p.afterChecks drained }
  | wake : p.pc = .parked → PhaseActs e row p .wake row { p with pc := .top }
  | abort {drained : Bool} : p.pc = .selecting drained → p.cancel = true →
      PhaseActs e row p .pollCancel row { p with
        session := p.session.record (p.session.strategy.cancelEval e).2 (.cancelEval e)
          (.cancelled (p.session.strategy.cancelEval e).1)
        pc := .aborting ((p.session.strategy.cancelEval e).1.map fun skip => .skip skip.jobId) }
  | polled {drained : Bool} : p.pc = .selecting drained → p.cancel = false →
      PhaseActs e row p .pollCancel row { p with pc := .polled drained }
  | join {drained : Bool} {token : DispatchToken} {jobId : JobId} {spec : JobSpec}
      {outcome : Outcome} : p.pc = .polled drained →
      p.task token = some (jobId, spec, .returned outcome) →
      PhaseActs e row p (.join token) row { (p.joined token outcome.finalStatus).2 with
        pc := .settling (Phase.effectsOf jobId outcome.finalStatus
          (p.joined token outcome.finalStatus).1) }
  | permit {drained : Bool} : p.pc = .polled drained → drained = false →
      0 < p.session.strategy.pendingCount → PhaseActs e row p .permit row { p with pc := .top }
  | sleep {drained : Bool} : p.pc = .polled drained →
      PhaseActs e row p .sleep row { p with pc := .selecting drained }
  | settled : p.pc = .settling [] → PhaseActs e row p .handle row { p with pc := .top }
  | settle {x : Effect} {todo : List Effect} : p.pc = .settling (x :: todo) →
      PhaseActs e row p .handle (x.apply (p.knows x.jobId) row p.tally).1
        { p with tally := (x.apply (p.knows x.jobId) row p.tally).2, pc := .settling todo }
  | aborted : p.pc = .aborting [] → PhaseActs e row p .handle row { p with pc := .draining }
  | skip {x : Effect} {todo : List Effect} : p.pc = .aborting (x :: todo) →
      PhaseActs e row p .handle (x.apply (p.knows x.jobId) row p.tally).1
        { p with tally := (x.apply (p.knows x.jobId) row p.tally).2, pc := .aborting todo }
  | drain {token : DispatchToken} {jobId : JobId} {spec : JobSpec} {outcome : Outcome} :
      p.pc = .draining → p.task token = some (jobId, spec, .returned outcome) →
      PhaseActs e row p (.drain token) row (p.joined token .cancelled).2
  | drained : p.pc = .draining → p.session.inFlight = [] →
      PhaseActs e row p .drained row { p with pc := .finishing .cancelled }
  | finish {status : EvalStatus} : p.pc = .finishing status →
      PhaseActs e row p .finish (row.finish status)
        { p with wrote := some status, pc := if status = .cancelled then .ended else .posting }
  | post : p.pc = .posting →
      PhaseActs e row p .post row { p with posted := some p.tally.overallState, pc := .ended }
  | build {token : DispatchToken} {jobId : JobId} {spec : JobSpec} {state state' : BuildState}
      {write : Option RowWrite} {a : BuildAct} : p.task token = some (jobId, spec, state) →
      buildOne p.cancel spec state a = some (state', write) →
      PhaseActs e row p (.build token a) ((write.map (RowWrite.apply jobId row)).getD row)
        { p with
          builds := p.builds.insert token state'
          guards :=
            if state.holdsGuard && state'.hasReturned then p.guards ++ [jobId] else p.guards }
  | dropGuard {jobId : JobId} : jobId ∈ p.guards →
      PhaseActs e row p (.dropGuard jobId) (row.interruptIfRunning jobId)
        { p with guards := p.guards.erase jobId }
  | supersede : PhaseActs e row p .supersede (row.finish .cancelled) p
  | fire : row.status.isTerminal = true → PhaseActs e row p .fire row { p with cancel := true }

theorem Phase.act_acts {e : EvalId} {row row' : EvalRow} {p p' : Phase} {a : PhaseAct}
    (h : p.act e row a = some (row', p')) : PhaseActs e row p a row' p' := by
  cases a with
  | look =>
    simp only [Phase.act] at h
    split at h
    · rename_i hpc
      obtain ⟨rfl, rfl⟩ := Prod.mk.inj (Option.some.inj h)
      exact .look hpc
    · exact absurd h (by simp)
  | noPermit =>
    simp only [Phase.act] at h
    split at h
    · rename_i hpc
      obtain ⟨rfl, rfl⟩ := Prod.mk.inj (Option.some.inj h)
      exact .noPermit hpc
    · exact absurd h (by simp)
  | dispatch =>
    simp only [Phase.act] at h
    split at h
    · rename_i s hpc hd
      obtain ⟨rfl, rfl⟩ := Prod.mk.inj (Option.some.inj h)
      exact .idle hpc hd
    · rename_i d s hpc hd
      obtain ⟨rfl, rfl⟩ := Prod.mk.inj (Option.some.inj h)
      exact .spawned hpc hd
    · exact absurd h (by simp)
  | check =>
    simp only [Phase.act] at h
    split at h
    · rename_i drained hpc
      obtain ⟨rfl, rfl⟩ := Prod.mk.inj (Option.some.inj h)
      exact .check hpc
    · exact absurd h (by simp)
  | wake =>
    simp only [Phase.act] at h
    split at h
    · rename_i hpc
      obtain ⟨rfl, rfl⟩ := Prod.mk.inj (Option.some.inj h)
      exact .wake hpc
    · exact absurd h (by simp)
  | pollCancel =>
    simp only [Phase.act] at h
    split at h
    · rename_i drained hpc
      split at h
      · rename_i hc
        obtain ⟨rfl, rfl⟩ := Prod.mk.inj (Option.some.inj h)
        exact .abort hpc hc
      · rename_i hc
        obtain ⟨rfl, rfl⟩ := Prod.mk.inj (Option.some.inj h)
        exact .polled hpc (by simpa using hc)
    · exact absurd h (by simp)
  | join token =>
    simp only [Phase.act] at h
    split at h
    · rename_i drained jobId spec outcome hpc ht
      obtain ⟨rfl, rfl⟩ := Prod.mk.inj (Option.some.inj h)
      exact .join hpc ht
    · exact absurd h (by simp)
  | permit =>
    simp only [Phase.act] at h
    split at h
    · rename_i drained hpc
      split at h
      · rename_i hc
        obtain ⟨rfl, rfl⟩ := Prod.mk.inj (Option.some.inj h)
        exact .permit hpc hc.1 hc.2
      · exact absurd h (by simp)
    · exact absurd h (by simp)
  | sleep =>
    simp only [Phase.act] at h
    split at h
    · rename_i drained hpc
      obtain ⟨rfl, rfl⟩ := Prod.mk.inj (Option.some.inj h)
      exact .sleep hpc
    · exact absurd h (by simp)
  | handle =>
    simp only [Phase.act] at h
    split at h
    · rename_i hpc
      obtain ⟨rfl, rfl⟩ := Prod.mk.inj (Option.some.inj h)
      exact .settled hpc
    · rename_i x todo hpc
      obtain ⟨rfl, rfl⟩ := Prod.mk.inj (Option.some.inj h)
      exact .settle hpc
    · rename_i hpc
      obtain ⟨rfl, rfl⟩ := Prod.mk.inj (Option.some.inj h)
      exact .aborted hpc
    · rename_i x todo hpc
      obtain ⟨rfl, rfl⟩ := Prod.mk.inj (Option.some.inj h)
      exact .skip hpc
    · exact absurd h (by simp)
  | drain token =>
    simp only [Phase.act] at h
    split at h
    · rename_i jobId spec outcome hpc ht
      obtain ⟨rfl, rfl⟩ := Prod.mk.inj (Option.some.inj h)
      exact .drain hpc ht
    · exact absurd h (by simp)
  | drained =>
    simp only [Phase.act] at h
    split at h
    · rename_i hpc hset
      obtain ⟨rfl, rfl⟩ := Prod.mk.inj (Option.some.inj h)
      exact .drained hpc hset
    · exact absurd h (by simp)
  | finish =>
    simp only [Phase.act] at h
    split at h
    · rename_i status hpc
      obtain ⟨rfl, rfl⟩ := Prod.mk.inj (Option.some.inj h)
      exact .finish hpc
    · exact absurd h (by simp)
  | post =>
    simp only [Phase.act] at h
    split at h
    · rename_i hpc
      obtain ⟨rfl, rfl⟩ := Prod.mk.inj (Option.some.inj h)
      exact .post hpc
    · exact absurd h (by simp)
  | build token a =>
    simp only [Phase.act] at h
    split at h
    · rename_i jobId spec state ht
      obtain ⟨⟨state', write⟩, hb, hr⟩ := Option.map_eq_some_iff.mp h
      obtain ⟨rfl, rfl⟩ := Prod.mk.inj hr
      exact .build ht hb
    · exact absurd h (by simp)
  | dropGuard jobId =>
    simp only [Phase.act] at h
    split at h
    · rename_i hg
      obtain ⟨rfl, rfl⟩ := Prod.mk.inj (Option.some.inj h)
      exact .dropGuard hg
    · exact absurd h (by simp)
  | supersede =>
    obtain ⟨rfl, rfl⟩ := Prod.mk.inj (Option.some.inj h)
    exact .supersede
  | fire =>
    simp only [Phase.act] at h
    split at h
    · rename_i hst
      obtain ⟨rfl, rfl⟩ := Prod.mk.inj (Option.some.inj h)
      exact .fire hst
    · exact absurd h (by simp)

/-! ## Frames -/

theorem Effect.specs_apply (x : Effect) (known : Bool) (row : EvalRow) (tally : JobTally) :
    (x.apply known row tally).1.specs = row.specs := by
  cases x <;> cases known <;> first | rfl | exact EvalRow.specs_updateJob _ _ _

/-- A phase neither adds Job rows nor rewrites their specs. -/
theorem PhaseActs.specs {e : EvalId} {row row' : EvalRow} {p p' : Phase} {a : PhaseAct}
    (h : PhaseActs e row p a row' p') : row'.specs = row.specs := by
  cases h with
  | settle | skip => exact Effect.specs_apply _ _ _ _
  | finish | supersede => exact EvalRow.specs_guardedStatus _ _
  | @build _ _ _ _ _ write =>
    cases write with
    | none => rfl
    | some r => cases r <;> exact EvalRow.specs_updateJob _ _ _
  | dropGuard => exact EvalRow.specs_updateJob _ _ _
  | look | noPermit | idle | spawned | check | wake | abort | polled | join | permit | sleep
  | settled | aborted | drain | drained | post | fire => rfl

theorem PhaseStep.acts {e : EvalId} {row row' : EvalRow} {p p' : Phase} {a : PhaseAct}
    (h : PhaseStep e row p a row' p') :
    ∃ s, Shuffle p.session.strategy s ∧ PhaseActs e row (p.reorder s) a row' p' := by
  obtain ⟨s, hs, hact⟩ := h
  exact ⟨s, hs, Phase.act_acts hact⟩

end Argunix.Daemon
