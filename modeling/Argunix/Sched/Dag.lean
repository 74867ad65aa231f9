import Mathlib.Tactic.Simps.Basic
import Argunix.Sched.Wfq

/-!
# `argunix-sched::dag`: the dependency-aware strategy

The scheduler keeps one `Step` per derivation path. A Step waits for the inputs that were
already in the graph when it was inserted (`depsUnfinished` counts them, the input's `rdeps`
records them), is then given a token and pushed onto the WFQ core, and is closed by
`complete`, by the breadth-first `cascadeSkip` behind a failed Step, or by `cancelEval`.

Two loops of the source are bounded by the state and not by their input: the worklist of
`cascade_skip` and the swallow loop of `dispatch`. Both take the bound as fuel here, and
`Sched.StepGraph` proves that the fuel never runs out.

Deletion from the WFQ queue is lazy: a closed Step only drops its entry of `tokenToDrv`, and
`dispatch` swallows the stale tag when it comes up.
-/

set_option autoImplicit false

namespace Argunix.Sched

open Argunix.Lib

/-! ## What goes in and out of a strategy -/

/-- Strategy-assigned identifier of one in-flight dispatch. -/
structure DispatchToken where
  get : ℕ
deriving DecidableEq, Repr

/-- A Job to be scheduled: the derivation it asks for, and what that needs, in the order of the
    walk. -/
structure ScheduleItem where
  repoId : RepoId
  evalId : EvalId
  jobId : JobId
  headDrv : DerivationInfo
  closure : List DerivationInfo
deriving DecidableEq, Repr

/-- What `dispatch` hands out. `headJob` is the Job that asked first, if any did. -/
structure Dispatched where
  token : DispatchToken
  repoId : RepoId
  evalId : EvalId
  drvPath : String
  system : Option String
  requiredFeatures : List String
  headJob : Option JobId
deriving DecidableEq, Repr

/-- A Job that asked for a derivation another Job had built. -/
structure AliasCompletion where
  jobId : JobId
  evalId : EvalId
  repoId : RepoId
deriving DecidableEq, Repr

/-- A Job that will not be built, and the derivation whose failure is the reason. -/
structure CascadedSkip where
  jobId : JobId
  evalId : EvalId
  repoId : RepoId
  reasonDrv : String
deriving DecidableEq, Repr

/-- What `complete` asks its caller to write. -/
structure CompletionEffects where
  repoId : Option RepoId := none
  cascadedSkips : List CascadedSkip := []
  aliasCompletions : List AliasCompletion := []
deriving DecidableEq, Repr

/-! ## The Step graph -/

/-- Where a derivation stands. -/
inductive StepState
  | pending
  | ready
  | running
  | success
  | cached
  | failure
  | cancelled
  | skipped
deriving DecidableEq, Repr

namespace StepState

/-- `is_terminal` -/
def isTerminal : StepState → Bool
  | success | cached | failure | cancelled | skipped => true
  | pending | ready | running => false

/-- `is_successful_terminal`: what depends on it may be built. -/
def isSuccessfulTerminal : StepState → Bool
  | success | cached => true
  | _ => false

/-- The state a verdict closes a derivation with. A status that is no verdict counts as a failure.
    -/
def fromStatus : JobStatus → StepState
  | .success => success
  | .cached => cached
  | .failure => failure
  | .cancelled => cancelled
  | .skippedNoBuilder => skipped
  | .queued | .running | .interrupted => failure

/-- The states in which a Step holds a token. -/
def isLive : StepState → Bool
  | ready | running => true
  | _ => false

end StepState

/-- `Step`: one derivation, whoever asked for it. -/
structure Step where
  drvPath : String
  system : Option String
  requiredFeatures : List String
  repoId : RepoId
  evalId : EvalId
  state : StepState
  depsUnfinished : ℕ
  /-- drv paths that depend on this one. -/
  rdeps : List String
  /-- Top-level Jobs whose head derivation this is, the primary first. -/
  headJobs : List JobId
  inFlightToken : Option DispatchToken
deriving DecidableEq, Repr

namespace Step

/-- A derivation nobody has asked for yet. -/
def new (drv : DerivationInfo) (repoId : RepoId) (evalId : EvalId) : Step :=
  { drvPath := drv.drvPath
    system := drv.system
    requiredFeatures := drv.requiredFeatures
    repoId := repoId
    evalId := evalId
    state := .pending
    depsUnfinished := 0
    rdeps := []
    headJobs := []
    inFlightToken := none }

/-- State change at a terminal transition, with `in_flight_token.take()`. -/
@[simps]
def close (state : StepState) (st : Step) : Step :=
  { st with state := state, inFlightToken := none }

/-- Promotion to `Ready` under a fresh token. -/
@[simps]
def makeReady (token : DispatchToken) (st : Step) : Step :=
  { st with state := .ready, inFlightToken := some token }

/-- It was dispatched. -/
@[simps]
def makeRunning (st : Step) : Step := { st with state := .running }

/-- `deps_unfinished += 1` -/
@[simps]
def waitMore (st : Step) : Step := { st with depsUnfinished := st.depsUnfinished + 1 }

/-- `deps_unfinished.saturating_sub(1)` -/
@[simps]
def waitLess (st : Step) : Step := { st with depsUnfinished := st.depsUnfinished - 1 }

/-- One more derivation waits for this one. -/
@[simps]
def addRdep (drvPath : String) (st : Step) : Step := { st with rdeps := st.rdeps ++ [drvPath] }

/-- One more Job asks for this one. -/
@[simps]
def linkJob (jobId : JobId) (st : Step) : Step := { st with headJobs := st.headJobs ++ [jobId] }

/-- `std::mem::take(&mut step.head_jobs)` -/
@[simps]
def unlinkJobs (st : Step) : Step := { st with headJobs := [] }

/-- `Pending` with every in-graph dependency satisfied. -/
def promotable (st : Step) : Bool := st.state == .pending && st.depsUnfinished == 0

end Step

/-- The graph of derivations over the queues of `WfqCore`. -/
structure DagStrategy where
  wfq : WfqCore DispatchToken
  byDrv : HashMap String Step
  tokenToDrv : HashMap DispatchToken String
  nextToken : ℕ
  jobMeta : HashMap JobId (RepoId × EvalId)

namespace DagStrategy

/-- No derivation is known. -/
def new (concurrencyCap : Option ℕ) : DagStrategy :=
  { wfq := WfqCore.new concurrencyCap
    byDrv := ∅
    tokenToDrv := ∅
    nextToken := 0
    jobMeta := ∅ }

/-- `by_drv.get_mut(drv_path)` with an update in place. -/
def modifyStep (s : DagStrategy) (drvPath : String) (f : Step → Step) : DagStrategy :=
  { s with byDrv := s.byDrv.modify drvPath f }

/-- `set_weight` -/
def setWeight (s : DagStrategy) (repoId : RepoId) (weight : ℕ) : DagStrategy :=
  { s with wfq := s.wfq.setWeight repoId weight }

/-! ### Enqueue -/

/-- Insert a Step for `drv` if absent; answers whether this call inserted it. -/
def upsertStep (s : DagStrategy) (drv : DerivationInfo) (repoId : RepoId) (evalId : EvalId) :
    Bool × DagStrategy :=
  match s.byDrv.lookup drv.drvPath with
  | some _ => (false, s)
  | none => (true, { s with byDrv := s.byDrv.insert drv.drvPath (Step.new drv repoId evalId) })

/-- The inner loop body of `build_edges_for`. An input that is not in the graph is external; one
    that has already succeeded needs no gating. -/
def addEdge (drvPath : String) (s : DagStrategy) (input : String) : DagStrategy :=
  match s.byDrv.lookup input with
  | none => s
  | some dep =>
    if dep.state.isSuccessfulTerminal then s
    else (s.modifyStep drvPath (·.waitMore)).modifyStep input (·.addRdep drvPath)

/-- `build_edges_for`: the inputs of what is new, as far as they are in the graph. -/
def buildEdgesFor (s : DagStrategy) (newlyInserted : List String)
    (inputsByDrv : HashMap String (List String)) : DagStrategy :=
  newlyInserted.foldl (fun s drvPath =>
    match inputsByDrv.lookup drvPath with
    | none => s
    | some inputs => inputs.foldl (addEdge drvPath) s) s

/-- The Steps `promote_ready_steps` collects, in the iteration order of `by_drv`. -/
def toPromote (s : DagStrategy) : List (String × RepoId) :=
  s.byDrv.entries.filterMap fun e => if e.2.promotable then some (e.1, e.2.repoId) else none

/-- The loop body of `promote_ready_steps`: mint a token, mark the Step, push to WFQ. -/
def promoteStep (s : DagStrategy) (p : String × RepoId) : DagStrategy :=
  let token : DispatchToken := ⟨s.nextToken⟩
  { s with
    nextToken := s.nextToken + 1
    byDrv := s.byDrv.modify p.1 (·.makeReady token)
    tokenToDrv := s.tokenToDrv.insert token p.1
    wfq := s.wfq.enqueue p.2 token }

/-- `promote_ready_steps`, in the order the map iterates. -/
def promoteReadySteps (s : DagStrategy) : DagStrategy := s.toPromote.foldl promoteStep s

/-- `inputs_by_drv`: the head's inputs, then each closure entry's, a later one replacing an
    earlier one under the same path. -/
def inputsByDrv (item : ScheduleItem) : HashMap String (List String) :=
  item.closure.foldl (fun m drv => m.insert drv.drvPath drv.inputDrvs)
    (AList.insert item.headDrv.drvPath item.headDrv.inputDrvs ∅)

/-- The upsert loop over the closure and then the head, with the paths that were new. -/
def upsertAll (s : DagStrategy) (item : ScheduleItem) : List String × DagStrategy :=
  (item.closure ++ [item.headDrv]).foldl (fun acc drv =>
    match acc.2.upsertStep drv item.repoId item.evalId with
    | (true, s) => (acc.1 ++ [drv.drvPath], s)
    | (false, s) => (acc.1, s)) ([], s)

/-- `enqueue` up to the promotion: the metadata, the new Steps, the head link, the edges. -/
def insertItem (s : DagStrategy) (item : ScheduleItem) : DagStrategy :=
  let s := { s with jobMeta := s.jobMeta.insert item.jobId (item.repoId, item.evalId) }
  let (newlyInserted, s) := s.upsertAll item
  let s := s.modifyStep item.headDrv.drvPath (·.linkJob item.jobId)
  s.buildEdgesFor newlyInserted (inputsByDrv item)

/-- `enqueue` -/
def enqueue (s : DagStrategy) (item : ScheduleItem) : DagStrategy :=
  (s.insertItem item).promoteReadySteps

/-! ### Dispatch -/

/-- The swallow loop: a popped token without an entry of `tokenToDrv` belongs to a Step that was
    closed while it was queued. -/
def dispatchLoop : ℕ → DagStrategy → Option Dispatched × DagStrategy
  | 0, s => (none, s)
  | fuel + 1, s =>
    match s.wfq.dispatch with
    | (none, wfq) => (none, { s with wfq := wfq })
    | (some popped, wfq) =>
      match s.tokenToDrv.lookup popped.tag with
      | none => dispatchLoop fuel { s with wfq := (wfq.complete popped.tag).2 }
      | some drvPath =>
        match s.byDrv.lookup drvPath with
        | none => (none, { s with wfq := wfq }) -- `unwrap`
        | some step =>
          (some
            { token := popped.tag
              repoId := popped.repoId
              evalId := step.evalId
              drvPath := step.drvPath
              system := step.system
              requiredFeatures := step.requiredFeatures
              headJob := step.headJobs.head? },
            { s with
              wfq := wfq
              byDrv := s.byDrv.modify drvPath (·.makeRunning) })

/-- `dispatch`. A token in a queue may be stale; each is looked at once at most. -/
def dispatch (s : DagStrategy) : Option Dispatched × DagStrategy :=
  dispatchLoop (s.wfq.pendingCount + 1) s

/-! ### Closing Steps -/

/-- Close a Step and drop its token mapping, as `cascade_skip` and `cancel_eval` do. -/
def retire (s : DagStrategy) (drvPath : String) (state : StepState) : DagStrategy :=
  { s with
    byDrv := s.byDrv.modify drvPath (·.close state)
    tokenToDrv :=
      match (s.byDrv.lookup drvPath).bind (·.inFlightToken) with
      | some tok => s.tokenToDrv.erase tok
      | none => s.tokenToDrv }

/-- One skip for every given Job that is still tracked. -/
def skipsFor (s : DagStrategy) (reasonDrv : String) (jobs : List JobId) : List CascadedSkip :=
  jobs.filterMap fun jobId => (s.jobMeta.lookup jobId).map fun owner =>
    { jobId := jobId, evalId := owner.2, repoId := owner.1, reasonDrv := reasonDrv }

/-- The breadth-first worklist of `cascade_skip`. -/
def cascadeLoop (fromDrv : String) :
    ℕ → List String → List CascadedSkip → DagStrategy → List CascadedSkip × DagStrategy
  | 0, _, out, s => (out, s)
  | _ + 1, [], out, s => (out, s)
  | fuel + 1, rdepPath :: queue, out, s =>
    match s.byDrv.lookup rdepPath with
    | none => cascadeLoop fromDrv fuel queue out s
    | some rdep =>
      if rdep.state.isTerminal then cascadeLoop fromDrv fuel queue out s
      else
        cascadeLoop fromDrv fuel (queue ++ rdep.rdeps)
          (out ++ s.skipsFor fromDrv rdep.headJobs) (s.retire rdepPath .skipped)

/-- Recorded edges out of Steps that are not closed: each can be queued at most once more. -/
def openRdeps (s : DagStrategy) : ℕ :=
  s.byDrv.sumOver fun _ st => if st.state.isTerminal then 0 else st.rdeps.length

/-- What waits for a derivation. -/
def rdepsOf (s : DagStrategy) (drvPath : String) : List String :=
  ((s.byDrv.lookup drvPath).map (·.rdeps)).getD []

/-- `cascade_skip`: everything that waits for the derivation, near or far. -/
def cascadeSkip (s : DagStrategy) (fromDrv : String) : List CascadedSkip × DagStrategy :=
  cascadeLoop fromDrv ((s.rdepsOf fromDrv).length + s.openRdeps) (s.rdepsOf fromDrv) [] s

/-! ### Complete -/

/-- The loop over the rdeps of a Step that succeeded. -/
def decrementRdeps (s : DagStrategy) (rdeps : List String) : DagStrategy :=
  rdeps.foldl (fun s rdepPath => s.modifyStep rdepPath (·.waitLess)) s

/-- Every head Job past the primary, as far as it is still tracked. -/
def aliasesFor (s : DagStrategy) (headJobs : List JobId) : List AliasCompletion :=
  (headJobs.drop 1).filterMap fun jobId => (s.jobMeta.lookup jobId).map fun owner =>
    { jobId := jobId, evalId := owner.2, repoId := owner.1 }

/-- The part of `complete` before the two branches: the token leaves the map and the WFQ slots,
    its Step is closed. -/
def closeToken (s : DagStrategy) (token : DispatchToken) (drvPath : String) (state : StepState) :
    DagStrategy :=
  { s with
    tokenToDrv := s.tokenToDrv.erase token
    byDrv := s.byDrv.modify drvPath (·.close state)
    wfq := (s.wfq.complete token).2 }

/-- `complete` -/
def complete (s : DagStrategy) (token : DispatchToken) (status : JobStatus) :
    CompletionEffects × DagStrategy :=
  match s.tokenToDrv.lookup token with
  | none => ({}, s)
  | some drvPath =>
    match s.byDrv.lookup drvPath with
    | none => ({}, { s with tokenToDrv := s.tokenToDrv.erase token }) -- `unwrap`
    | some step =>
      let newState := StepState.fromStatus status
      let repoId := (s.wfq.complete token).1
      let s := s.closeToken token drvPath newState
      let (cascadedSkips, s) :=
        if newState.isSuccessfulTerminal then ([], (s.decrementRdeps step.rdeps).promoteReadySteps)
        else s.cascadeSkip drvPath
      ({ repoId := repoId
         cascadedSkips := cascadedSkips
         aliasCompletions := s.aliasesFor step.headJobs }, s)

/-! ### Cancel -/

/-- `format!("eval {} cancelled", eval_id.get())` -/
def cancelReason (evalId : EvalId) : String := "eval " ++ toString evalId.get ++ " cancelled"

/-- The head Step `cancel_eval` finds for a Job, scanning `by_drv` in iteration order. -/
def findHead (s : DagStrategy) (jobId : JobId) : Option (String × Step) :=
  (s.byDrv.entries.find? fun e => e.2.headJobs.contains jobId).map fun e => (e.1, e.2)

/-- One direct skip per Job of a cancelled head Step. -/
def directSkips (s : DagStrategy) (evalId : EvalId) (repoId : RepoId) (jobs : List JobId) :
    List CascadedSkip :=
  jobs.map fun jobId =>
    let owner := (s.jobMeta.lookup jobId).getD (repoId, evalId)
    { jobId := jobId, evalId := owner.2, repoId := owner.1, reasonDrv := cancelReason evalId }

/-- Cancel a head Step: close it, drop its token and its Jobs. -/
def cancelHead (s : DagStrategy) (headDrv : String) : DagStrategy :=
  (s.retire headDrv .cancelled).modifyStep headDrv (·.unlinkJobs)

/-- The Job has its verdict. -/
def forgetJob (s : DagStrategy) (jobId : JobId) : DagStrategy :=
  { s with jobMeta := s.jobMeta.erase jobId }

/-- The loop body of `cancel_eval`. -/
def cancelJob (evalId : EvalId) (s : DagStrategy) (jobId : JobId) :
    List CascadedSkip × DagStrategy :=
  match s.findHead jobId with
  | none =>
    match s.jobMeta.lookup jobId with
    | none => ([], s)
    | some (repoId, evalId) =>
      ([{ jobId := jobId, evalId := evalId, repoId := repoId, reasonDrv := cancelReason evalId }],
        s.forgetJob jobId)
  | some (headDrv, step) =>
    match step.state with
    | .pending | .ready =>
      let direct := s.directSkips evalId step.repoId step.headJobs
      let (cascade, s) := (s.cancelHead headDrv).cascadeSkip headDrv
      (direct ++ cascade.map (fun skip => { skip with reasonDrv := cancelReason evalId }),
        s.forgetJob jobId)
    | .running | .success | .cached | .failure | .cancelled | .skipped => ([], s.forgetJob jobId)

/-- The Jobs of the evaluation, in the iteration order of `job_meta`. -/
def jobsOf (s : DagStrategy) (evalId : EvalId) : List JobId :=
  (s.jobMeta.entries.filter fun e => e.2.2 = evalId).map Sigma.fst

/-- `cancel_eval`: the evaluation's Jobs leave the graph one by one. -/
def cancelEval (s : DagStrategy) (evalId : EvalId) : List CascadedSkip × DagStrategy :=
  (s.jobsOf evalId).foldl (fun acc jobId =>
    let (skips, s) := cancelJob evalId acc.2 jobId
    (acc.1 ++ skips, s)) ([], s)

/-- `pending_count` -/
def pendingCount (s : DagStrategy) : ℕ := s.wfq.pendingCount

/-- `in_flight_count` -/
def inFlightCount (s : DagStrategy) : ℕ := s.wfq.inFlightCount

end DagStrategy

end Argunix.Sched
