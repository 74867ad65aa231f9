import Mathlib.Data.List.Perm.Basic
import Argunix.Lib.Acyclic
import Argunix.Lib.HashMap
import Argunix.Lib.Runs

/-!
# AgentFlow: the planner and the scheduler

`PlannerAgent` makes tasks that depend on each other: the builds of a flake come after its
evaluation. `SchedulerAgent` queues what is submitted, and gives the first task of its queue to an
agent as long as it finds one that has the capability for it and room left. It counts the tasks of
each agent.

Two things are missing. `depends_on` is read nowhere, and the arms of `TaskResult` and `TaskFailed`
update the task store and go no further than the comment *mark an agent as available*. So a build is
sent right after its evaluation, and **an agent keeps every task it was ever given**, unless it says
itself how many it has. Nor does the scheduler remember whose task is whose: an agent that becomes
ready again has none.

`respects_of_run` says that this is all: in every run in which tasks are submitted after what they
depend on has succeeded, no result is handled for a task of an agent that leaves the counting to the
scheduler, and no such agent becomes ready again with tasks, each task is sent once, after its
dependencies, and the counts are right. `not_respects_planned` is what the planner itself makes of a
flake.

The rounds of `schedule_pending` are steps of their own. While the loop lasts no message is handled.
-/

set_option autoImplicit false

namespace Argunix.AgentFlow

open Argunix.Lib

/-! ## Tasks and agents -/

/-- What a task asks for. -/
inductive TaskType
  | nixEval | nixBuild | nixCheck | nixDevShell | nixBundle
  | aiCodeReview | aiFlakeAnalysis | aiPlanGeneration
  | moeSync | moeVerify | moeGC
  | storeObject | loadObject | cacheCheck | cacheUpload | cacheCleanup
  | syncRepository | pollRepository | setupRepository | pollAllRepositories | webhookReceived
  | getRepositoryStatus
  | provisionVM | destroyVM | runTests
  | uploadToMoe | downloadFromMoe | syncWithMoe | createNamespace | switchGeneration
  | verifyMoeObject | batchVerifyMoe | verifyMoeIdentity
  | runGarbageCollection
  | postGitHubStatus | updateGitHubStatus | notifyGitHub
  | sendMatrixNotification | broadcastMatrixMessage | sendMatrixFile
  | customCommand | multiTask
deriving DecidableEq, Repr

/-- How far a task is. -/
inductive TaskStatus
  | pending | scheduled | running | succeeded | failed | cancelled | timeout
deriving DecidableEq, Repr

/-- What an agent can do. -/
inductive AgentType
  | planner | scheduler | monitor | orchestrator
  | flakeAnalyzer | dependencyGraph | securityGate | cacheManager | nixExecutor | builder
  | aiCodeReviewer | aiFlakeAnalyzer | aiPlanner | aiQualityGate
  | identityManager | storageManager | consensusManager | discovery
  | sourceControl
  | custom
deriving DecidableEq, Repr

/-- A task, with the fields that are read somewhere. -/
structure TaskDefinition where
  id : String
  taskType : TaskType
  status : TaskStatus
  priority : ℕ
  createdAt : ℕ
  completedAt : Option ℕ
  flakeUrl : Option String
  flakeRef : Option String
  system : Option String
  targets : Option (List String)
  dependsOn : Option (List String)
deriving DecidableEq, Repr

/-- An agent, as the state store has it. -/
structure AgentDefinition where
  agentType : AgentType
  capabilities : List String
  maxTasks : ℕ
deriving DecidableEq, Repr

/-- The messages of the bus that the scheduler sends or reads. -/
inductive AgentMessage
  | submitTask (task : TaskDefinition)
  | taskScheduled (taskId agentId : String)
  | executeTask (task : TaskDefinition)
  | taskResult (taskId : String) (status : TaskStatus) (completedAt : Option ℕ)
  | taskFailed (taskId error : String)
  | agentReady (agentId : String)
  | agentBusy (agentId : String) (taskCount : ℕ)
  | agentIdle (agentId : String)
  | deregisterAgent (agentId reason : String)
  /-- The scheduler ignores it. -/
  | other
deriving DecidableEq, Repr

namespace AgentMessage

/-- The task a message submits. -/
def submitted? : AgentMessage → Option TaskDefinition
  | submitTask task => some task
  | _ => none

/-- The task a message has executed. -/
def executed? : AgentMessage → Option TaskDefinition
  | executeTask task => some task
  | _ => none

/-- The task and the agent of an assignment. -/
def assigned? : AgentMessage → Option (String × String)
  | taskScheduled taskId agentId => some (taskId, agentId)
  | _ => none

/-- The task a message ends, and how. -/
def result? : AgentMessage → Option (String × TaskStatus)
  | taskResult taskId status _ => some (taskId, status)
  | taskFailed taskId _ => some (taskId, .failed)
  | _ => none

/-- The agent that sets its count itself. -/
def reporter? : AgentMessage → Option String
  | agentBusy agentId _ | agentIdle agentId => some agentId
  | _ => none

end AgentMessage

/-! ## The planner -/

/-- What a plan builds when it is not told. -/
def buildTargets : List String := ["packages.default", "checks.all", "devShells.default"]

/-- `now` is what the clock says, each time it is asked. -/
def analyzeAndPlan (flakeUrl : String) (flakeRef system : Option String) (now : ℕ → ℕ) :
    List TaskDefinition :=
  let system := system.getD "x86_64-linux"
  let evalTask : TaskDefinition :=
    { id := "eval-" ++ flakeUrl ++ "-" ++ system
      taskType := .nixEval
      status := .pending
      priority := 80
      createdAt := now 0
      completedAt := none
      flakeUrl := some flakeUrl
      flakeRef := flakeRef
      system := some system
      targets := some []
      dependsOn := none }
  let buildTasks := buildTargets.mapIdx fun i target =>
    { id := "build-" ++ flakeUrl ++ "-" ++ system ++ "-" ++ target
      taskType := .nixBuild
      status := .pending
      priority := 60
      createdAt := now (i + 1)
      completedAt := none
      flakeUrl := some flakeUrl
      flakeRef := flakeRef
      system := some system
      targets := some [target]
      dependsOn := some [evalTask.id] }
  evalTask :: buildTasks

/-! ## The scheduler -/

/-- A task in the heap, with the priority it was submitted with. -/
structure QueuedTask where
  task : TaskDefinition
  priority : ℕ
deriving DecidableEq, Repr

/-- The order of the heap. The greatest is the one with the least priority. -/
def QueuedTask.cmp (self other : QueuedTask) : Ordering :=
  (compare other.priority self.priority).then (compare self.task.createdAt other.task.createdAt)

/-- What the scheduler knows of an agent. -/
structure AgentInfo where
  id : String
  agentType : AgentType
  capabilities : List String
  maxTasks : ℕ
  currentTasks : ℕ
deriving DecidableEq, Repr

/-- `can_handle_task` -/
def AgentInfo.canHandleTask (agent : AgentInfo) (task : TaskDefinition) : Bool :=
  if agent.currentTasks ≥ agent.maxTasks then false
  else
    match task.taskType with
    | .nixEval | .nixBuild | .nixCheck | .nixDevShell | .nixBundle =>
      agent.capabilities.contains "nix-build" || agent.capabilities.contains "nix" ||
        agent.agentType == .nixExecutor || agent.agentType == .builder
    | .aiCodeReview | .aiFlakeAnalysis | .aiPlanGeneration =>
      agent.capabilities.contains "ai-inference" || agent.agentType == .aiCodeReviewer ||
        agent.agentType == .aiFlakeAnalyzer
    | .moeSync | .moeVerify | .moeGC =>
      agent.capabilities.contains "moe-storage" || agent.agentType == .storageManager
    | .storeObject | .loadObject | .cacheCheck | .cacheUpload | .cacheCleanup =>
      agent.capabilities.contains "storage" || agent.capabilities.contains "cache" ||
        agent.agentType == .storageManager
    | .syncRepository | .pollRepository | .setupRepository | .pollAllRepositories
    | .webhookReceived | .getRepositoryStatus =>
      agent.capabilities.contains "git-sync" || agent.agentType == .custom
    | .provisionVM | .destroyVM | .runTests =>
      agent.capabilities.contains "qemu-testing" || agent.agentType == .custom
    | .uploadToMoe | .downloadFromMoe | .syncWithMoe | .createNamespace | .switchGeneration =>
      agent.capabilities.contains "moe-sync" || agent.agentType == .custom
    | .verifyMoeObject | .batchVerifyMoe | .verifyMoeIdentity =>
      agent.capabilities.contains "moe-verify" || agent.agentType == .custom
    | .runGarbageCollection =>
      agent.capabilities.contains "moe-gc" || agent.agentType == .custom
    | .postGitHubStatus | .updateGitHubStatus | .notifyGitHub =>
      agent.capabilities.contains "github-status" || agent.agentType == .custom
    | .sendMatrixNotification | .broadcastMatrixMessage | .sendMatrixFile =>
      agent.capabilities.contains "matrix-notify" || agent.agentType == .custom
    | .customCommand | .multiTask => true

/-- Less busy agents are greater, and then those whose type matches. -/
def AgentInfo.cmpFor (task : TaskDefinition) (a b : AgentInfo) : Ordering :=
  (compare b.currentTasks a.currentTasks).then
    (match task.taskType, a.agentType, b.agentType with
    | .nixEval, .nixExecutor, _ => .gt
    | .nixEval, _, .nixExecutor => .lt
    | .nixBuild, .builder, _ => .gt
    | .nixBuild, _, .builder => .lt
    | _, _, _ => .eq)

/-- `max_by`: of two that compare as equal the later one is taken. -/
def maxBy {α : Type} (cmp : α → α → Ordering) : List α → Option α
  | [] => none
  | x :: xs => some (xs.foldl (fun best y => if cmp best y = .gt then best else y) x)

theorem maxBy_mem {α : Type} {cmp : α → α → Ordering} {l : List α} {x : α}
    (h : maxBy cmp l = some x) : x ∈ l := by
  cases l with
  | nil => cases h
  | cons y ys =>
    obtain rfl := Option.some.inj h
    -- the best so far is the first one or one of the rest
    have hfold : ∀ (zs : List α) (best : α),
        zs.foldl (fun best z => if cmp best z = .gt then best else z) best ∈ best :: zs := by
      intro zs
      induction zs with
      | nil => exact fun best => List.mem_singleton_self best
      | cons z zs ih =>
        intro best
        rw [List.foldl_cons]
        rcases List.mem_cons.mp (ih (if cmp best z = .gt then best else z)) with heq | hmem
        · rw [heq]
          split
          · exact List.mem_cons_self
          · exact List.mem_cons_of_mem _ List.mem_cons_self
        · exact List.mem_cons_of_mem _ (List.mem_cons_of_mem _ hmem)
    exact hfold ys y

theorem AgentInfo.lt_of_canHandleTask {agent : AgentInfo} {task : TaskDefinition}
    (h : agent.canHandleTask task = true) : agent.currentTasks < agent.maxTasks := by
  rw [canHandleTask] at h
  split at h
  · cases h
  · rename_i hroom
    exact Nat.lt_of_not_le hroom

/-- The scheduler with the stores it reads. The last two fields record what it was sent and what it
    has sent. -/
structure SchedulerAgent where
  /-- The heap. -/
  taskQueue : List QueuedTask
  agents : HashMap String AgentInfo
  taskStore : HashMap String TaskDefinition
  stateStore : HashMap String AgentDefinition
  /-- After how many messages the receiver of `sender` will be gone. -/
  hangsUp : Option ℕ
  /-- `schedule_pending` is running. -/
  scheduling : Bool
  /-- The messages it has handled. -/
  inbox : List AgentMessage
  /-- The messages it has sent. -/
  outbox : List AgentMessage

namespace SchedulerAgent

variable {s s' : SchedulerAgent}

/-- `order` is the order in which the map is iterated. -/
def findBestAgent (agents : HashMap String AgentInfo) (order : List String)
    (task : TaskDefinition) : Option String :=
  (maxBy (AgentInfo.cmpFor task)
    ((order.filterMap agents.lookup).filter fun agent => agent.canHandleTask task)).map
      AgentInfo.id

/-- `update_task`, with the two fields that the scheduler updates; an error if there is no such
    task. -/
def updateTask (store : HashMap String TaskDefinition) (id : String) (status : TaskStatus)
    (completedAt : Option ℕ) : Option (HashMap String TaskDefinition) :=
  if (store.lookup id).isSome then
    some (store.modify id fun task =>
      { task with status := status, completedAt := completedAt.or task.completedAt })
  else none

/-- `sender.send(message).await` -/
def send (s : SchedulerAgent) (message : AgentMessage) : Option SchedulerAgent :=
  match s.hangsUp with
  | none => some { s with outbox := s.outbox ++ [message] }
  | some 0 => none
  | some (n + 1) => some { s with hangsUp := some n, outbox := s.outbox ++ [message] }

/-- What can happen to the scheduler. -/
inductive Action
  | handle (message : AgentMessage)
  /-- A round of `schedule_pending`: which of the greatest tasks is on top of the heap, and in which
      order the agents are gone through. -/
  | round (i : ℕ) (order : List String)
  /-- Others write to the stores. -/
  | stores (tasks : HashMap String TaskDefinition) (agents : HashMap String AgentDefinition)

/-- `handle_message`, up to the call of `schedule_pending`. -/
def handleMessage (s : SchedulerAgent) : AgentMessage → SchedulerAgent
  | .submitTask task =>
    { s with
      taskQueue := s.taskQueue ++ [⟨task, task.priority⟩]
      taskStore := s.taskStore.insert task.id task
      scheduling := true }
  | .executeTask task =>
    -- which agent it is does not matter here
    if (findBestAgent s.agents s.agents.keys task).isSome then
      (s.send (.executeTask task)).getD s
    else { s with taskQueue := s.taskQueue ++ [⟨task, 50⟩] }
  | .taskResult taskId status completedAt =>
    { s with taskStore := (updateTask s.taskStore taskId status completedAt).getD s.taskStore }
  | .taskFailed taskId _ =>
    { s with taskStore := (updateTask s.taskStore taskId .failed none).getD s.taskStore }
  | .agentReady agentId =>
    match s.stateStore.lookup agentId with
    | some agentDef =>
      { s with
        agents := s.agents.insert agentId
          { id := agentId
            agentType := agentDef.agentType
            capabilities := agentDef.capabilities
            maxTasks := agentDef.maxTasks
            currentTasks := 0 }
        scheduling := true }
    | none => s
  | .agentBusy agentId taskCount =>
    { s with agents := s.agents.modify agentId fun agent =>
        { agent with currentTasks := taskCount } }
  | .agentIdle agentId =>
    { s with
      agents := s.agents.modify agentId fun agent => { agent with currentTasks := 0 }
      scheduling := true }
  | .deregisterAgent agentId _ => { s with agents := s.agents.erase agentId }
  | .taskScheduled _ _ | .other => s

/-- The task on top of the heap goes to an agent. An error ends the loop, wherever it happens. -/
def assign (s : SchedulerAgent) (i : ℕ) (task : TaskDefinition) (agentId : String) :
    SchedulerAgent :=
  let popped := { s with taskQueue := s.taskQueue.eraseIdx i }
  match updateTask s.taskStore task.id .scheduled none with
  | none => { popped with scheduling := false }
  | some store =>
    let counted := { popped with
      taskStore := store
      agents := s.agents.modify agentId fun agent =>
        { agent with currentTasks := agent.currentTasks + 1 } }
    match counted.send (.executeTask task) with
    | none => { counted with scheduling := false }
    | some sent =>
      match sent.send (.taskScheduled task.id agentId) with
      | none => { sent with scheduling := false }
      | some notified => notified

/-- `queued` is not less than any other task of the queue. -/
def IsTop (queue : List QueuedTask) (queued : QueuedTask) : Prop :=
  ∀ other ∈ queue, other.cmp queued ≠ .gt

instance (queue : List QueuedTask) (queued : QueuedTask) : Decidable (IsTop queue queued) :=
  inferInstanceAs (Decidable (∀ other ∈ queue, _))

/-- One of these. A message waits for the round that is running. -/
def act (s : SchedulerAgent) : Action → Option SchedulerAgent
  | .handle message =>
    if s.scheduling then none
    else some { s.handleMessage message with inbox := s.inbox ++ [message] }
  | .round i order =>
    if s.scheduling = true ∧ order.Perm s.agents.keys then
      match s.taskQueue[i]? with
      | some queued =>
        if IsTop s.taskQueue queued then
          match findBestAgent s.agents order queued.task with
          | some agentId => some (s.assign i queued.task agentId)
          | none => some { s with scheduling := false }
        else none
      | none => if s.taskQueue = [] then some { s with scheduling := false } else none
    else none
  | .stores tasks agents => some { s with taskStore := tasks, stateStore := agents }

/-- A scheduler that was just started. -/
def new (tasks : HashMap String TaskDefinition) (agents : HashMap String AgentDefinition)
    (hangsUp : Option ℕ) : SchedulerAgent :=
  { taskQueue := [], agents := ∅, taskStore := tasks, stateStore := agents, hangsUp := hangsUp,
    scheduling := false, inbox := [], outbox := [] }

/-! ## What is wanted

All of it is about the messages that were handled and sent, and the counts. -/

/-- The tasks that were submitted. -/
def submitted (s : SchedulerAgent) : List TaskDefinition :=
  s.inbox.filterMap AgentMessage.submitted?

/-- The tasks for which `ExecuteTask` was sent. -/
def executed (s : SchedulerAgent) : List TaskDefinition :=
  s.outbox.filterMap AgentMessage.executed?

/-- Which task was assigned to which agent. -/
def assigned (s : SchedulerAgent) : List (String × String) :=
  s.outbox.filterMap AgentMessage.assigned?

/-- The tasks whose result or failure was handled. -/
def results (s : SchedulerAgent) : List (String × TaskStatus) :=
  s.inbox.filterMap AgentMessage.result?

/-- The tasks that have a result. -/
def ended (s : SchedulerAgent) : List String := s.results.map Prod.fst

/-- The agents that have reported a count. -/
def reporters (s : SchedulerAgent) : List String := s.inbox.filterMap AgentMessage.reporter?

/-- How many tasks of an agent have no result. -/
def outstanding (s : SchedulerAgent) (agentId : String) : ℕ :=
  (s.assigned.filter fun x => x.2 = agentId ∧ x.1 ∉ s.ended).length

/-- What a task waits for. -/
def dependencies (task : TaskDefinition) : List String := task.dependsOn.getD []

/-- No task depends on itself, by whatever detour. -/
def AcyclicPlan (tasks : List TaskDefinition) : Prop :=
  Acyclic fun d id => ∃ task ∈ tasks, task.id = id ∧ d ∈ dependencies task

/-- **Dependencies and capacity are respected.** As a property of every state of a run `after` is
    about the moment of sending: no message that is a result makes the scheduler send. -/
structure Respects (s : SchedulerAgent) : Prop where
  once : (s.executed.map TaskDefinition.id).Nodup
  after : ∀ task ∈ s.executed, ∀ d ∈ dependencies task, (d, .succeeded) ∈ s.results
  counted : ∀ agentId agent, s.agents.lookup agentId = some agent → agentId ∉ s.reporters →
    agent.currentTasks = s.outstanding agentId ∧ agent.currentTasks ≤ agent.maxTasks

/-- Tasks are submitted once, and `ExecuteTask` is for the agents. -/
def Distinct (s : SchedulerAgent) : Action → Prop
  | .handle (.submitTask task) => task.id ∉ s.submitted.map TaskDefinition.id
  | .handle (.executeTask _) => False
  | _ => True

/-- A result comes for a task that has been sent, and to an agent that keeps its own count. -/
def Released (s : SchedulerAgent) (taskId : String) : Prop :=
  (∀ queued ∈ s.taskQueue, queued.task.id ≠ taskId) ∧
    ∀ x ∈ s.assigned, x.1 = taskId →
      x.1 ∈ s.ended ∨ s.agents.lookup x.2 = none ∨ x.2 ∈ s.reporters

/-- Where the round assigns a task the receiver takes both messages. -/
def Received (s : SchedulerAgent) (i : ℕ) (order : List String) : Prop :=
  ∀ queued ∈ s.taskQueue[i]?, ∀ _agentId ∈ findBestAgent s.agents order queued.task,
    ∀ n ∈ s.hangsUp, 2 ≤ n

/-- **The scheduler is not asked for what it does not do**: to wait for a dependency, to take a task
    from an agent, to remember what an agent had. -/
def Meets (s : SchedulerAgent) : Action → Prop
  | .handle (.submitTask task) => task.id ∉ s.submitted.map TaskDefinition.id ∧
      (∀ d ∈ dependencies task, (d, .succeeded) ∈ s.results) ∧ task.id ∉ s.ended
  | .handle (.executeTask _) => False
  | .handle (.taskResult taskId _ _) => s.Released taskId
  | .handle (.taskFailed taskId _) => s.Released taskId
  | .handle (.agentReady agentId) =>
      s.stateStore.lookup agentId = none ∨ agentId ∈ s.reporters ∨ s.outstanding agentId = 0
  | .round i order => s.Received i order
  | _ => True

/-! ## The books -/

/-- What is queued and what has been sent. -/
def taken (s : SchedulerAgent) : List TaskDefinition :=
  s.taskQueue.map QueuedTask.task ++ s.executed

/-- The scheduler's books. -/
structure Books (s : SchedulerAgent) : Prop where
  keyed : ∀ agentId agent, s.agents.lookup agentId = some agent → agent.id = agentId
  once : (s.taken.map TaskDefinition.id).Nodup
  known : ∀ task ∈ s.taken, task.id ∈ s.submitted.map TaskDefinition.id
  after : ∀ task ∈ s.taken, ∀ d ∈ dependencies task, (d, .succeeded) ∈ s.results
  /-- What is queued has no result. -/
  pending : ∀ queued ∈ s.taskQueue, queued.task.id ∉ s.ended
  counted : ∀ agentId agent, s.agents.lookup agentId = some agent → agentId ∉ s.reporters →
    agent.currentTasks = s.outstanding agentId ∧ agent.currentTasks ≤ agent.maxTasks

namespace Books

theorem respects (hb : Books s) : Respects s where
  once := by
    have h := hb.once
    rw [taken, List.map_append] at h
    exact h.of_append_right
  after task htask := hb.after task (List.mem_append_right _ htask)
  counted := hb.counted

theorem start {tasks : HashMap String TaskDefinition} {agents : HashMap String AgentDefinition}
    {hangsUp : Option ℕ} : Books (new tasks agents hangsUp) where
  keyed agentId agent h := by cases h
  once := List.nodup_nil
  known task h := by cases h
  after task h := by cases h
  pending queued h := by cases h
  counted agentId agent h := by cases h

/-- **A message is handled that brings no task.** The agents are left to show. -/
theorem handled (hb : Books s) {message : AgentMessage} (hqueue : s'.taskQueue = s.taskQueue)
    (hout : s'.outbox = s.outbox) (hin : s'.inbox = s.inbox ++ [message])
    (hpending : ∀ queued ∈ s.taskQueue, ∀ r ∈ message.result?, queued.task.id ≠ r.1)
    (hkeyed : ∀ agentId agent, s'.agents.lookup agentId = some agent → agent.id = agentId)
    (hcounted : ∀ agentId agent, s'.agents.lookup agentId = some agent →
      agentId ∉ s.reporters → agentId ∉ message.reporter? →
      agent.currentTasks = s'.outstanding agentId ∧ agent.currentTasks ≤ agent.maxTasks) :
    Books s' := by
  have htaken : s'.taken = s.taken := by rw [taken, taken, executed, executed, hqueue, hout]
  have hresults : s'.results = s.results ++ message.result?.toList := by
    rw [results, results, hin, List.filterMap_append]
    cases message <;> rfl
  have hreporters : s'.reporters = s.reporters ++ message.reporter?.toList := by
    rw [reporters, reporters, hin, List.filterMap_append]
    cases message <;> rfl
  have hsubmitted : ∀ task ∈ s.submitted, task ∈ s'.submitted := by
    intro task htask
    rw [submitted, hin, List.filterMap_append]
    exact List.mem_append_left _ htask
  refine ⟨hkeyed, ?_, fun task htask => ?_, fun task htask d hd => ?_, fun queued hq hended => ?_,
    fun agentId agent hl hr => ?_⟩
  · rw [htaken]
    exact hb.once
  · rw [htaken] at htask
    obtain ⟨task', hmem, hid⟩ := List.mem_map.mp (hb.known task htask)
    exact List.mem_map.mpr ⟨task', hsubmitted task' hmem, hid⟩
  · rw [htaken] at htask
    rw [hresults]
    exact List.mem_append_left _ (hb.after task htask d hd)
  · rw [hqueue] at hq
    rw [ended, hresults, List.map_append] at hended
    rcases List.mem_append.mp hended with hold | hnew
    · exact hb.pending queued hq hold
    · obtain ⟨r, hr, hid⟩ := List.mem_map.mp hnew
      exact hpending queued hq r (Option.mem_toList.mp hr) hid.symm
  · rw [hreporters, List.mem_append, not_or] at hr
    exact hcounted agentId agent hl hr.1 fun h => hr.2 (Option.mem_toList.mpr h)

theorem outstanding_eq {agentId : String} (hout : s'.outbox = s.outbox)
    (hended : ∀ x ∈ s.assigned, x.2 = agentId → (x.1 ∈ s'.ended ↔ x.1 ∈ s.ended)) :
    s'.outstanding agentId = s.outstanding agentId := by
  have hassigned : s'.assigned = s.assigned := by rw [assigned, assigned, hout]
  rw [outstanding, outstanding, hassigned]
  refine congrArg List.length (List.filter_congr fun x hx => ?_)
  by_cases hagent : x.2 = agentId
  · simp only [hagent, true_and, hended x hx hagent]
  · simp only [hagent, false_and]

/-- **A result changes no count.** -/
theorem result (hb : Books s) {message : AgentMessage} {taskId : String} {status : TaskStatus}
    (hqueue : s'.taskQueue = s.taskQueue) (hout : s'.outbox = s.outbox)
    (hagents : s'.agents = s.agents) (hin : s'.inbox = s.inbox ++ [message])
    (hmessage : message.result? = some (taskId, status)) (hok : s.Released taskId) : Books s' := by
  refine hb.handled hqueue hout hin (fun queued hq r hr => ?_) (hagents ▸ hb.keyed)
    (fun agentId agent hl hreporters _ => ?_)
  · obtain rfl := Option.some.inj (hmessage.symm.trans hr)
    exact hok.1 queued hq
  · rw [hagents] at hl
    have hended : s'.ended = s.ended ++ [taskId] := by
      rw [ended, ended, results, results, hin, List.filterMap_append, List.map_append,
        List.filterMap_cons_some hmessage]
      rfl
    rw [outstanding_eq hout fun x hx hagent => ?_]
    · exact hb.counted agentId agent hl hreporters
    · rw [hended, List.mem_append, List.mem_singleton, or_iff_left_of_imp]
      intro hid
      rcases hok.2 x hx hid with hended | hnone | hreported
      · exact hended
      · rw [hagent, hl] at hnone
        cases hnone
      · exact absurd (hagent ▸ hreported) hreporters

/-- An agent says how it is. -/
theorem lifecycle (hb : Books s) {message : AgentMessage} (hqueue : s'.taskQueue = s.taskQueue)
    (hout : s'.outbox = s.outbox) (hin : s'.inbox = s.inbox ++ [message])
    (hmessage : message.result? = none)
    (hagents : ∀ agentId agent, s'.agents.lookup agentId = some agent →
      s.agents.lookup agentId = some agent ∨ agent.id = agentId ∧
        (agentId ∈ s.reporters ∨ agentId ∈ message.reporter? ∨
          agent.currentTasks = 0 ∧ s.outstanding agentId = 0)) : Books s' := by
  have hended : s'.ended = s.ended := by
    rw [ended, ended, results, results, hin, List.filterMap_append,
      List.filterMap_cons_none hmessage, List.filterMap_nil, List.append_nil]
  refine hb.handled hqueue hout hin (fun queued _ r hr => ?_) (fun agentId agent hl => ?_)
    (fun agentId agent hl hreporters hreporter => ?_)
  · rw [hmessage] at hr
    cases hr
  · rcases hagents agentId agent hl with hold | ⟨hid, -⟩
    · exact hb.keyed agentId agent hold
    · exact hid
  · rw [outstanding_eq hout fun x _ _ => by rw [hended]]
    rcases hagents agentId agent hl with hold | ⟨-, hrep | hrep | ⟨hzero, hnone⟩⟩
    · exact hb.counted agentId agent hold hreporters
    · exact absurd hrep hreporters
    · exact absurd hrep hreporter
    · rw [hzero, hnone]
      exact ⟨rfl, Nat.zero_le _⟩

/-- A task comes that waits for nothing. -/
theorem submit (hb : Books s) {task : TaskDefinition} {priority : ℕ}
    (hqueue : s'.taskQueue = s.taskQueue ++ [⟨task, priority⟩]) (hout : s'.outbox = s.outbox)
    (hagents : s'.agents = s.agents) (hin : s'.inbox = s.inbox ++ [.submitTask task])
    (hnew : task.id ∉ s.submitted.map TaskDefinition.id)
    (hafter : ∀ d ∈ dependencies task, (d, .succeeded) ∈ s.results) (hended : task.id ∉ s.ended) :
    Books s' := by
  have htaken : s'.taken.Perm (task :: s.taken) := by
    rw [taken, taken, executed, executed, hqueue, hout, List.map_append, List.append_assoc]
    exact List.perm_middle
  have hmem : ∀ t ∈ s'.taken, t = task ∨ t ∈ s.taken := fun t ht =>
    List.mem_cons.mp (htaken.mem_iff.mp ht)
  have hsubmitted : s'.submitted = s.submitted ++ [task] := by
    rw [submitted, submitted, hin, List.filterMap_append]
    rfl
  have hresults : s'.results = s.results := by
    rw [results, results, hin, List.filterMap_append]
    exact List.append_nil _
  have hreporters : s'.reporters = s.reporters := by
    rw [reporters, reporters, hin, List.filterMap_append]
    exact List.append_nil _
  refine ⟨hagents ▸ hb.keyed, ?_, fun t ht => ?_, fun t ht d hd => ?_, fun queued hq => ?_,
    fun agentId agent hl hr => ?_⟩
  · rw [(htaken.map _).nodup_iff, List.map_cons, List.nodup_cons]
    refine ⟨fun h => ?_, hb.once⟩
    obtain ⟨t, ht, hid⟩ := List.mem_map.mp h
    exact hnew (hid ▸ hb.known t ht)
  · rw [hsubmitted, List.map_append]
    rcases hmem t ht with rfl | hold
    · exact List.mem_append_right _ (List.mem_singleton_self _)
    · exact List.mem_append_left _ (hb.known t hold)
  · rw [hresults]
    rcases hmem t ht with rfl | hold
    · exact hafter d hd
    · exact hb.after t hold d hd
  · rw [ended, hresults]
    rw [hqueue] at hq
    rcases List.mem_append.mp hq with hold | hnew
    · exact hb.pending queued hold
    · obtain rfl := List.mem_singleton.mp hnew
      exact hended
  · rw [hagents] at hl
    rw [hreporters] at hr
    rw [outstanding_eq hout fun x _ _ => by rw [ended, ended, hresults]]
    exact hb.counted agentId agent hl hr

theorem findBestAgent_spec (hb : Books s) {order : List String} {task : TaskDefinition}
    {agentId : String} (h : findBestAgent s.agents order task = some agentId) :
    ∃ agent, s.agents.lookup agentId = some agent ∧ agent.currentTasks < agent.maxTasks := by
  obtain ⟨agent, hmax, rfl⟩ := Option.map_eq_some_iff.mp h
  obtain ⟨hmem, hcan⟩ := List.mem_filter.mp (maxBy_mem hmax)
  obtain ⟨key, -, hl⟩ := List.mem_filterMap.mp hmem
  rw [hb.keyed key agent hl]
  exact ⟨agent, hl, AgentInfo.lt_of_canHandleTask hcan⟩

/-- The store does not know the task, and it is gone. -/
theorem lost (hb : Books s) (i : ℕ) :
    Books { s with taskQueue := s.taskQueue.eraseIdx i, scheduling := false } := by
  have hqueue : (s.taskQueue.eraseIdx i).Sublist s.taskQueue := List.eraseIdx_sublist s.taskQueue i
  have htaken : ((s.taskQueue.eraseIdx i).map QueuedTask.task ++ s.executed).Sublist s.taken :=
    (hqueue.map _).append (List.Sublist.refl _)
  exact ⟨hb.keyed, hb.once.sublist (htaken.map _),
    fun task htask => hb.known task (htaken.subset htask),
    fun task htask => hb.after task (htaken.subset htask),
    fun queued hq => hb.pending queued (hqueue.subset hq), hb.counted⟩

/-- **The task on top of the heap is sent, and counted.** -/
theorem sent (hb : Books s) {i : ℕ} {queued : QueuedTask} (hi : s.taskQueue[i]? = some queued)
    {agentId : String} {agent : AgentInfo} (hagent : s.agents.lookup agentId = some agent)
    (hroom : agent.currentTasks < agent.maxTasks) (hqueue : s'.taskQueue = s.taskQueue.eraseIdx i)
    (hin : s'.inbox = s.inbox)
    (hagents : s'.agents = s.agents.modify agentId fun agent =>
      { agent with currentTasks := agent.currentTasks + 1 })
    (hout : s'.outbox = s.outbox ++ [.executeTask queued.task, .taskScheduled queued.task.id
      agentId]) : Books s' := by
  obtain ⟨hlt, hget⟩ := List.getElem?_eq_some_iff.mp hi
  have hperm : (queued :: s.taskQueue.eraseIdx i).Perm s.taskQueue :=
    hget ▸ List.getElem_cons_eraseIdx_perm hlt
  have hexecuted : s'.executed = s.executed ++ [queued.task] := by
    rw [executed, executed, hout, List.filterMap_append]
    rfl
  have hassigned : s'.assigned = s.assigned ++ [(queued.task.id, agentId)] := by
    rw [assigned, assigned, hout, List.filterMap_append]
    rfl
  have htaken : s'.taken.Perm s.taken := by
    have hcons : (queued.task :: (s.taskQueue.eraseIdx i).map QueuedTask.task).Perm
        (s.taskQueue.map QueuedTask.task) := hperm.map QueuedTask.task
    rw [taken, taken, hqueue, hexecuted, ← List.append_assoc]
    exact (List.perm_append_singleton _ _).trans (hcons.append_right _)
  have hresults : s'.results = s.results := by rw [results, results, hin]
  have hended : s'.ended = s.ended := by rw [ended, ended, hresults]
  have hpending : queued.task.id ∉ s.ended :=
    hb.pending queued (List.mem_of_getElem? hi)
  have houtstanding : ∀ a, s'.outstanding a = s.outstanding a + if agentId = a then 1 else 0 := by
    intro a
    rw [outstanding, outstanding, hassigned, hended, List.filter_append, List.length_append]
    refine congrArg (_ + ·) ?_
    by_cases ha : agentId = a
    · rw [if_pos ha, List.filter_cons_of_pos (by simpa using ⟨ha, hpending⟩)]
      rfl
    · rw [if_neg ha, List.filter_cons_of_neg (by simp [ha])]
      rfl
  refine ⟨fun a info hl => ?_, ((htaken.map _).nodup_iff).mpr hb.once, fun task htask => ?_,
    fun task htask d hd => ?_, fun q hq => ?_, fun a info hl hr => ?_⟩
  · rw [hagents] at hl
    rcases HashMap.lookup_modify_cases hl with ⟨-, old, hold, rfl⟩ | ⟨-, hold⟩
    · exact hb.keyed a old hold
    · exact hb.keyed a info hold
  · rw [submitted, hin]
    exact hb.known task (htaken.mem_iff.mp htask)
  · rw [hresults]
    exact hb.after task (htaken.mem_iff.mp htask) d hd
  · rw [hqueue] at hq
    rw [hended]
    exact hb.pending q ((List.eraseIdx_sublist s.taskQueue i).subset hq)
  · rw [hagents] at hl
    rw [reporters, hin] at hr
    rw [houtstanding]
    rcases HashMap.lookup_modify_cases hl with ⟨rfl, old, hold, rfl⟩ | ⟨hne, hold⟩
    · obtain rfl := Option.some.inj (hagent.symm.trans hold)
      rw [if_pos rfl]
      exact ⟨congrArg (· + 1) (hb.counted a agent hold hr).1, hroom⟩
    · rw [if_neg (Ne.symm hne)]
      exact hb.counted a info hold hr

theorem assign (hb : Books s) {i : ℕ} {queued : QueuedTask} (hi : s.taskQueue[i]? = some queued)
    {agentId : String} {agent : AgentInfo} (hagent : s.agents.lookup agentId = some agent)
    (hroom : agent.currentTasks < agent.maxTasks)
    (hopen : ∀ n ∈ s.hangsUp, 2 ≤ n) : Books (s.assign i queued.task agentId) := by
  rw [SchedulerAgent.assign]
  cases hstore : updateTask s.taskStore queued.task.id .scheduled none with
  | none => exact hb.lost i
  | some store =>
    cases hup : s.hangsUp with
    | none =>
      simp only [send]
      exact hb.sent hi hagent hroom rfl rfl rfl (List.append_assoc _ _ _)
    | some n =>
      obtain ⟨m, rfl⟩ := Nat.exists_eq_add_of_le' (hopen n hup)
      simp only [send]
      exact hb.sent hi hagent hroom rfl rfl rfl (List.append_assoc _ _ _)

theorem handleMessage (hb : Books s) {message : AgentMessage} (hok : s.Meets (.handle message)) :
    Books { s.handleMessage message with inbox := s.inbox ++ [message] } := by
  cases message with
  | submitTask task =>
    obtain ⟨hnew, hafter, hended⟩ := hok
    exact hb.submit rfl rfl rfl rfl hnew hafter hended
  | executeTask task => exact absurd hok id
  | taskResult taskId status completedAt => exact hb.result rfl rfl rfl rfl rfl hok
  | taskFailed taskId error => exact hb.result rfl rfl rfl rfl rfl hok
  | agentReady agentId =>
    rw [SchedulerAgent.handleMessage]
    cases hstore : s.stateStore.lookup agentId with
    | none => exact hb.lifecycle rfl rfl rfl rfl fun a agent hl => .inl hl
    | some agentDef =>
      refine hb.lifecycle rfl rfl rfl rfl fun a agent hl => ?_
      have hl := (HashMap.lookup_insert_eq agentId a _ s.agents).symm.trans hl
      split at hl
      · rename_i ha
        obtain rfl := Option.some.inj hl
        refine .inr ⟨ha.symm, ?_⟩
        rcases hok with hnone | hreported | hzero
        · exact absurd (hstore.symm.trans hnone) (by simp)
        · exact .inl (ha ▸ hreported)
        · exact .inr (.inr ⟨rfl, ha ▸ hzero⟩)
      · exact .inl hl
  | agentBusy agentId taskCount =>
    refine hb.lifecycle rfl rfl rfl rfl fun a agent hl => ?_
    rcases HashMap.lookup_modify_cases hl with ⟨rfl, old, hold, rfl⟩ | ⟨-, hold⟩
    · exact .inr ⟨hb.keyed a old hold, .inr (.inl rfl)⟩
    · exact .inl hold
  | agentIdle agentId =>
    refine hb.lifecycle rfl rfl rfl rfl fun a agent hl => ?_
    rcases HashMap.lookup_modify_cases hl with ⟨rfl, old, hold, rfl⟩ | ⟨-, hold⟩
    · exact .inr ⟨hb.keyed a old hold, .inr (.inl rfl)⟩
    · exact .inl hold
  | deregisterAgent agentId reason =>
    refine hb.lifecycle rfl rfl rfl rfl fun a agent hl => ?_
    have hl := (HashMap.lookup_erase_eq agentId a s.agents).symm.trans hl
    split at hl
    · cases hl
    · exact .inl hl
  | taskScheduled taskId agentId => exact hb.lifecycle rfl rfl rfl rfl fun a agent hl => .inl hl
  | other => exact hb.lifecycle rfl rfl rfl rfl fun a agent hl => .inl hl

theorem step (hb : Books s) {a : Action} (hok : s.Meets a) (hact : s.act a = some s') :
    Books s' := by
  cases a with
  | handle message =>
    rw [act] at hact
    split at hact
    · cases hact
    · obtain rfl := Option.some.inj hact
      exact hb.handleMessage hok
  | round i order =>
    rw [act] at hact
    split at hact
    · split at hact
      · rename_i queued hi
        split at hact
        · split at hact
          · rename_i agentId hbest
            obtain rfl := Option.some.inj hact
            obtain ⟨agent, hagent, hroom⟩ := hb.findBestAgent_spec hbest
            exact hb.assign hi hagent hroom (hok queued hi agentId hbest)
          · obtain rfl := Option.some.inj hact
            exact ⟨hb.keyed, hb.once, hb.known, hb.after, hb.pending, hb.counted⟩
        · cases hact
      · split at hact
        · obtain rfl := Option.some.inj hact
          exact ⟨hb.keyed, hb.once, hb.known, hb.after, hb.pending, hb.counted⟩
        · cases hact
    · cases hact
  | stores tasks agents =>
    obtain rfl := Option.some.inj hact
    exact ⟨hb.keyed, hb.once, hb.known, hb.after, hb.pending, hb.counted⟩

end Books

/-- **In every run in which the scheduler is asked for no more than it does, each task is sent at
    most once, after its dependencies have succeeded, and every count is right.** -/
theorem respects_of_run {tasks : HashMap String TaskDefinition}
    {agents : HashMap String AgentDefinition} {hangsUp : Option ℕ}
    (h : Runs act Meets (new tasks agents hangsUp) s) : Respects s :=
  (h.invariant (I := Books) .start fun hb => hb.step).respects

instance : (s : SchedulerAgent) → (a : Action) → Decidable (s.Meets a)
  | s, .handle (.submitTask task) => inferInstanceAs (Decidable
      (task.id ∉ s.submitted.map TaskDefinition.id ∧
        (∀ d ∈ dependencies task, (d, .succeeded) ∈ s.results) ∧ task.id ∉ s.ended))
  | _, .handle (.executeTask _) => isFalse id
  | _, .handle (.taskResult _ _ _) => inferInstanceAs (Decidable (_ ∧ _))
  | _, .handle (.taskFailed _ _) => inferInstanceAs (Decidable (_ ∧ _))
  | _, .handle (.agentReady _) => inferInstanceAs (Decidable (_ ∨ _))
  | s, .round i order => inferInstanceAs (Decidable (∀ queued ∈ s.taskQueue[i]?,
      ∀ _agentId ∈ findBestAgent s.agents order queued.task, ∀ n ∈ s.hangsUp, 2 ≤ n))
  | _, .handle (.taskScheduled _ _) => isTrue trivial
  | _, .handle (.agentBusy _ _) => isTrue trivial
  | _, .handle (.agentIdle _) => isTrue trivial
  | _, .handle (.deregisterAgent _ _) => isTrue trivial
  | _, .handle .other => isTrue trivial
  | _, .stores _ _ => isTrue trivial

instance : (s : SchedulerAgent) → (a : Action) → Decidable (s.Distinct a)
  | _, .handle (.submitTask _) => inferInstanceAs (Decidable (_ ∉ _))
  | _, .handle (.executeTask _) => isFalse id
  | _, .handle (.taskResult _ _ _) => isTrue trivial
  | _, .handle (.taskFailed _ _) => isTrue trivial
  | _, .handle (.agentReady _) => isTrue trivial
  | _, .handle (.taskScheduled _ _) => isTrue trivial
  | _, .handle (.agentBusy _ _) => isTrue trivial
  | _, .handle (.agentIdle _) => isTrue trivial
  | _, .handle (.deregisterAgent _ _) => isTrue trivial
  | _, .handle .other => isTrue trivial
  | _, .round _ _ => isTrue trivial
  | _, .stores _ _ => isTrue trivial

/-! ## The planner's plan -/

theorem AcyclicPlan.subset {tasks tasks' : List TaskDefinition} (h : AcyclicPlan tasks')
    (hsub : tasks ⊆ tasks') : AcyclicPlan tasks :=
  Acyclic.mono h fun _ _ hd => by
    obtain ⟨task, htask, hid, hd⟩ := hd
    exact ⟨task, hsub htask, hid, hd⟩

/-- **What the planner makes is acyclic**: builds come after the evaluation, and nothing else. -/
theorem acyclic_analyzeAndPlan (flakeUrl : String) (flakeRef system : Option String)
    (now : ℕ → ℕ) : AcyclicPlan (analyzeAndPlan flakeUrl flakeRef system now) := by
  -- the names of evaluations and builds begin differently
  refine Acyclic.of_rank (fun id => if id.toList.head? = some 'e' then 0 else 1) ?_
  intro d id hd
  obtain ⟨task, htask, rfl, hd⟩ := hd
  rcases List.mem_cons.mp htask with rfl | htask
  · cases hd
  · obtain ⟨i, target, rfl⟩ := List.mem_mapIdx.mp htask
    obtain rfl := List.mem_singleton.mp hd
    simp

/-- The plan for one flake. -/
def plan : List TaskDefinition := analyzeAndPlan "github:o/r" none none id

/-- One builder is known. -/
def start (hangsUp : Option ℕ) : SchedulerAgent :=
  new ∅ (AList.singleton "builder-1" ⟨.builder, ["nix-build"], 10⟩) hangsUp

/-- The id of its evaluation. -/
def evalId : String := "eval-github:o/r-x86_64-linux"

/-- The evaluation is sent to the builder, which leaves before its result is handled. It comes back,
    and only then the first build is submitted. The receiver is gone after the four messages. -/
def patient : List Action :=
  [Action.handle (.agentReady "builder-1"), .round 0 ["builder-1"]] ++
    (plan.take 1).map (fun task => Action.handle (.submitTask task)) ++
    [Action.round 0 ["builder-1"], .round 0 ["builder-1"],
      .handle (.deregisterAgent "builder-1" ""),
      .handle (.taskResult evalId .succeeded (some 5)), .handle (.agentReady "builder-1"),
      .round 0 ["builder-1"]] ++
    ((plan.drop 1).take 1).map (fun task => Action.handle (.submitTask task)) ++
    [Action.round 0 ["builder-1"]]

theorem respects_of_run_patient :
    ∃ s, Runs act Meets (start (some 4)) s ∧ s.executed = plan.take 2 ∧
      (s.agents.lookup "builder-1").map AgentInfo.currentTasks = some 1 ∧ Respects s := by
  have hresult : (script act Meets (start (some 4)) patient).map (fun s =>
      (s.executed, (s.agents.lookup "builder-1").map AgentInfo.currentTasks)) =
        some (plan.take 2, some 1) := by decide
  obtain ⟨s, hs, hresult⟩ := Option.map_eq_some_iff.mp hresult
  obtain ⟨hexecuted, hcount⟩ := Prod.mk.inj hresult
  exact ⟨s, .of_script hs, hexecuted, hcount, respects_of_run (.of_script hs)⟩

/-- The whole plan is submitted at once. -/
def planned : List Action :=
  [Action.handle (.agentReady "builder-1"), .round 0 ["builder-1"]] ++
    plan.flatMap fun task =>
      [Action.handle (.submitTask task), .round 0 ["builder-1"], .round 0 ["builder-1"]]

/-- The builds are sent before the evaluation has a result. -/
theorem not_respects_planned :
    ¬ ∀ (tasks : HashMap String TaskDefinition) (agents : HashMap String AgentDefinition)
      (hangsUp : Option ℕ) (s : SchedulerAgent), Runs act Distinct (new tasks agents hangsUp) s →
        AcyclicPlan s.submitted → Respects s := by
  intro h
  have hlogs : (script act Distinct (start none) planned).map
      (fun s => (s.submitted, s.executed, s.results)) = some (plan, plan, []) := by decide
  obtain ⟨s, hs, hlogs⟩ := Option.map_eq_some_iff.mp hlogs
  obtain ⟨hsubmitted, hlogs⟩ := Prod.mk.inj hlogs
  obtain ⟨hexecuted, hresults⟩ := Prod.mk.inj hlogs
  have hrespects : Respects s := h _ _ _ s (.of_script hs)
    (hsubmitted ▸ acyclic_analyzeAndPlan "github:o/r" none none id)
  have hbuild : ∃ task ∈ s.executed, evalId ∈ dependencies task := by
    rw [hexecuted]
    decide
  obtain ⟨task, htask, hd⟩ := hbuild
  have hresult := hrespects.after task htask evalId hd
  rw [hresults] at hresult
  cases hresult

end SchedulerAgent

end Argunix.AgentFlow
