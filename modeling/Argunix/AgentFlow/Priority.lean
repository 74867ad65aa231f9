import Argunix.AgentFlow.Scheduler

/-!
# AgentFlow: priorities

`schedule_pending` looks at the top of a `BinaryHeap` until no agent can handle what is there. The
heap has the *greatest* task on top, and `QueuedTask::cmp` calls the one with the less priority the
greater ("higher priority first", its comment says, as if the heap gave out the least), and of two
with the same priority the newer. So the least urgent task goes first. **And a task on top that no
agent can handle holds up all others.**

`schedules_iff` says when neither shows: before each round of the loop, if there is a task that can
be handled at all, every task on top can be, and whatever else can be ties with it.
-/

set_option autoImplicit false

namespace Argunix.AgentFlow

open Argunix.Lib

/-- Some agent with free capacity can handle the task. -/
def Handled (agents : HashMap String AgentInfo) (task : TaskDefinition) : Prop :=
  ∃ agentId agent, agents.lookup agentId = some agent ∧ agent.canHandleTask task = true

/-! ## The order of the heap -/

/-- What it means that a task is not above another in the heap: its priority is no less, and if it
    is the same the task is no newer. -/
theorem QueuedTask.cmp_ne_gt {a b : QueuedTask} :
    a.cmp b ≠ .gt ↔ b.priority ≤ a.priority ∧
      (b.priority = a.priority → a.task.createdAt ≤ b.task.createdAt) := by
  rw [QueuedTask.cmp]
  rcases Nat.lt_trichotomy b.priority a.priority with hlt | heq | hgt
  · rw [Nat.compare_eq_lt.mpr hlt]
    exact iff_of_true (by simp [Ordering.then]) (by omega)
  · rw [Nat.compare_eq_eq.mpr heq]
    change compare a.task.createdAt b.task.createdAt ≠ .gt ↔ _
    rw [ne_eq, Nat.compare_eq_gt]
    omega
  · rw [Nat.compare_eq_gt.mpr hgt]
    exact iff_of_false (by simp [Ordering.then]) (by omega)

theorem QueuedTask.cmp_trans {a b c : QueuedTask} (hab : a.cmp b ≠ .gt) (hbc : b.cmp c ≠ .gt) :
    a.cmp c ≠ .gt := by
  rw [cmp_ne_gt] at hab hbc ⊢
  omega

/-- A task that is not below one on top is on top itself. -/
theorem SchedulerAgent.IsTop.of_cmp {queue : List QueuedTask} {top queued : QueuedTask}
    (htop : IsTop queue top) (h : top.cmp queued ≠ .gt) : IsTop queue queued :=
  fun other hother => QueuedTask.cmp_trans (htop other hother) h

namespace SchedulerAgent

variable {s s' : SchedulerAgent}

/-- Of the queued tasks that can be handled this has the highest priority, and of those with the
    same it was created first. -/
def Best (s : SchedulerAgent) (queued : QueuedTask) : Prop :=
  ∀ other ∈ s.taskQueue, Handled s.agents other.task →
    other.priority ≤ queued.priority ∧
      (other.priority = queued.priority → queued.task.createdAt ≤ other.task.createdAt)

/-- **By priority, and no agent wasted.** A round that leaves the queue as it is and ends the loop
    is the one that returns `Ok`: an error comes after the task was popped. -/
structure Scheduled (s : SchedulerAgent) (i : ℕ) (s' : SchedulerAgent) : Prop where
  best : s'.executed ≠ s.executed → ∀ queued ∈ s.taskQueue[i]?, s.Best queued
  busy : s'.scheduling = false → s'.taskQueue = s.taskQueue →
    ∀ queued ∈ s'.taskQueue, ¬ Handled s'.agents queued.task

/-- While `schedule_pending` runs others write to the stores. -/
def InCall (_ : SchedulerAgent) : Action → Prop
  | .handle _ => False
  | .round _ _ | .stores _ _ => True

/-- Every round of every call that begins here is right. -/
def Schedules (s : SchedulerAgent) : Prop :=
  ∀ t, Runs act InCall s t → ∀ i order t', t.act (.round i order) = some t' → Scheduled t i t'

/-- The store knows the task, and the receiver is there. -/
def Sends (s : SchedulerAgent) (queued : QueuedTask) : Prop :=
  (s.taskStore.lookup queued.task.id).isSome ∧ s.hangsUp ≠ some 0

/-- **What is on top can be handled if anything can**, and if it is sent then everything that can be
    handled is on top with it. -/
def Level (s : SchedulerAgent) : Prop :=
  ∀ top ∈ s.taskQueue, IsTop s.taskQueue top → ∀ queued ∈ s.taskQueue,
    Handled s.agents queued.task →
      Handled s.agents top.task ∧ (s.Sends top → IsTop s.taskQueue queued)

/-! ## One round -/

theorem maxBy_isSome {α : Type} {cmp : α → α → Ordering} {l : List α} :
    (maxBy cmp l).isSome ↔ l ≠ [] := by
  cases l <;> simp [maxBy]

/-- **An agent is found exactly if there is one.** -/
theorem isSome_findBestAgent {agents : HashMap String AgentInfo} {order : List String}
    (horder : order.Perm agents.keys) (task : TaskDefinition) :
    (findBestAgent agents order task).isSome ↔ Handled agents task := by
  rw [findBestAgent, Option.isSome_map, maxBy_isSome, List.ne_nil_iff_exists_cons]
  constructor
  · intro ⟨agent, rest, heq⟩
    obtain ⟨hmem, hcan⟩ := List.mem_filter.mp (heq ▸ List.mem_cons_self (l := rest))
    obtain ⟨agentId, -, hlook⟩ := List.mem_filterMap.mp hmem
    exact ⟨agentId, agent, hlook, hcan⟩
  · intro ⟨agentId, agent, hlook, hcan⟩
    have hkey : agentId ∈ order :=
      horder.mem_iff.mpr (AList.mem_keys.mpr (AList.lookup_isSome.mp (by rw [hlook]; rfl)))
    have hknown : agent ∈ order.filterMap agents.lookup :=
      List.mem_filterMap.mpr ⟨agentId, hkey, hlook⟩
    have hmem : agent ∈ (order.filterMap agents.lookup).filter fun a => a.canHandleTask task :=
      List.mem_filter.mpr ⟨hknown, hcan⟩
    exact List.ne_nil_iff_exists_cons.mp (List.ne_nil_of_mem hmem)

/-- What a round does. -/
theorem round_cases {i : ℕ} {order : List String} (h : s.act (.round i order) = some s') :
    s.scheduling = true ∧ order.Perm s.agents.keys ∧
      ((s.taskQueue = [] ∧ s' = { s with scheduling := false }) ∨
        ∃ queued, s.taskQueue[i]? = some queued ∧ IsTop s.taskQueue queued ∧
          ((findBestAgent s.agents order queued.task = none ∧
              s' = { s with scheduling := false }) ∨
            ∃ agentId, findBestAgent s.agents order queued.task = some agentId ∧
              s' = s.assign i queued.task agentId)) := by
  simp only [act] at h
  split at h
  · rename_i hrun
    refine ⟨hrun.1, hrun.2, ?_⟩
    split at h
    · rename_i queued hget
      split at h
      · rename_i htop
        split at h
        · rename_i agentId hfind
          exact .inr ⟨queued, hget, htop, .inr ⟨agentId, hfind, (Option.some.inj h).symm⟩⟩
        · rename_i hfind
          exact .inr ⟨queued, hget, htop, .inl ⟨hfind, (Option.some.inj h).symm⟩⟩
      · cases h
    · split at h
      · rename_i hnil
        exact .inl ⟨hnil, (Option.some.inj h).symm⟩
      · cases h
  · cases h

/-- **An assignment pops the task**, and sends it if it can. -/
theorem assign_spec (s : SchedulerAgent) (i : ℕ) (queued : QueuedTask) (agentId : String) :
    (s.assign i queued.task agentId).taskQueue = s.taskQueue.eraseIdx i ∧
      ((s.assign i queued.task agentId).executed ≠ s.executed ↔ s.Sends queued) := by
  rw [assign, updateTask, Sends]
  cases hknown : (s.taskStore.lookup queued.task.id).isSome with
  | false => exact ⟨rfl, iff_of_false (not_not.mpr rfl) (fun h => absurd h.1 (by simp))⟩
  | true =>
    have hmore : ∀ t : SchedulerAgent,
        t.outbox = s.outbox ++ [.executeTask queued.task] ∨
          (∃ id a, t.outbox = s.outbox ++ [.executeTask queued.task, .taskScheduled id a]) →
        t.executed ≠ s.executed := by
      intro t h heq
      have hlen := congrArg List.length heq
      rcases h with h | ⟨id, a, h⟩ <;>
        simp [executed, h, List.filterMap_append, AgentMessage.executed?] at hlen
    rw [if_pos rfl]
    cases s.hangsUp with
    | none =>
      simp only [send]
      refine ⟨trivial, iff_of_true (hmore _ (.inr ⟨queued.task.id, agentId, ?_⟩)) ?_⟩
      · exact List.append_assoc _ _ _
      · exact ⟨trivial, by simp⟩
    | some n =>
      cases n with
      | zero =>
        simp only [send]
        exact ⟨trivial, iff_of_false (not_not.mpr rfl) (fun h => h.2 rfl)⟩
      | succ n =>
        cases n with
        | zero =>
          simp only [send]
          exact ⟨trivial, iff_of_true (hmore _ (.inl rfl)) ⟨trivial, by simp⟩⟩
        | succ n =>
          simp only [send]
          refine ⟨trivial, iff_of_true (hmore _ (.inr ⟨queued.task.id, agentId, ?_⟩)) ?_⟩
          · exact List.append_assoc _ _ _
          · exact ⟨trivial, by simp⟩

/-- The best of those that can be handled are those that nothing handled is below. -/
theorem best_iff {queued : QueuedTask} :
    s.Best queued ↔ ∀ other ∈ s.taskQueue, Handled s.agents other.task →
      queued.cmp other ≠ .gt := by
  simp only [Best, QueuedTask.cmp_ne_gt]

theorem Level.scheduled (h : s.Level) {i : ℕ} {order : List String}
    (hact : s.act (.round i order) = some s') : Scheduled s i s' := by
  obtain ⟨hrun, horder, hround⟩ := round_cases hact
  rcases hround with ⟨hnil, rfl⟩ | ⟨queued, hget, htop, ⟨hfind, rfl⟩ | ⟨agentId, hfind, rfl⟩⟩
  · refine ⟨fun hne => absurd rfl hne, fun _ _ queued hq => ?_⟩
    change queued ∈ s.taskQueue at hq
    rw [hnil] at hq
    exact absurd hq List.not_mem_nil
  · refine ⟨fun hne => absurd rfl hne, fun _ _ other hother hcan => ?_⟩
    -- what is on top could be handled, and so an agent would have been found
    have hmem := List.mem_of_getElem? hget
    have hsome := (isSome_findBestAgent horder queued.task).mpr
      (h queued hmem htop other hother hcan).1
    rw [hfind] at hsome
    exact absurd hsome (by simp)
  · obtain ⟨hqueue, hsent⟩ := assign_spec s i queued agentId
    refine ⟨fun hne top htop' => ?_, fun _ hsame => ?_⟩
    · obtain rfl := Option.some.inj (hget.symm.trans htop')
      have hmem := List.mem_of_getElem? hget
      refine best_iff.mpr fun other hother hcan => ?_
      exact (h queued hmem htop other hother hcan).2 (hsent.mp hne) queued hmem
    · rw [hqueue] at hsame
      have hlen := congrArg List.length hsame
      obtain ⟨hlt, -⟩ := List.getElem?_eq_some_iff.mp hget
      rw [List.length_eraseIdx_of_lt hlt] at hlen
      omega

/-- **A round is right, whichever it is, exactly in a level state.** -/
theorem level_iff (hrun : s.scheduling = true) :
    (∀ i order s', s.act (.round i order) = some s' → Scheduled s i s') ↔ s.Level := by
  constructor
  · intro h top htop hmax queued hqueued hcan
    obtain ⟨i, hget⟩ := List.mem_iff_getElem?.mp htop
    -- the agents in the order of the table
    cases hfind : findBestAgent s.agents s.agents.keys top.task with
    | none =>
      have hround : s.act (.round i s.agents.keys) = some { s with scheduling := false } := by
        simp only [act, hget, hfind]
        exact (if_pos ⟨hrun, List.Perm.refl _⟩).trans (if_pos hmax)
      exact absurd hcan ((h i _ _ hround).busy rfl rfl queued hqueued)
    | some agentId =>
      have hround : s.act (.round i s.agents.keys) = some (s.assign i top.task agentId) := by
        simp only [act, hget, hfind]
        exact (if_pos ⟨hrun, List.Perm.refl _⟩).trans (if_pos hmax)
      refine ⟨(isSome_findBestAgent (List.Perm.refl _) top.task).mp (by rw [hfind]; rfl), ?_⟩
      intro hsends
      have hbest := (h i _ _ hround).best ((assign_spec s i top agentId).2.mpr hsends) top hget
      exact hmax.of_cmp (best_iff.mp hbest queued hqueued hcan)
  · intro h i order s' hact
    exact h.scheduled hact

/-- **Exactly when `schedule_pending` goes by priority and wastes no agent**, from any queue and any
    table of agents. -/
theorem schedules_iff (s : SchedulerAgent) :
    Schedules s ↔ ∀ t, Runs act InCall s t → t.scheduling = true → t.Level := by
  constructor
  · intro h t ht hrun
    exact (level_iff hrun).mp (h t ht)
  · intro h t ht i order t' hact
    exact (h t ht (round_cases hact).1).scheduled hact

/-! ## Tasks that are alike -/

/-- Of the same priority and age and of one kind. -/
def Alike (queue : List QueuedTask) : Prop :=
  ∀ a ∈ queue, ∀ b ∈ queue, a.priority = b.priority ∧ a.task.createdAt = b.task.createdAt ∧
    a.task.taskType = b.task.taskType

/-- The kind is all that the agents look at. -/
theorem handled_congr {agents : HashMap String AgentInfo} {a b : TaskDefinition}
    (h : a.taskType = b.taskType) : Handled agents a ↔ Handled agents b := by
  have hcan : ∀ agent : AgentInfo, agent.canHandleTask a = agent.canHandleTask b := by
    intro agent
    rw [AgentInfo.canHandleTask, AgentInfo.canHandleTask, h]
  simp only [Handled, hcan]

theorem Alike.level (h : Alike s.taskQueue) : s.Level := by
  intro top htop hmax queued hqueued hcan
  obtain ⟨hpriority, hcreated, htype⟩ := h top htop queued hqueued
  refine ⟨(handled_congr htype).mpr hcan, fun _ => hmax.of_cmp ?_⟩
  rw [QueuedTask.cmp_ne_gt]
  omega

/-- **Of a queue of like tasks every call is right**: it stays one. -/
theorem Alike.schedules (h : Alike s.taskQueue) : Schedules s := by
  refine (schedules_iff s).mpr fun t ht _ => Alike.level ?_
  refine ht.invariant (I := fun u => Alike u.taskQueue) h fun {u u' a} hu hok hact => ?_
  cases a with
  | handle message => exact absurd hok id
  | stores tasks agents =>
    obtain rfl := Option.some.inj hact
    exact hu
  | round i order =>
    obtain ⟨-, -, hround⟩ := round_cases hact
    rcases hround with ⟨-, rfl⟩ | ⟨queued, -, -, ⟨-, rfl⟩ | ⟨agentId, -, rfl⟩⟩
    · exact hu
    · exact hu
    · have hsub : (u.assign i queued.task agentId).taskQueue.Sublist u.taskQueue := by
        rw [(assign_spec u i queued agentId).1]
        exact List.eraseIdx_sublist u.taskQueue i
      exact fun a ha b hb => hu a (hsub.subset ha) b (hsub.subset hb)

/-- A build with this priority. -/
def buildWith (id : String) (priority : ℕ) : TaskDefinition :=
  ⟨id, .nixBuild, .pending, priority, 0, none, none, none, none, none, none⟩

/-- Two builds are queued, and a builder has room for one. -/
def twoBuilds : SchedulerAgent where
  taskQueue := [⟨buildWith "urgent" 90, 90⟩, ⟨buildWith "later" 10, 10⟩]
  agents := AList.singleton "builder-1" ⟨"builder-1", .builder, [], 1, 0⟩
  taskStore := (AList.singleton "urgent" (buildWith "urgent" 90)).insert "later"
    (buildWith "later" 10)
  stateStore := ∅
  hangsUp := none
  scheduling := true
  inbox := []
  outbox := []

/-- The less urgent build is sent. -/
theorem not_schedules_urgent : ¬ Schedules twoBuilds := by
  intro h
  have hround : ∃ t', twoBuilds.act (.round 1 ["builder-1"]) = some t' ∧
      t'.executed ≠ twoBuilds.executed := by
    refine ⟨_, rfl, ?_⟩
    decide
  obtain ⟨t', hact, hsent⟩ := hround
  have hbest := (h twoBuilds .refl 1 ["builder-1"] t' hact).best hsent
    ⟨buildWith "later" 10, 10⟩ rfl
  have hhandled : Handled twoBuilds.agents (buildWith "urgent" 90) :=
    ⟨"builder-1", ⟨"builder-1", .builder, [], 1, 0⟩, by decide, by decide⟩
  have hle := (hbest ⟨buildWith "urgent" 90, 90⟩ List.mem_cons_self hhandled).1
  exact absurd hle (by decide)

end SchedulerAgent

end Argunix.AgentFlow
