import Argunix.Daemon.Pool
import Argunix.Builders.Waiter

/-!
# One attempt per connection

The dispatch loop of `build_one` picks a builder, and if the attempt fails in transport it excludes
the **connection id of the snapshot it picked** and picks again. That the loop ends, and that no
agent gets the same build twice, rests on that id being the one of the connection the attempt ran
on. But the attempt does not hold the connection: every bridge of the push, the `Build` message
and every bridge of the pull look the session up again, by name.

If the builder reconnects in between, the attempt goes on on the new connection. A failure there
excludes the old one; the new one is picked again and gets its second `Build`.

Here the task of `Daemon.Pool` runs against the shared state of `Builders.Hub`, with everything
else free to interleave. `one_attempt_per_connection`: as long as each of these lookups finds the
connection that was picked, or none, the excluded ids are those of the connections that failed, and
no connection is sent two `Build` messages. That the loop makes at most one attempt for each
connection needs no condition (`attempts_le`).

`Abort` is looked up by name too; nothing here depends on where it goes.
-/

set_option autoImplicit false

namespace Argunix.Daemon

open Argunix.Lib Argunix.Eval Argunix.Builders

/-- `pick_builder_for_spec` -/
def pickBuilderForSpec (hub : Hub) (spec : JobSpec) (exclude : List ℕ) : Option BuilderSnapshot :=
  match spec.system with
  | some system =>
    (hub.reg.eligible hub.now system spec.requiredSystemFeatures exclude).head?
  | none => none

/-- What the verdict depends on. -/
def lifecycleOf : Builders.BuildLifecycle → BuildLifecycle
  | .started _ => .started
  | .logChunk _ => .logChunk
  | .finished status _ outputPaths _ => .finished status outputPaths

namespace TaskPc

/-- Where the task stands with its connection. -/
inductive Stage
  /-- Between attempts. -/
  | free
  /-- An attempt on this connection, `Build` not yet sent. -/
  | before (connection : ℕ)
  /-- `Build` has been sent, or never will be. -/
  | after (connection : ℕ)
  /-- The loop has been left. -/
  | left
deriving DecidableEq, Repr

/-- The stage of each place. -/
def stage : TaskPc → Stage
  | .entry | .acquiring _ | .picking _ | .atCapacity _ | .enrolling _ => .free
  | .reserving _ connection | .pushing connection | .sending connection => .before connection
  | .building connection _ | .grace connection | .acquiringForPull connection
  | .pulling connection | .writingLog connection _ => .after connection
  | .recording _ | .cancelling | .returned _ => .left

/-- The connection of a state in which sessions are looked up. -/
def looksUp : TaskPc → Option ℕ
  | .pushing connection | .sending connection | .pulling connection => some connection
  | _ => none

/-- The lifecycle is drained. -/
def drains : TaskPc → Bool
  | .building .. | .grace _ => true
  | _ => false

end TaskPc

/-- The acts of a task that neither read nor write the registry. -/
def TaskAct.isLocal : TaskAct → Bool
  | .pick _ | .dispatch | .copied _ | .sent _ | .event _ | .logWritten => false
  | _ => true

/-- **What one step of a task can do to its attempt**: nothing; leave the loop; send `Build` or fail
    before it; pick; or exclude the connection it picked. -/
inductive Moves (t t' : Task) (a : TaskAct) : Prop
  | stays (stage : t'.pc.stage = t.pc.stage) (excluded : t'.excluded = t.excluded)
  | leaves (stage : t'.pc.stage = .left) (excluded : t'.excluded = t.excluded)
  | passes (c : ℕ) (old : t.pc.stage = .before c) (new : t'.pc.stage = .after c)
    (excluded : t'.excluded = t.excluded)
  | picks (c : ℕ) (act : a = .pick c) (old : t.pc.stage = .free) (new : t'.pc.stage = .before c)
    (fresh : c ∉ t.excluded) (excluded : t'.excluded = t.excluded)
  | fails (c : ℕ) (act : a = .logWritten) (old : t.pc = .writingLog c .transportFailure)
    (new : t'.pc.stage = .free) (excluded : t'.excluded = c :: t.excluded)

/-- A local step neither picks a builder nor ends an attempt. -/
theorem TaskAct.of_isLocal {a : TaskAct} (h : a.isLocal = true) :
    (∀ c, a ≠ .pick c) ∧ a ≠ .logWritten := by
  refine ⟨fun c hc => ?_, fun hl => ?_⟩
  · rw [hc] at h
    exact absurd h (by simp [isLocal])
  · rw [hl] at h
    exact absurd h (by simp [isLocal])

namespace Task

variable {builderWait cancel : Bool} {spec : JobSpec} {t t' : Task} {a : TaskAct}
  {write : Option RowWrite}

theorem stage_afterDrain (c : ℕ) (status : BuildOutcomeStatus) (outputPaths : List String)
    (aborted timedOut closed : Bool) :
    (afterDrain c status outputPaths aborted timedOut closed).stage = .after c := by
  unfold afterDrain
  repeat' split
  all_goals rfl

theorem moves_of_pc {pc pc' : TaskPc} (hpc : t.pc = pc) (ht : t'.pc = pc')
    (hex : t'.excluded = t.excluded) (hstage : pc'.stage = pc.stage) : Moves t t' a :=
  .stays (by rw [ht, hpc, hstage]) hex

theorem step_moves (h : t.step builderWait cancel spec a = some (t', write)) : Moves t t' a := by
  cases step_steps h with
  | evalError | cached | preflight | interrupted | verdict | killed | cancelled | fail =>
    exact .leaves rfl rfl
  | arm hpc | slot hpc | slotForPull hpc | busy hpc | enrol hpc | dispatch hpc | pushed hpc
  | pulled hpc | deadline hpc | abort hpc | pullCancelled hpc => exact moves_of_pc hpc rfl rfl rfl
  | goOn hpc => exact hpc.elim (moves_of_pc · rfl rfl rfl) (moves_of_pc · rfl rfl rfl)
  | waited => exact .stays rfl rfl
  | drained status outputPaths aborted timedOut closed hpc =>
    rcases hpc with ⟨_, hpc⟩ | hpc <;> exact moves_of_pc hpc rfl rfl (stage_afterDrain ..)
  | @pick _ c hpc hfresh => exact .picks c rfl (by rw [hpc]; rfl) rfl hfresh rfl
  -- a push that fails sends no `Build`; a pull that fails comes after it
  | @broke c _ _ hpc =>
    rcases hpc with hpc | hpc
    · exact .passes c (by rw [hpc]; rfl) rfl rfl
    · exact moves_of_pc hpc rfl rfl rfl
  | @sent c ok hpc => exact .passes c (by rw [hpc]; rfl) (by cases ok <;> rfl) rfl
  | @logWritten c result hpc =>
    cases result with
    | outcome | cancelled => exact .leaves rfl rfl
    | transportFailure => exact .fails c rfl hpc rfl rfl

end Task

/-- One `build_one` beside everything else. `used` are the connections the current step of the
    attempt has worked on; the last three fields only record what has happened. -/
structure BuildOne where
  disp : Dispatching
  task : Task
  cancelled : Bool
  name : BuilderName
  used : List ℕ
  picked : List ℕ
  /-- The connections a `Build` was written to. -/
  sent : List ℕ
  /-- The id each failed attempt put into `excluded`, with the connections its last step used. -/
  failures : List (ℕ × List ℕ)

/-- What the attempt does, and what everything else does in between. -/
inductive AttemptAct
  | hub (a : HubAct)
  | cancel
  | task (a : TaskAct)
  | pick
  /-- `BuilderSlot::reserve` and `JobStore::dispatch` -/
  | reserve
  /-- a bridge of the push or the pull opens its channel -/
  | openChannel
  | copied (outcome : CopyPhaseOutcome)
  | look
  | register
  | send (ok : Bool)
  | recv
  | logWritten

namespace BuildOne

variable (builderWait : Bool) (spec : JobSpec) (buildId : ℤ)

/-- The task was just spawned, and nobody is connected. -/
def start (grace : ℕ) : BuildOne :=
  { disp := .start grace, task := .start, cancelled := false, name := ⟨""⟩, used := []
    picked := [], sent := [], failures := [] }

/-- What becomes of the registry. -/
def setHub (s : BuildOne) (hub : Hub) : BuildOne := { s with disp := { s.disp with hub := hub } }

/-- One step of the task. The sender is unregistered when the drain ends, and the pull starts
    with no channel open. -/
def stepTask (s : BuildOne) (a : TaskAct) : BuildOne :=
  match s.task.step builderWait s.cancelled spec a with
  | none => s
  | some (t, _) =>
    let s := if s.task.pc.drains = true ∧ t.pc.drains = false then
        s.setHub (s.disp.hub.unregisterInFlightBuild s.name buildId) else s
    { s with task := t, used := if t.pc.looksUp.isSome then [] else s.used }

/-- One of these. -/
def act (s : BuildOne) : AttemptAct → BuildOne
  | .hub a => s.setHub (s.disp.hub.act a)
  | .cancel => { s with cancelled := true }
  | .task a => if a.isLocal then s.stepTask builderWait spec buildId a else s
  | .pick =>
    match s.task.pc, pickBuilderForSpec s.disp.hub spec s.task.excluded with
    | .picking _, some b =>
      let s := s.stepTask builderWait spec buildId (.pick b.connectionId)
      { s with
        disp := s.disp.setCall 0 .idle
        name := b.name
        used := []
        picked := s.picked ++ [b.connectionId] }
    | _, _ => s
  | .reserve =>
    match s.task.pc with
    | .reserving .. =>
      (s.setHub (s.disp.hub.act (.incInFlight s.name))).stepTask builderWait spec buildId .dispatch
    | _ => s
  | .openChannel =>
    match s.task.pc with
    | .pushing _ | .pulling _ =>
      { s with used := s.used ++ (s.disp.hub.current s.name).toList }
    | _ => s
  | .copied outcome =>
    match outcome with
    | .builderGone =>
      if s.disp.hub.current s.name = none then
        s.stepTask builderWait spec buildId (.copied .builderGone)
      else s
    | outcome => s.stepTask builderWait spec buildId (.copied outcome)
  | .look =>
    match s.task.pc, s.disp.calls 0 with
    | .sending _, .idle =>
      let s := { s with
        disp := s.disp.act (.look 0 s.name buildId)
        used := (s.disp.hub.current s.name).toList }
      match s.disp.calls 0 with
      | .failed => s.stepTask builderWait spec buildId (.sent false)
      | _ => s
    | _, _ => s
  | .register => { s with disp := s.disp.act (.register 0) }
  | .send ok =>
    match s.task.pc, s.disp.calls 0 with
    | .sending _, .opened _ _ conn _ =>
      let s := { s with
        disp := s.disp.act (.send 0 ok)
        sent := if ok then s.sent ++ [conn] else s.sent }
      s.stepTask builderWait spec buildId (.sent ok)
    | _, _ => s
  | .recv =>
    match s.task.pc.drains, s.disp.calls 0 with
    | true, .returned _ _ _ chan =>
      match s.disp.hub.poll chan with
      | .item event =>
        (s.setHub (s.disp.hub.act (.recv chan))).stepTask builderWait spec buildId
          (.event (some (lifecycleOf event)))
      | .closed => s.stepTask builderWait spec buildId (.event none)
      | .pending => s
    | _, _ => s
  | .logWritten =>
    match s.task.pc with
    | .writingLog connection result =>
      -- `_slot` is dropped at the end of the iteration
      let s := { s with
        failures :=
          if result = PoolDispatchResult.transportFailure then s.failures ++ [(connection, s.used)] else s.failures }
      (s.setHub (s.disp.hub.act (.decInFlight s.name))).stepTask builderWait spec buildId
        .logWritten
    | _ => s

/-- One after the other. -/
def run (s : BuildOne) (as : List AttemptAct) : BuildOne :=
  as.foldl (act builderWait spec buildId) s

/-- Where the attempt looks a session up, it finds the connection that was picked, or none. -/
def Steadfast (s : BuildOne) : AttemptAct → Prop
  | .openChannel | .look =>
    ∀ c ∈ s.task.pc.looksUp, ∀ conn ∈ s.disp.hub.current s.name, conn = c
  | _ => True

instance (s : BuildOne) (a : AttemptAct) : Decidable (s.Steadfast a) := by
  unfold Steadfast
  split <;> infer_instance

/-! ## What the steps of the task come to -/

section Steps

variable {builderWait : Bool} {spec : JobSpec} {buildId : ℤ} {s : BuildOne}

variable (builderWait spec buildId s) in
/-- A step of the task changes the task, and the registry only in the sender of the build. -/
theorem stepTask_cases (a : TaskAct) :
    s.stepTask builderWait spec buildId a = s ∨
      ∃ t' hub' used', Moves s.task t' a ∧ (used' = [] ∨ used' = s.used) ∧
        hub'.reg = s.disp.hub.reg ∧ s.stepTask builderWait spec buildId a =
          { s with disp := { s.disp with hub := hub' }, task := t', used := used' } := by
  unfold stepTask
  split
  · exact Or.inl rfl
  · rename_i t' write hstep
    refine Or.inr ⟨t', if s.task.pc.drains = true ∧ t'.pc.drains = false then
        s.disp.hub.unregisterInFlightBuild s.name buildId else s.disp.hub,
      if t'.pc.looksUp.isSome then [] else s.used, Task.step_moves hstep, ?_, ?_, ?_⟩
    · split
      · exact Or.inl rfl
      · exact Or.inr rfl
    · split <;> rfl
    · split <;> rfl

theorem stepTask_pick {again : Bool} {c : ℕ} (hpc : s.task.pc = .picking again)
    (hsys : spec.system.isSome = true) (hfresh : c ∉ s.task.excluded) :
    s.stepTask builderWait spec buildId (.pick c) =
      { s with task := { s.task with pc := .reserving again c } } := by
  simp [stepTask, Task.step, Task.goto, hpc, hsys, hfresh, TaskPc.drains, TaskPc.looksUp]

theorem stepTask_sent {c : ℕ} (hpc : s.task.pc = .sending c) (ok : Bool) :
    s.stepTask builderWait spec buildId (.sent ok) =
      { s with task := { s.task with
        pc := if ok then .building c false else .writingLog c .transportFailure } } := by
  cases ok <;> simp [stepTask, Task.step, Task.goto, hpc, TaskPc.drains, TaskPc.looksUp]

theorem stepTask_logWritten (c : ℕ) (result : PoolDispatchResult)
    (hpc : s.task.pc = .writingLog c result) :
    s.stepTask builderWait spec buildId .logWritten =
      { s with task := s.task.afterLog c result } := by
  cases result <;>
    simp [stepTask, Task.step, Task.afterLog, hpc, TaskPc.drains, TaskPc.looksUp]

/-- The builder that is picked is registered, and its connection has not failed yet. -/
theorem pick_spec {hub : Hub} {exclude : List ℕ} {b : BuilderSnapshot}
    (h : pickBuilderForSpec hub spec exclude = some b) :
    spec.system.isSome = true ∧ b.connectionId ∉ exclude ∧
      hub.current b.name = some b.connectionId := by
  unfold pickBuilderForSpec at h
  split at h
  · rename_i system hsys
    have hmem := List.mem_of_mem_head? h
    unfold BuilderRegistry.eligible at hmem
    rw [List.mem_mergeSort] at hmem
    have hcand := List.mem_of_mem_filter (List.mem_of_mem_filter hmem)
    obtain ⟨hlist, -, hfresh, -⟩ := BuilderRegistry.mem_supporting.mp
      (BuilderRegistry.mem_supporting_of_candidate hcand)
    obtain ⟨name, c, hl, rfl⟩ := BuilderRegistry.mem_list.mp hlist
    exact ⟨by rw [hsys]; rfl, hfresh, congrArg (Option.map _) hl⟩
  · exact absurd h (by simp)

end Steps

/-! ## Each connection is picked once -/

/-- Every pick was another connection, and each is excluded by now, or being tried, or the last. -/
structure Attempts (conns : Finset ℕ) (s : BuildOne) : Prop where
  nodup : s.picked.Nodup
  tried : ∀ x ∈ s.picked, x ∈ s.task.excluded ∨ s.task.pc.stage = .before x ∨
    s.task.pc.stage = .after x ∨ s.task.pc.stage = .left
  current : ∀ c, s.task.pc.stage = .before c → c ∈ s.picked
  known : ∀ x ∈ s.picked, x ∈ conns
  entries : ∀ name conn, s.disp.hub.current name = some conn → conn ∈ conns
  excluded : s.task.excluded = (s.failures.map Prod.fst).reverse

/-- Every `hello` of the schedule is one of these connections. -/
def Known (conns : Finset ℕ) : AttemptAct → Prop
  | .hub (.hello conn _ _) => conn ∈ conns
  | _ => True

namespace Attempts

variable {builderWait : Bool} {spec : JobSpec} {buildId : ℤ} {s s' : BuildOne} {conns : Finset ℕ}

theorem start (grace : ℕ) : Attempts conns (start grace) :=
  ⟨List.nodup_nil, fun _ hx => absurd hx (by simp [BuildOne.start]),
    fun _ hc => absurd hc (by simp [BuildOne.start, Task.start, TaskPc.stage]),
    fun _ hx => absurd hx (by simp [BuildOne.start]),
    fun _ _ hc => absurd hc (by
      simp [BuildOne.start, Dispatching.start, Hub.new, Hub.current, BuilderRegistry.new,
        BuilderRegistry.setSpillGrace]),
    rfl⟩

/-- At the head of the loop every connection that was picked is excluded. -/
theorem excluded_of_picking (h : Attempts conns s) {again : Bool}
    (hpc : s.task.pc = .picking again) : ∀ x ∈ s.picked, x ∈ s.task.excluded := by
  intro x hx
  rcases h.tried x hx with hin | hbefore | hafter | hleft
  · exact hin
  · exact absurd hbefore (by simp [hpc, TaskPc.stage])
  · exact absurd hafter (by simp [hpc, TaskPc.stage])
  · exact absurd hleft (by simp [hpc, TaskPc.stage])

/-- A step outside the loop, of the registry or of the call. -/
theorem of_task (h : Attempts conns s) (htask : s'.task = s.task) (hpicked : s'.picked = s.picked)
    (hfailures : s'.failures = s.failures)
    (hentries : ∀ name conn, s'.disp.hub.current name = some conn → conn ∈ conns) :
    Attempts conns s' :=
  ⟨hpicked ▸ h.nodup, fun x hx => htask ▸ h.tried x (hpicked ▸ hx),
    fun c hc => hpicked ▸ h.current c (htask ▸ hc), fun x hx => h.known x (hpicked ▸ hx), hentries,
    by rw [htask, hfailures]; exact h.excluded⟩

theorem stepTask (h : Attempts conns s) {a : TaskAct} (hpick : ∀ c, a ≠ .pick c)
    (hlog : a ≠ .logWritten) : Attempts conns (s.stepTask builderWait spec buildId a) := by
  rcases stepTask_cases builderWait spec buildId s a
    with heq | ⟨t', hub', used', hmoves, -, hreg, heq⟩
  · rw [heq]
    exact h
  · have hentries : ∀ name conn, hub'.current name = some conn → conn ∈ conns := by
      intro name conn hcur
      refine h.entries name conn ?_
      unfold Hub.current at hcur ⊢
      rwa [hreg] at hcur
    rw [heq]
    cases hmoves with
    | stays stage excluded =>
      refine ⟨h.nodup, fun x hx => ?_, fun c hc => h.current c (stage ▸ hc), h.known, hentries,
        excluded.trans h.excluded⟩
      rw [stage, excluded]
      exact h.tried x hx
    | leaves stage excluded =>
      refine ⟨h.nodup, fun x hx => Or.inr (Or.inr (Or.inr stage)), fun c hc => ?_, h.known,
        hentries, excluded.trans h.excluded⟩
      exact absurd (stage.symm.trans hc) (by simp)
    | passes c old new excluded =>
      refine ⟨h.nodup, fun x hx => ?_, fun c' hc => absurd (new.symm.trans hc) (by simp), h.known,
        hentries, excluded.trans h.excluded⟩
      rw [excluded]
      rcases h.tried x hx with hin | hbefore | hafter | hleft
      · exact Or.inl hin
      · obtain rfl : c = x := by simpa [old] using hbefore
        exact Or.inr (Or.inr (Or.inl new))
      · exact absurd (old.symm.trans hafter) (by simp)
      · exact absurd (old.symm.trans hleft) (by simp)
    | picks c act => exact absurd act (hpick c)
    | fails c act => exact absurd act hlog

theorem current_dispatch (buildId : ℤ) (d : Dispatching) (t : ℕ) (ok : Bool)
    (name n : BuilderName) :
    (d.act (.look t name buildId)).hub.current n = d.hub.current n ∧
      (d.act (.register t)).hub.current n = d.hub.current n ∧
      (d.act (.send t ok)).hub.current n = d.hub.current n := by
  refine ⟨?_, ?_, ?_⟩
  · simp only [Dispatching.act]
    split
    · split <;> rfl
    · rfl
  · simp only [Dispatching.act]
    split <;> rfl
  · simp only [Dispatching.act]
    split
    · split <;> rfl
    · rfl

theorem act (h : Attempts conns s) (a : AttemptAct) (ha : Known conns a) :
    Attempts conns (s.act builderWait spec buildId a) := by
  cases a with
  | hub a =>
    refine h.of_task rfl rfl rfl fun name conn hcur => ?_
    rcases s.disp.hub.current_act a name with hsame | ⟨c, caps, rfl, hnew, -⟩ | ⟨hnone, -⟩
    · exact h.entries name conn (hsame.symm.trans hcur)
    · obtain rfl : c = conn := Option.some.inj (hnew.symm.trans hcur)
      exact ha
    · exact absurd (hnone.symm.trans hcur) (by simp)
  | cancel => exact h.of_task rfl rfl rfl h.entries
  | task a =>
    simp only [BuildOne.act]
    split
    · rename_i hlocal
      exact h.stepTask (TaskAct.of_isLocal hlocal).1 (TaskAct.of_isLocal hlocal).2
    · exact h
  | pick =>
    simp only [BuildOne.act]
    split
    · rename_i again b hpc hpick
      obtain ⟨hsys, hfresh, hcur⟩ := pick_spec hpick
      have hnew : b.connectionId ∉ s.picked := fun hx => hfresh (h.excluded_of_picking hpc _ hx)
      rw [stepTask_pick hpc hsys hfresh]
      refine ⟨?_, fun x hx => ?_, fun c hc => ?_, fun x hx => ?_, h.entries, h.excluded⟩
      · exact List.nodup_append.mpr ⟨h.nodup, List.nodup_singleton _, by
          rintro x hx y hy rfl
          exact hnew (by simpa using List.mem_singleton.mp hy ▸ hx)⟩
      · rcases List.mem_append.mp hx with hx | hx
        · exact Or.inl (h.excluded_of_picking hpc x hx)
        · obtain rfl := List.mem_singleton.mp hx
          exact Or.inr (Or.inl rfl)
      · obtain rfl : b.connectionId = c := by simpa [TaskPc.stage] using hc
        exact List.mem_append_right _ (List.mem_singleton_self _)
      · rcases List.mem_append.mp hx with hx | hx
        · exact h.known x hx
        · obtain rfl := List.mem_singleton.mp hx
          exact h.entries _ _ hcur
    · exact h
  | reserve =>
    simp only [BuildOne.act]
    split
    · have hhub : Attempts conns (s.setHub (s.disp.hub.act (.incInFlight s.name))) :=
        h.of_task rfl rfl rfl h.entries
      exact hhub.stepTask (by simp) (by simp)
    · exact h
  | openChannel =>
    simp only [BuildOne.act]
    split
    · exact h.of_task rfl rfl rfl h.entries
    · exact h.of_task rfl rfl rfl h.entries
    · exact h
  | copied outcome =>
    simp only [BuildOne.act]
    split
    · split
      · exact h.stepTask (by simp) (by simp)
      · exact h
    · exact h.stepTask (by simp) (by simp)
  | look =>
    simp only [BuildOne.act]
    split
    · have hlooked : Attempts conns { s with
          disp := s.disp.act (.look 0 s.name buildId)
          used := (s.disp.hub.current s.name).toList } := by
        refine h.of_task rfl rfl rfl fun name conn hcur => h.entries name conn ?_
        rwa [← (current_dispatch buildId s.disp 0 true s.name name).1]
      split
      · exact hlooked.stepTask (by simp) (by simp)
      · exact hlooked
    · exact h
  | register =>
    refine h.of_task rfl rfl rfl fun name conn hcur => h.entries name conn ?_
    rwa [← (current_dispatch buildId s.disp 0 true s.name name).2.1]
  | send ok =>
    simp only [BuildOne.act]
    split
    · rename_i conn _ _ _
      have hsent : Attempts conns { s with
          disp := s.disp.act (.send 0 ok)
          sent := if ok then s.sent ++ [conn] else s.sent } := by
        refine h.of_task rfl rfl rfl fun name conn hcur => h.entries name conn ?_
        rwa [← (current_dispatch buildId s.disp 0 ok s.name name).2.2]
      exact hsent.stepTask (by simp) (by simp)
    · exact h
  | recv =>
    simp only [BuildOne.act]
    split
    · split
      · rename_i chan _ _ _ event _
        have hhub : Attempts conns (s.setHub (s.disp.hub.act (.recv chan))) :=
          h.of_task rfl rfl rfl h.entries
        exact hhub.stepTask (by simp) (by simp)
      · exact h.stepTask (by simp) (by simp)
      · exact h
    · exact h
  | logWritten =>
    simp only [BuildOne.act]
    split
    · rename_i c result hpc
      rw [stepTask_logWritten c result]
      swap
      · exact hpc
      have hover : ∀ x ∈ s.picked, x ∈ s.task.excluded ∨ c = x := by
        intro x hx
        rcases h.tried x hx with hin | hbefore | hafter | hleft
        · exact Or.inl hin
        · exact absurd hbefore (by simp [hpc, TaskPc.stage])
        · exact Or.inr (by simpa [hpc, TaskPc.stage] using hafter)
        · exact absurd hleft (by simp [hpc, TaskPc.stage])
      cases result with
      | outcome success =>
        exact ⟨h.nodup, fun x _ => Or.inr (Or.inr (Or.inr rfl)), fun _ hc => absurd hc (by
          simp [BuildOne.setHub, Task.afterLog, TaskPc.stage]), h.known, h.entries, h.excluded⟩
      | cancelled =>
        exact ⟨h.nodup, fun x _ => Or.inr (Or.inr (Or.inr rfl)), fun _ hc => absurd hc (by
          simp [BuildOne.setHub, Task.afterLog, TaskPc.stage]), h.known, h.entries, h.excluded⟩
      | transportFailure =>
        refine ⟨h.nodup, fun x hx => Or.inl ?_, fun _ hc => absurd hc (by
          simp [BuildOne.setHub, Task.afterLog, TaskPc.stage]), h.known, h.entries, ?_⟩
        · rcases hover x hx with hin | rfl
          · exact List.mem_cons_of_mem c hin
          · exact List.mem_cons_self
        · simp [BuildOne.setHub, Task.afterLog, h.excluded]
    · exact h

theorem run {as : List AttemptAct} : ∀ {s : BuildOne}, Attempts conns s →
    (∀ a ∈ as, Known conns a) → Attempts conns (s.run builderWait spec buildId as) := by
  induction as with
  | nil => exact fun h _ => h
  | cons a as ih =>
    intro s h hknown
    exact ih (h.act a (hknown a List.mem_cons_self))
      fun b hb => hknown b (List.mem_cons_of_mem a hb)

/-- **At most one attempt for each connection.** -/
theorem attempts_le (h : Attempts conns s) : s.picked.length ≤ conns.card := by
  rw [← List.toFinset_card_of_nodup h.nodup]
  exact Finset.card_le_card fun x hx => h.known x (List.mem_toFinset.mp hx)

end Attempts

/-! ## The attempt runs on the connection that was picked -/

/-- The session a call of `dispatch_build` has looked up and not yet written to. -/
def callConn : Call → Option ℕ
  | .looked _ _ conn | .opened _ _ conn _ => some conn
  | _ => none

/-- What the attempt keeps to. -/
structure Faithful (s : BuildOne) : Prop where
  sentPicked : ∀ x ∈ s.sent, x ∈ s.picked
  sentNodup : s.sent.Nodup
  unsent : ∀ c, s.task.pc.stage = .before c → c ∉ s.sent
  used : ∀ c, s.task.pc.stage = .before c ∨ s.task.pc.stage = .after c → ∀ x ∈ s.used, x = c
  call : ∀ c, s.task.pc.stage = .before c → ∀ conn ∈ callConn (s.disp.calls 0), conn = c
  failures : ∀ f ∈ s.failures, ∀ x ∈ f.2, x = f.1

namespace Faithful

variable {builderWait : Bool} {spec : JobSpec} {buildId : ℤ} {s : BuildOne} {conns : Finset ℕ}

theorem start (grace : ℕ) : Faithful (start grace) :=
  ⟨fun _ hx => absurd hx (by simp [BuildOne.start]), List.nodup_nil,
    fun _ _ => by simp [BuildOne.start], fun _ _ _ hx => absurd hx (by simp [BuildOne.start]),
    fun _ hc => absurd hc (by simp [BuildOne.start, Task.start, TaskPc.stage]),
    fun _ hf => absurd hf (by simp [BuildOne.start])⟩

theorem setHub (h : Faithful s) (hub : Hub) : Faithful (s.setHub hub) :=
  ⟨h.sentPicked, h.sentNodup, h.unsent, h.used, h.call, h.failures⟩

theorem stepTask (h : Faithful s) {a : TaskAct} (hpick : ∀ c, a ≠ .pick c)
    (hlog : a ≠ .logWritten) : Faithful (s.stepTask builderWait spec buildId a) := by
  rcases stepTask_cases builderWait spec buildId s a
    with heq | ⟨t', hub', used', hmoves, hused, -, heq⟩
  · rw [heq]
    exact h
  · have hsub : ∀ x ∈ used', x ∈ s.used := by
      rcases hused with rfl | rfl
      · exact fun _ hx => absurd hx (by simp)
      · exact fun _ hx => hx
    rw [heq]
    cases hmoves with
    | stays stage excluded =>
      exact ⟨h.sentPicked, h.sentNodup, fun c hc => h.unsent c (stage ▸ hc),
        fun c hc x hx => h.used c (stage ▸ hc) x (hsub x hx),
        fun c hc => h.call c (stage ▸ hc), h.failures⟩
    | leaves stage excluded =>
      refine ⟨h.sentPicked, h.sentNodup, fun c hc => ?_, fun c hc => ?_, fun c hc => ?_,
        h.failures⟩
      · exact absurd (stage.symm.trans hc) (by simp)
      · rcases hc with hc | hc <;> exact absurd (stage.symm.trans hc) (by simp)
      · exact absurd (stage.symm.trans hc) (by simp)
    | passes c old new excluded =>
      refine ⟨h.sentPicked, h.sentNodup, fun c' hc => absurd (new.symm.trans hc) (by simp),
        fun c' hc x hx => ?_, fun c' hc => absurd (new.symm.trans hc) (by simp), h.failures⟩
      rcases hc with hc | hc
      · exact absurd (new.symm.trans hc) (by simp)
      · obtain rfl : c = c' := by simpa [new] using hc
        exact h.used c (Or.inl old) x (hsub x hx)
    | picks c act => exact absurd act (hpick c)
    | fails c act => exact absurd act hlog

/-- The lookup of `dispatch_build` finds the connection that was picked. -/
theorem looked (h : Faithful s) (buildId : ℤ) {c : ℕ} (hpc : s.task.pc = .sending c)
    (hcall : s.disp.calls 0 = .idle)
    (hsteady : ∀ conn ∈ s.disp.hub.current s.name, conn = c) :
    Faithful { s with
      disp := s.disp.act (.look 0 s.name buildId)
      used := (s.disp.hub.current s.name).toList } := by
  have hstage : ∀ c', s.task.pc.stage = .before c' → c' = c := by
    intro c' hc
    simpa [hpc, TaskPc.stage] using hc.symm
  refine ⟨h.sentPicked, h.sentNodup, h.unsent, fun c' hc x hx => ?_, fun c' hc conn hconn => ?_,
    h.failures⟩
  · obtain rfl : c' = c := by
      rcases hc with hc | hc
      · exact hstage c' hc
      · exact absurd hc (by simp [hpc, TaskPc.stage])
    exact hsteady x (Option.mem_toList.mp hx)
  · obtain rfl := hstage c' hc
    refine hsteady conn ?_
    cases hcur : s.disp.hub.current s.name with
    | none =>
      exact absurd hconn (by simp [Dispatching.act, hcall, hcur, Dispatching.setCall, callConn])
    | some conn' =>
      simpa [Dispatching.act, hcall, hcur, Dispatching.setCall, callConn] using hconn

theorem callConn_register (d : Dispatching) :
    callConn ((d.act (.register 0)).calls 0) = callConn (d.calls 0) := by
  simp only [Dispatching.act]
  split
  · rename_i name buildId conn hcall
    simp [Dispatching.setCall, callConn, hcall]
  · rfl

/-- `Build` goes out, or not: either way on the connection that was picked. -/
theorem sent (h : Faithful s) (hA : Attempts conns s) {c conn : ℕ} {name : BuilderName} {id : ℤ}
    {chan : ℕ} (hpc : s.task.pc = .sending c) (hcall : s.disp.calls 0 = .opened name id conn chan)
    (ok : Bool) (disp : Dispatching) :
    Faithful { s with
      disp := disp
      sent := if ok then s.sent ++ [conn] else s.sent
      task := { s.task with
        pc := if ok then .building c false else .writingLog c .transportFailure } } := by
  have hbefore : s.task.pc.stage = .before c := by rw [hpc]; rfl
  obtain rfl : conn = c := h.call c hbefore conn (by simp [hcall, callConn])
  have hafter : (if ok then TaskPc.building conn false
      else .writingLog conn .transportFailure).stage = .after conn := by
    cases ok <;> rfl
  refine ⟨?_, ?_, fun c' hc => absurd (hafter.symm.trans hc) (by simp), fun c' hc x hx => ?_,
    fun c' hc => absurd (hafter.symm.trans hc) (by simp), h.failures⟩
  · intro x hx
    cases ok with
    | false => exact h.sentPicked x hx
    | true =>
      rcases List.mem_append.mp hx with hx | hx
      · exact h.sentPicked x hx
      · obtain rfl := List.mem_singleton.mp hx
        exact hA.current x hbefore
  · cases ok with
    | false => exact h.sentNodup
    | true =>
      refine List.nodup_append.mpr ⟨h.sentNodup, List.nodup_singleton _, ?_⟩
      rintro x hx y hy rfl
      obtain rfl := List.mem_singleton.mp hy
      exact h.unsent x hbefore hx
  · rcases hc with hc | hc
    · exact absurd (hafter.symm.trans hc) (by simp)
    · obtain rfl : conn = c' := by simpa [hafter] using hc
      exact h.used conn (Or.inl hbefore) x hx

/-- A channel of the push or the pull is opened. -/
theorem opened (h : Faithful s) {c : ℕ} (hlooks : s.task.pc.looksUp = some c)
    (hsteady : ∀ conn ∈ s.disp.hub.current s.name, conn = c) :
    Faithful { s with used := s.used ++ (s.disp.hub.current s.name).toList } := by
  have hstage : ∀ c', s.task.pc.stage = .before c' ∨ s.task.pc.stage = .after c' → c' = c := by
    intro c' hc
    cases hpc : s.task.pc <;> simp [hpc, TaskPc.looksUp, TaskPc.stage] at hlooks hc <;> omega
  refine ⟨h.sentPicked, h.sentNodup, h.unsent, fun c' hc x hx => ?_, h.call, h.failures⟩
  rcases List.mem_append.mp hx with hx | hx
  · exact h.used c' hc x hx
  · rw [hstage c' hc]
    exact hsteady x (Option.mem_toList.mp hx)

theorem act (h : Faithful s) (hA : Attempts conns s) (a : AttemptAct) (hs : s.Steadfast a) :
    Faithful (s.act builderWait spec buildId a) := by
  cases a with
  | hub a => exact h.setHub _
  | cancel => exact ⟨h.sentPicked, h.sentNodup, h.unsent, h.used, h.call, h.failures⟩
  | task a =>
    simp only [BuildOne.act]
    split
    · rename_i hlocal
      exact h.stepTask (TaskAct.of_isLocal hlocal).1 (TaskAct.of_isLocal hlocal).2
    · exact h
  | pick =>
    simp only [BuildOne.act]
    split
    · rename_i again b hpc hpick
      obtain ⟨hsys, hfresh, -⟩ := pick_spec hpick
      have hA' : Attempts conns (s.act builderWait spec buildId .pick) := hA.act .pick trivial
      simp only [BuildOne.act, hpc, hpick] at hA'
      rw [stepTask_pick hpc hsys hfresh] at hA' ⊢
      have hnew : b.connectionId ∉ s.picked :=
        fun hx => (List.nodup_append.mp hA'.nodup).2.2 _ hx _ (List.mem_singleton_self _) rfl
      refine ⟨fun x hx => List.mem_append_left _ (h.sentPicked x hx), h.sentNodup,
        fun c hc => ?_, fun _ _ _ hx => absurd hx (by simp), fun c hc conn hconn => ?_, h.failures⟩
      · obtain rfl : b.connectionId = c := by simpa [TaskPc.stage] using hc
        exact fun hx => hnew (h.sentPicked _ hx)
      · exact absurd hconn (by simp [Dispatching.setCall, callConn])
    · exact h
  | reserve =>
    simp only [BuildOne.act]
    split
    · exact (h.setHub _).stepTask (by simp) (by simp)
    · exact h
  | openChannel =>
    simp only [BuildOne.act]
    split
    · rename_i c hpc
      have hlooks : s.task.pc.looksUp = some c := by rw [hpc]; rfl
      exact h.opened hlooks (hs c hlooks)
    · rename_i c hpc
      have hlooks : s.task.pc.looksUp = some c := by rw [hpc]; rfl
      exact h.opened hlooks (hs c hlooks)
    · exact h
  | copied outcome =>
    simp only [BuildOne.act]
    split
    · split
      · exact h.stepTask (by simp) (by simp)
      · exact h
    · exact h.stepTask (by simp) (by simp)
  | look =>
    simp only [BuildOne.act]
    split
    · rename_i c hpc hcall
      have hlooked := h.looked buildId hpc hcall (hs c (by rw [hpc]; rfl))
      split
      · exact hlooked.stepTask (by simp) (by simp)
      · exact hlooked
    · exact h
  | register =>
    refine ⟨h.sentPicked, h.sentNodup, h.unsent, h.used, fun c hc conn hconn => ?_, h.failures⟩
    simp only [BuildOne.act] at hconn
    rw [callConn_register] at hconn
    exact h.call c hc conn hconn
  | send ok =>
    simp only [BuildOne.act]
    split
    · rename_i c _ _ _ _ hpc hcall
      rw [stepTask_sent (c := c)]
      · exact h.sent hA hpc hcall ok _
      · exact hpc
    · exact h
  | recv =>
    simp only [BuildOne.act]
    split
    · split
      · exact (h.setHub _).stepTask (by simp) (by simp)
      · exact h.stepTask (by simp) (by simp)
      · exact h
    · exact h
  | logWritten =>
    simp only [BuildOne.act]
    split
    · rename_i c result hpc
      rw [stepTask_logWritten c result]
      swap
      · exact hpc
      have hfailures : ∀ f ∈ (if result = PoolDispatchResult.transportFailure then
          s.failures ++ [(c, s.used)] else s.failures), ∀ x ∈ f.2, x = f.1 := by
        split
        · intro f hf
          rcases List.mem_append.mp hf with hf | hf
          · exact h.failures f hf
          · obtain rfl := List.mem_singleton.mp hf
            exact h.used c (Or.inr (by rw [hpc]; rfl))
        · exact h.failures
      have hover : ∀ c', (s.task.afterLog c result).pc.stage ≠ .before c' ∧
          (s.task.afterLog c result).pc.stage ≠ .after c' := by
        cases result <;> simp [Task.afterLog, TaskPc.stage]
      exact ⟨h.sentPicked, h.sentNodup, fun c' hc => absurd hc (hover c').1,
        fun c' hc => hc.elim (fun hc => absurd hc (hover c').1) fun hc => absurd hc (hover c').2,
        fun c' hc => absurd hc (hover c').1, hfailures⟩
    · exact h

theorem run {as : List AttemptAct} : ∀ {s : BuildOne}, Faithful s → Attempts conns s →
    (∀ a ∈ as, Known conns a) → Steps (BuildOne.act builderWait spec buildId) Steadfast s as →
    Faithful (s.run builderWait spec buildId as) := by
  induction as with
  | nil => exact fun h _ _ _ => h
  | cons a as ih =>
    intro s h hA hknown hsteps
    exact ih (h.act hA a hsteps.1) (hA.act a (hknown a List.mem_cons_self))
      (fun b hb => hknown b (List.mem_cons_of_mem a hb)) hsteps.2

end Faithful

/-- What the loop promises, for a finite set of connections. -/
structure OncePerConnection (conns : Finset ℕ) (s : BuildOne) : Prop where
  /-- Every transport failure has put one id into `excluded`. -/
  excluded : s.task.excluded = (s.failures.map Prod.fst).reverse
  /-- It is that of the connection on which the failing step ran. -/
  failed : ∀ f ∈ s.failures, ∀ x ∈ f.2, x = f.1
  /-- No connection receives a second `Build`. -/
  once : s.sent.Nodup
  /-- The loop makes finitely many attempts. -/
  finite : s.picked.length ≤ conns.card

/-- **One attempt per connection.** -/
theorem one_attempt_per_connection (builderWait : Bool) (spec : JobSpec) (buildId : ℤ) (grace : ℕ)
    (as : List AttemptAct) (conns : Finset ℕ) (hknown : ∀ a ∈ as, Known conns a)
    (hsteady : Steps (act builderWait spec buildId) Steadfast (start grace) as) :
    OncePerConnection conns ((start grace).run builderWait spec buildId as) := by
  have hA : Attempts conns ((start grace).run builderWait spec buildId as) :=
    (Attempts.start grace).run hknown
  have hF : Faithful ((start grace).run builderWait spec buildId as) :=
    (Faithful.start grace).run (Attempts.start grace) hknown hsteady
  exact ⟨hA.excluded, hF.failures, hF.sentNodup, hA.attempts_le⟩

/-! ## A connection that stays, and one that is taken over -/

section Runs

variable {builderWait : Bool} {spec : JobSpec} {buildId : ℤ} {s : BuildOne}

/-- The state after a pick. -/
def picks (s : BuildOne) (again : Bool) (b : BuilderSnapshot) : BuildOne :=
  { s with
    task := { s.task with pc := .reserving again b.connectionId }
    disp := s.disp.setCall 0 .idle
    name := b.name
    used := []
    picked := s.picked ++ [b.connectionId] }

theorem act_pick {again : Bool} {b : BuilderSnapshot} (hpc : s.task.pc = .picking again)
    (hpick : pickBuilderForSpec s.disp.hub spec s.task.excluded = some b) :
    s.act builderWait spec buildId .pick = s.picks again b := by
  obtain ⟨hsys, hfresh, -⟩ := pick_spec hpick
  simp only [BuildOne.act, hpc, hpick]
  rw [stepTask_pick hpc hsys hfresh]
  rfl

end Runs

/-- An ordinary builder. -/
def muninCaps : BuilderCapabilities := ⟨["x86_64-linux"], "x86_64-linux", [], 2⟩

/-- A Job for it. -/
def hello : JobSpec :=
  { attrPath := "packages.x86_64-linux.hello", drvPath := some "/nix/store/hello.drv"
    system := some "x86_64-linux", error := none, isCached := false, requiredSystemFeatures := [] }

/-- `munin` as it is picked, idle and on the given connection. -/
def munin (conn : ℕ) : BuilderSnapshot :=
  { name := ⟨"munin"⟩, capabilities := muninCaps, state := .active, inFlight := 0
    connectionId := conn }

theorem pick_munin {hub : Hub} {conn : ℕ} {exclude : List ℕ}
    (hsole : hub.reg.inner.entries =
      [⟨⟨"munin"⟩, { capabilities := muninCaps, state := .active, connectionId := conn }⟩])
    (hgauge : hub.reg.gauge ⟨"munin"⟩ = 0) (hfresh : conn ∉ exclude) :
    pickBuilderForSpec hub hello exclude = some (munin conn) := by
  have heligible : hub.reg.eligible hub.now "x86_64-linux" [] exclude =
      [hub.reg.snapshotOf ⟨"munin"⟩
        { capabilities := muninCaps, state := .active, connectionId := conn }] :=
    BuilderRegistry.eligible_sole hsole rfl rfl (by simp [muninCaps]) hfresh rfl
      (by rw [hgauge]; exact Nat.succ_pos 1)
  have hsnapshot : hub.reg.snapshotOf ⟨"munin"⟩
      { capabilities := muninCaps, state := .active, connectionId := conn } = munin conn := by
    simp [BuilderRegistry.snapshotOf, munin, hgauge]
  rw [hsnapshot] at heligible
  exact congrArg List.head? heligible

/-- The task has its transfer slot and `munin` is connected. -/
def entered : List AttemptAct :=
  [.hub (.hello 0 ⟨"munin"⟩ muninCaps), .task .arm, .task .slot]

theorem entered_pick : ((start 0).run false hello 7 entered).act false hello 7 .pick =
    ((start 0).run false hello 7 entered).picks false (munin 0) :=
  act_pick (by decide)
    (pick_munin (by decide) (by decide) (by decide))

/-- The attempt runs on the connection that was picked, which breaks off during the build. -/
def brokenOff : List AttemptAct :=
  [.reserve, .openChannel, .copied .done, .look, .register, .send true, .hub (.teardown 0),
    .hub (.drain ⟨"munin"⟩), .recv, .logWritten]

theorem one_attempt_per_connection_brokenOff :
    OncePerConnection {0}
      ((start 0).run false hello 7 (entered ++ [AttemptAct.pick] ++ brokenOff)) := by
  refine one_attempt_per_connection false hello 7 0 _ {0} ?_ ?_
  · simp [entered, brokenOff, Known]
  · have hentered : Steps (act false hello 7) Steadfast (start 0) entered :=
      ⟨trivial, trivial, trivial, trivial⟩
    have hpick : Steps (act false hello 7) Steadfast (entered.foldl (act false hello 7) (start 0))
        [AttemptAct.pick] := ⟨trivial, trivial⟩
    refine (hentered.append hpick).append ?_
    · rw [List.foldl_append]
      have hpicked : [AttemptAct.pick].foldl (act false hello 7)
          (entered.foldl (act false hello 7) (start 0)) =
            ((start 0).run false hello 7 entered).picks false (munin 0) := entered_pick
      rw [hpicked]
      decide

/-- `munin` reconnects while the attempt waits for its push. Everything after that happens on the
    new connection: the push, the build, and a pull that fails. -/
def takenOver : List AttemptAct :=
  [.reserve, .hub (.hello 1 ⟨"munin"⟩ muninCaps), .hub (.drain ⟨"munin"⟩), .openChannel,
    .copied .done, .look, .register, .send true,
    .hub (.control 1 (.buildFinished 7 .success (some 0) ["/nix/store/hello"] false)), .recv,
    .task .slot, .openChannel, .copied .failed, .logWritten, .task .slot]

/-- The next attempt. -/
def resent : List AttemptAct := [.reserve, .openChannel, .copied .done, .look, .register, .send true]

theorem takenOver_pick :
    ((((start 0).run false hello 7 entered).picks false (munin 0)).run false hello 7
        takenOver).act false hello 7 .pick =
      ((((start 0).run false hello 7 entered).picks false (munin 0)).run false hello 7
        takenOver).picks true (munin 1) :=
  act_pick (by decide)
    (pick_munin (by decide) (by decide) (by decide))

/-- The failure on connection 1 has excluded connection 0, and connection 1 gets the build twice. -/
theorem takenOver_sent :
    ((start 0).run false hello 7
      (entered ++ [AttemptAct.pick] ++ takenOver ++ [AttemptAct.pick] ++ resent)).sent = [1, 1] := by
  unfold run
  simp only [List.foldl_append, List.foldl_cons, List.foldl_nil]
  have hfirst : act false hello 7 (entered.foldl (act false hello 7) (start 0)) .pick =
      ((start 0).run false hello 7 entered).picks false (munin 0) := entered_pick
  rw [hfirst]
  have hsecond : act false hello 7 (takenOver.foldl (act false hello 7)
      (((start 0).run false hello 7 entered).picks false (munin 0))) .pick =
      ((((start 0).run false hello 7 entered).picks false (munin 0)).run false hello 7
        takenOver).picks true (munin 1) := takenOver_pick
  rw [hsecond]
  decide

theorem not_one_attempt_per_connection :
    ¬ ∀ (builderWait : Bool) (spec : JobSpec) (buildId : ℤ) (grace : ℕ) (as : List AttemptAct)
      (conns : Finset ℕ), (∀ a ∈ as, Known conns a) →
      OncePerConnection conns ((start grace).run builderWait spec buildId as) := by
  intro hall
  have hbad := hall false hello 7 0
    (entered ++ [AttemptAct.pick] ++ takenOver ++ [AttemptAct.pick] ++ resent) {0, 1}
    (by simp [entered, takenOver, resent, Known])
  have honce := hbad.once
  rw [takenOver_sent] at honce
  exact absurd honce (by decide)

end BuildOne

end Argunix.Daemon
