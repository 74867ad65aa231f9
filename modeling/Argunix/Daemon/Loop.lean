import Argunix.Daemon.Phase

/-!
# The life of a Job in a build phase

From the loop's point of view a Job goes through four stages. It *waits* while its Step is open
and it is not the Job the Step is built for; it is *being built* while a task of the set has it
as its head Job; it is *owed* a row and a count between the completion of its Step and the
`handle` that settles it; after that it is *over*.

The dispatch loop moves Jobs through these stages and nothing else does: `Looping` is what
the loop keeps of its strategy, and `Staged.spawned`, `Staged.join`, `Staged.settle` say where a
Job can go. When the loop leaves by its first exit every Job is over, and it never believes itself
wedged (`Looping.exit`).

Invariants about rows and tallies are then statements per stage.
-/

set_option autoImplicit false

namespace Argunix.Daemon

open Argunix.Lib Argunix.Sched Argunix.Sched.DagStrategy Argunix.Eval Argunix.Store

/-! ## The graph has no cycle, whatever the walk says -/

/-- Every item is one head derivation that does not wait for itself. -/
def Flat (items : List ScheduleItem) : Prop :=
  ∀ i ∈ items, i.closure = [] ∧ i.headDrv.drvPath ∉ i.headDrv.inputDrvs

/-- Edges are drawn only to Steps that are there already. -/
theorem acyclic_edge {cap : Option ℕ} {items : List ScheduleItem} {s : DagStrategy}
    (h : Enqueued cap items s) (hflat : Flat items) : Acyclic s.Edge := by
  induction h with
  | new => exact .of_rank (fun _ => 0) fun a b ⟨st, hl, _⟩ => absurd hl (by simp [DagStrategy.new])
  | setWeight r w _ hs ih =>
    exact (ih hflat).mono fun a b he => (hs.sameLinks.edge a b).mp he
  | @enqueue items s s₁ s₂ item henq hs hs₂ ih =>
    have had := insertItem_spec s₁ item
    obtain ⟨hclosure, hself⟩ := hflat item (by simp)
    have hold : Acyclic s₁.Edge :=
      (ih fun i hi => hflat i (by simp [hi])).mono fun a b he => (hs.sameLinks.edge a b).mp he
    -- a new edge ends at the head, and only if the head is new
    have hnew : ∀ a b, (s₁.insertItem item).Edge a b → s₁.Edge a b ∨
        (b = item.headDrv.drvPath ∧ s₁.byDrv.lookup b = none ∧ a ∈ item.headDrv.inputDrvs) := by
      intro a b he
      rcases had.edge a b he with he | ⟨hnone, inputs, hl, ha⟩
      · exact Or.inl he
      · rw [inputsByDrv, hclosure, List.foldl_nil, HashMap.lookup_insert_eq] at hl
        split at hl
        · rename_i hb
          exact Or.inr ⟨hb, hnone, Option.some.inj hl ▸ ha⟩
        · exact absurd hl (by simp)
    suffices hmid : Acyclic (s₁.insertItem item).Edge from hmid.mono fun a b he =>
      (hs₂.sameLinks.edge a b).mp ((sameLinks_promoteReadySteps s₂).edge a b |>.mp he)
    by_cases hin : s₁.byDrv.lookup item.headDrv.drvPath = none
    · refine hold.add_sink (x := item.headDrv.drvPath) (fun a b he => ?_) fun b he => ?_
      · exact (hnew a b he).imp_right fun h => h.1
      · rcases hnew _ b he with ⟨st, hl, -⟩ | ⟨hb, -, ha⟩
        · exact absurd (hin.symm.trans hl) (by simp)
        · exact hself ha
    · refine hold.mono fun a b he => ?_
      rcases hnew a b he with he | ⟨rfl, hnone, -⟩
      · exact he
      · exact absurd hnone hin

theorem flat_scheduleItems {walk : ClosureWalk} (hk : walk.Keyed) (repoId : RepoId) (e : EvalId)
    (persisted : Persisted) : Flat (scheduleItems walk repoId e persisted) := by
  intro i hi
  obtain ⟨hclosure, hin⟩ := scheduleItems_spec hi
  refine ⟨hclosure, fun hself => ?_⟩
  rw [hin, toplevelDeps, List.mem_map] at hself
  obtain ⟨info, hinfo, hpath⟩ := hself
  obtain ⟨d, hne, -, hl⟩ := ClosureWalk.mem_closureFor_iff.mp (List.mem_filter.mp hinfo).1
  exact hne ((hk d info hl).symm.trans hpath)

/-! ## What is queued -/

theorem pendingCount_shuffle {s s' : DagStrategy} (hs : Shuffle s s') :
    s'.pendingCount = s.pendingCount := by
  unfold DagStrategy.pendingCount WfqCore.pendingCount
  exact (HashMap.sumOver_shuffle hs.wfq.repos).symm

theorem dispatch_none_of_pendingCount {s : DagStrategy} (hcap : s.wfq.concurrencyCap = none)
    (h : s.pendingCount = 0) : s.dispatch.1 = none := by
  have hfree : s.wfq.capReached = false := by simp [WfqCore.capReached, hcap]
  have hnone := (WfqCore.dispatch_eq_none_iff hfree).mpr h
  unfold DagStrategy.dispatch
  rw [show s.wfq.pendingCount = 0 from h]
  simp [dispatchLoop, hnone]

theorem pendingCount_of_dispatch_none {s : DagStrategy} (hb : Bookkeeping [] s)
    (hcap : s.wfq.concurrencyCap = none) (h : s.dispatch.1 = none) :
    s.dispatch.2.pendingCount = 0 := by
  have hspec := dispatch_spec s hb.known_token
  cases hres : s.dispatch with
  | mk o s' =>
    rw [hres] at hspec h
    cases hspec with
    | @idle c hc hnone =>
      have hfree : c.capReached = false := by simp [WfqCore.capReached, hc.cap, hcap]
      exact (WfqCore.dispatch_eq_none_iff hfree).mp hnone
    | run _ _ _ _ => exact absurd h (by simp)

/-! ## The loop and its strategy -/

/-- Rows and counts that a completion has left to `handle`. -/
def LoopPc.todo : LoopPc → List Effect
  | settling todo | aborting todo => todo
  | _ => []

/-- The Step of this Job is closed. -/
def Phase.Ended (p : Phase) (item : ScheduleItem) : Prop :=
  ∃ st, p.session.strategy.byDrv.lookup item.headDrv.drvPath = some st ∧ st.state.isTerminal = true

/-- What the loop keeps, up to the moment it cancels the evaluation. -/
structure Looping (items : List ScheduleItem) (p : Phase) : Prop where
  draining : Session.Draining none items p.session
  acyclic : Acyclic p.session.strategy.Edge
  heads : ∀ d ∈ p.session.inFlight, d.headJob = (jobsAt items d.drvPath).head?
  jobs : ∀ k st, p.session.strategy.byDrv.lookup k = some st → jobsAt items k ≠ []
  builds : ∀ d ∈ p.session.inFlight, ∃ b, p.builds.lookup d.token = some b
  owed : ∀ x ∈ p.pc.todo, ∃ item ∈ items, item.jobId = x.jobId ∧ p.Ended item
  drained : p.pc = .checking true → p.session.strategy.pendingCount = 0

namespace Looping

variable {items : List ScheduleItem} {p : Phase}

theorem start {s : DagStrategy} (henq : Enqueued none items s) (hflat : Flat items)
    (hnd : (items.map (·.jobId)).Nodup) (persisted : Persisted) (cancel : Bool) :
    Looping items (Phase.start persisted s cancel) := by
  have hload := henq.loaded
  refine ⟨.start hload hnd, acyclic_edge henq hflat, ?_, ?_, ?_, ?_, ?_⟩
  · intro d hd
    exact absurd hd (by simp [Phase.start, Session.start])
  · intro k st hl hnil
    obtain ⟨i, hi, drv, hm, hd⟩ := hload.mentioned k st hl
    rw [mentions, (hflat i hi).1, List.nil_append, List.mem_singleton] at hm
    have : i.jobId ∈ jobsAt items k := mem_jobsAt_iff.mpr ⟨i, hi, hm ▸ hd, rfl⟩
    rw [hnil] at this
    exact absurd this (by simp)
  · intro d hd
    exact absurd hd (by simp [Phase.start, Session.start])
  · intro x hx
    exact absurd hx (by simp [Phase.start, LoopPc.todo])
  · intro h
    exact absurd h (by simp [Phase.start])

theorem ended_reorder {s : DagStrategy} (hs : Shuffle p.session.strategy s) (item : ScheduleItem) :
    (p.reorder s).Ended item ↔ p.Ended item := by
  unfold Phase.Ended Phase.reorder
  simp only [hs.step]

theorem reorder (h : Looping items p) {s : DagStrategy} (hs : Shuffle p.session.strategy s) :
    Looping items (p.reorder s) := by
  refine ⟨h.draining.reorder hs, h.acyclic.mono fun a b he => (hs.sameLinks.edge a b).mp he, h.heads,
    fun k st hl => h.jobs k st ((hs.step k).symm.trans hl), h.builds, ?_, ?_⟩
  · intro x hx
    obtain ⟨item, hi, hj, hend⟩ := h.owed x hx
    exact ⟨item, hi, hj, (ended_reorder hs item).mpr hend⟩
  · intro hpc
    exact (pendingCount_shuffle hs).trans (h.drained hpc)

/-- A task of the set is running the Step of its Job. -/
theorem running (h : Looping items p) {d : Dispatched} (hd : d ∈ p.session.inFlight) :
    ∃ st, p.session.strategy.byDrv.lookup d.drvPath = some st ∧ st.state = .running ∧
      st.inFlightToken = some d.token ∧ st.headJobs = jobsAt items d.drvPath := by
  obtain ⟨st, hl, hrun, htok⟩ := (h.draining.tracks.runs d.drvPath d.token).mpr ⟨d, hd, rfl, rfl⟩
  exact ⟨st, hl, hrun, htok, h.draining.jobs_of_lookup hl⟩

theorem drvPath_of_head (h : Looping items p) (hnd : (items.map (·.jobId)).Nodup)
    {d : Dispatched} (hd : d ∈ p.session.inFlight) {item : ScheduleItem} (hi : item ∈ items)
    (hj : d.headJob = some item.jobId) : item.headDrv.drvPath = d.drvPath := by
  rw [h.heads d hd] at hj
  exact jobsAt_unique hnd (mem_jobsAt_iff.mpr ⟨item, hi, rfl, rfl⟩) (List.mem_of_head? hj)

/-- A Job that is being built has an open Step. -/
theorem not_ended_of_building (h : Looping items p) (hnd : (items.map (·.jobId)).Nodup)
    {d : Dispatched} (hd : d ∈ p.session.inFlight) {item : ScheduleItem} (hi : item ∈ items)
    (hj : d.headJob = some item.jobId) : ¬ p.Ended item := by
  rintro ⟨st, hl, hterm⟩
  obtain ⟨st', hl', hrun, -⟩ := h.running hd
  rw [h.drvPath_of_head hnd hd hi hj, hl', Option.some.injEq] at hl
  rw [← hl, hrun] at hterm
  exact absurd hterm (by decide)

/-- Tokens tell the tasks of the set apart. -/
theorem eq_of_token (h : Looping items p) {d d' : Dispatched} (hd : d ∈ p.session.inFlight)
    (hd' : d' ∈ p.session.inFlight) (ht : d.token = d'.token) : d = d' :=
  List.inj_on_of_nodup_map h.draining.tracks.nodup hd hd' ht

/-- No two tasks are for one Job. -/
theorem eq_of_head (h : Looping items p) (hnd : (items.map (·.jobId)).Nodup) {d d' : Dispatched}
    (hd : d ∈ p.session.inFlight) (hd' : d' ∈ p.session.inFlight) {item : ScheduleItem}
    (hi : item ∈ items) (hj : d.headJob = some item.jobId) (hj' : d'.headJob = some item.jobId) :
    d = d' := by
  obtain ⟨st, hl, -, htok, -⟩ := h.running hd
  obtain ⟨st', hl', -, htok', -⟩ := h.running hd'
  rw [← h.drvPath_of_head hnd hd hi hj, h.drvPath_of_head hnd hd' hi hj', hl',
    Option.some.injEq] at hl
  rw [hl, htok, Option.some.injEq] at htok'
  exact h.eq_of_token hd hd' htok'

/-- The Job of a task is one of the items. -/
theorem item_of_head (h : Looping items p) {d : Dispatched} (hd : d ∈ p.session.inFlight)
    {j : JobId} (hj : d.headJob = some j) : ∃ item ∈ items, item.jobId = j := by
  rw [h.heads d hd] at hj
  obtain ⟨item, hi, -, hij⟩ := mem_jobsAt_iff.mp (List.mem_of_head? hj)
  exact ⟨item, hi, hij⟩

end Looping

/-- The task `task` finds is one of the set. -/
theorem Phase.task_eq_some {p : Phase} {token : DispatchToken} {jobId : JobId} {spec : JobSpec}
    {state : BuildState} (h : p.task token = some (jobId, spec, state)) :
    ∃ d ∈ p.session.inFlight, d.token = token ∧ d.headJob = some jobId ∧
      p.specOf jobId = some spec ∧ p.builds.lookup token = some state := by
  unfold Phase.task at h
  simp only [Option.bind_eq_bind, Option.pure_def, Option.bind_eq_some_iff, Option.some.injEq,
    Prod.mk.injEq] at h
  obtain ⟨d, hfind, j, hj, sp, hsp, st, hst, rfl, rfl, rfl⟩ := h
  refine ⟨d, List.mem_of_find?_eq_some hfind, ?_, hj, hsp, hst⟩
  simpa using List.find?_some hfind

/-! ## Spawning -/

namespace Looping

variable {items : List ScheduleItem} {p : Phase}

/-- A dispatch closes no Step and opens none. -/
theorem ended_dispatch (h : Looping items p) (item : ScheduleItem) (pc : LoopPc)
    (builds : HashMap DispatchToken BuildState) :
    Phase.Ended { p with
      session := p.session.record p.session.strategy.dispatch.2 .dispatch
        (.dispatched p.session.strategy.dispatch.1)
      builds := builds
      pc := pc } item ↔ p.Ended item := by
  have hb := h.draining.tracks.books
  have hspec := dispatch_spec p.session.strategy hb.known_token
  unfold Phase.Ended
  simp only [Session.record_strategy]
  cases hres : p.session.strategy.dispatch with
  | mk o s' =>
    rw [hres] at hspec
    cases hspec with
    | idle _ _ => exact Iff.rfl
    | @run c c' q d step hc hpop ht hl =>
      have hready := (hb.toTokens.swallowed hc).ready_of_pop hpop ht hl
      simp only [HashMap.lookup_modify]
      by_cases hk : item.headDrv.drvPath = d
      · subst hk
        simp only [if_true, hl, Option.map_some, Option.some.injEq, exists_eq_left', hready,
          Step.makeRunning_state]
        decide
      · rw [if_neg hk]

theorem dispatch (h : Looping items p) (hnd : (items.map (·.jobId)).Nodup) (pc : LoopPc)
    (builds : HashMap DispatchToken BuildState) (htodo : pc.todo = [])
    (hbuilds : ∀ d, d ∈ p.session.inFlight ∨ p.session.strategy.dispatch.1 = some d →
      ∃ b, builds.lookup d.token = some b)
    (hdrained : pc = .checking true → p.session.strategy.dispatch.1 = none) :
    Looping items { p with
      session := p.session.record p.session.strategy.dispatch.2 .dispatch
        (.dispatched p.session.strategy.dispatch.1)
      builds := builds
      pc := pc } := by
  have hb := h.draining.tracks.books
  have hlinks := hb.sameLinks_dispatch
  have hflight : ∀ d, d ∈ (p.session.record p.session.strategy.dispatch.2 .dispatch
      (.dispatched p.session.strategy.dispatch.1)).inFlight →
      d ∈ p.session.inFlight ∨ p.session.strategy.dispatch.1 = some d := by
    intro d hd
    cases hres : p.session.strategy.dispatch with
    | mk o s' =>
      rw [hres] at hd
      cases o with
      | none => exact Or.inl hd
      | some d' =>
        rcases List.mem_append.mp hd with hd | hd
        · exact Or.inl hd
        · exact Or.inr (by rw [List.mem_singleton.mp hd])
  refine ⟨h.draining.dispatch hnd (.refl _), ?_, ?_, ?_, ?_, ?_, ?_⟩
  · rw [Session.record_strategy]
    exact h.acyclic.mono fun a b he => (hlinks.edge a b).mp he
  · intro d hd
    rcases hflight d hd with hd | hd
    · exact h.heads d hd
    · have hspec := dispatch_spec p.session.strategy hb.known_token
      cases hres : p.session.strategy.dispatch with
      | mk o s' =>
        rw [hres] at hspec hd
        cases hspec with
        | idle _ _ => exact absurd hd (by simp)
        | @run c c' q k step hc hpop ht hl =>
          obtain rfl := Option.some.inj hd
          have hpath := hb.path k step hl
          have hjobs := h.draining.jobs_of_lookup hl
          simp only [dispatchedOf, hpath, hjobs]
  · intro k st hl
    rw [Session.record_strategy] at hl
    obtain ⟨st', hl', -⟩ := hlinks.symm.lookup hl
    exact h.jobs k st' hl'
  · intro d hd
    exact hbuilds d (hflight d hd)
  · intro x hx
    exact absurd hx (by simp [htodo])
  · intro hpc
    rw [Session.record_strategy]
    exact pendingCount_of_dispatch_none hb h.draining.cap (hdrained hpc)

/-- The Job a spawned task is for was waiting. -/
theorem waiting_of_spawned (h : Looping items p) (hnd : (items.map (·.jobId)).Nodup)
    {d : Dispatched} {s : DagStrategy} (hd : p.session.strategy.dispatch = (some d, s))
    {item : ScheduleItem} (hi : item ∈ items) (hj : d.headJob = some item.jobId) :
    ¬ p.Ended item ∧ ∀ d' ∈ p.session.inFlight, d'.headJob ≠ some item.jobId := by
  have hb := h.draining.tracks.books
  obtain ⟨st, hl, hready, htok⟩ := hb.ready_of_dispatch hd
  have hspec := dispatch_spec p.session.strategy hb.known_token
  rw [hd] at hspec
  have hhead : d.headJob = (jobsAt items d.drvPath).head? := by
    cases hspec with
    | @run c c' q k step hc hpop ht hlk =>
      have hpath := hb.path k step hlk
      have hjobs := h.draining.jobs_of_lookup hlk
      simp only [dispatchedOf, hpath, hjobs]
  have hdrv : item.headDrv.drvPath = d.drvPath :=
    jobsAt_unique hnd (mem_jobsAt_iff.mpr ⟨item, hi, rfl, rfl⟩) (List.mem_of_head? (hhead ▸ hj))
  -- its Step was ready, and the Steps of the set are running
  have hnot : ∀ d' ∈ p.session.inFlight, d'.drvPath ≠ d.drvPath := by
    intro d' hd' heq
    obtain ⟨st', hl', hrun, -⟩ := h.running hd'
    rw [heq, hl, Option.some.injEq] at hl'
    rw [← hl', hready] at hrun
    exact absurd hrun (by decide)
  refine ⟨?_, fun d' hd' hj' => ?_⟩
  · rintro ⟨st', hl', hterm⟩
    rw [hdrv, hl, Option.some.injEq] at hl'
    rw [← hl', hready] at hterm
    exact absurd hterm (by decide)
  · exact hnot d' hd' ((h.drvPath_of_head hnd hd' hi hj').symm.trans hdrv)

/-- A spawned task gets a token no task of the set has. -/
theorem token_of_spawned (h : Looping items p) {d : Dispatched} {s : DagStrategy}
    (hd : p.session.strategy.dispatch = (some d, s)) :
    ∀ d' ∈ p.session.inFlight, d'.token ≠ d.token := by
  intro d' hd' ht
  have hb := h.draining.tracks.books
  obtain ⟨st, hl, hready, htok⟩ := hb.ready_of_dispatch hd
  obtain ⟨st', hl', hrun, htok', -⟩ := h.running hd'
  rw [hb.injective hl' (ht ▸ htok') hl htok, hl, Option.some.injEq] at hl'
  rw [← hl', hready] at hrun
  exact absurd hrun (by decide)

end Looping

/-! ## Joining -/

/-- `joined` with the strategy's answer spelled out. -/
theorem Phase.joined_eq (p : Phase) (token : DispatchToken) (status : JobStatus) :
    p.joined token status = ((p.session.strategy.complete token status).1,
      { p with
        session := p.session.record (p.session.strategy.complete token status).2
          (.complete token status) (.completed (p.session.strategy.complete token status).1)
        builds := p.builds.erase token }) := rfl

namespace Looping

variable {items : List ScheduleItem} {p : Phase}

/-- What a completion is to write: exactly the Jobs whose Steps it closes. -/
structure Completes (items : List ScheduleItem) (p : Phase) (d : Dispatched) (jobId : JobId)
    (status : JobStatus) : Prop where
  /-- A Step that is closed stays closed. -/
  stays : ∀ item, p.Ended item → (p.joined d.token status).2.Ended item
  /-- Every effect is for a Job whose Step is closed now: the one that was built, an alias of it,
      or one behind it. -/
  each : ∀ x ∈ Phase.effectsOf jobId status (p.joined d.token status).1, ∃ item ∈ items,
    item.jobId = x.jobId ∧ (p.joined d.token status).2.Ended item ∧ ¬ p.Ended item ∧
      ((x = .count item.jobId status ∧ d.headJob = some item.jobId) ∨
        ((x = .mirror item.jobId status ∧
            item.jobId ∈ (jobsAt items item.headDrv.drvPath).drop 1) ∨ x = .skip item.jobId) ∧
          ∀ d' ∈ p.session.inFlight, d'.headJob ≠ some item.jobId)
  /-- No Job whose Step is closed now is forgotten. -/
  covers : ∀ item ∈ items, (p.joined d.token status).2.Ended item → ¬ p.Ended item →
    ∃ x ∈ Phase.effectsOf jobId status (p.joined d.token status).1, x.jobId = item.jobId

theorem completes (h : Looping items p) (hnd : (items.map (·.jobId)).Nodup) {d : Dispatched}
    (hd : d ∈ p.session.inFlight) {jobId : JobId} (hj : d.headJob = some jobId)
    (status : JobStatus) : Completes items p d jobId status := by
  have hb := h.draining.tracks.books
  obtain ⟨std, hld, hrun, htok, hjobs⟩ := h.running hd
  have hknown := (hb.token d.token d.drvPath).mpr ⟨std, hld, htok⟩
  obtain ⟨sk, hc⟩ := hb.completed hknown hld status
  have hlinks := hb.sameLinks_complete d.token status
  have hended : ∀ item, (p.joined d.token status).2.Ended item ↔
      ∃ st, (p.session.strategy.complete d.token status).2.byDrv.lookup item.headDrv.drvPath = some st ∧
        st.state.isTerminal = true := by
    intro item
    rw [Phase.joined_eq]
    unfold Phase.Ended
    simp only [Session.record_strategy]
  have hhead : (jobsAt items d.drvPath).head? = some jobId := by rw [← h.heads d hd, hj]
  -- the Jobs that are told, by derivation
  have hmirror : ((p.session.strategy.complete d.token status).1.aliasCompletions).map (·.jobId)
      = (jobsAt items d.drvPath).drop 1 := by
    rw [hc.aliases, map_aliasesFor, hjobs, h.draining.filter_tracked fun _ => rfl]
  have hskip : ((p.session.strategy.complete d.token status).1.cascadedSkips).map (·.jobId)
      = sk.flatMap (jobsAt items) := by
    rw [hc.skips, map_flatMap_skipsFor]
    refine List.flatMap_congr fun k _ => ?_
    rw [h.draining.headJobs]
    exact h.draining.filter_tracked (s := p.session.strategy) (fun _ => rfl) k 0
  have hclosed : ∀ item ∈ items, item.headDrv.drvPath = d.drvPath ∨ item.headDrv.drvPath ∈ sk →
      (p.joined d.token status).2.Ended item ∧ ¬ p.Ended item := by
    intro item hi hor
    obtain ⟨st, hl⟩ := h.draining.present item hi
    obtain ⟨st', hl', -⟩ := hlinks.lookup hl
    refine ⟨(hended item).mpr ⟨st', hl', ?_⟩, ?_⟩
    · rcases hor with heq | hsk
      · rw [hc.ended st' (heq ▸ hl')]
        exact StepState.isTerminal_fromStatus status
      · rw [hc.skipped _ hsk st' hl']
        rfl
    · rintro ⟨st₂, hl₂, hterm⟩
      rcases hor with heq | hsk
      · rw [heq, hld, Option.some.injEq] at hl₂
        rw [← hl₂, hrun] at hterm
        exact absurd hterm (by decide)
      · obtain ⟨st₃, hl₃, hp⟩ := hc.pending _ hsk
        rw [hl₃, Option.some.injEq] at hl₂
        rw [← hl₂, hp] at hterm
        exact absurd hterm (by decide)
  have hmem : ∀ x, x ∈ Phase.effectsOf jobId status (p.joined d.token status).1 ↔
      (∃ j ∈ sk.flatMap (jobsAt items), x = .skip j) ∨
      (∃ j ∈ (jobsAt items d.drvPath).drop 1, x = .mirror j status) ∨ x = .count jobId status := by
    intro x
    rw [Phase.joined_eq]
    unfold Phase.effectsOf
    rw [← hskip, ← hmirror]
    simp only [List.mem_append, List.mem_map, List.mem_singleton, or_assoc]
    constructor
    · rintro (⟨skip, hs, rfl⟩ | ⟨al, ha, rfl⟩ | rfl)
      · exact Or.inl ⟨_, ⟨skip, hs, rfl⟩, rfl⟩
      · exact Or.inr (Or.inl ⟨_, ⟨al, ha, rfl⟩, rfl⟩)
      · exact Or.inr (Or.inr rfl)
    · rintro (⟨_, ⟨skip, hs, rfl⟩, rfl⟩ | ⟨_, ⟨al, ha, rfl⟩, rfl⟩ | rfl)
      · exact Or.inl ⟨skip, hs, rfl⟩
      · exact Or.inr (Or.inl ⟨al, ha, rfl⟩)
      · exact Or.inr (Or.inr rfl)
  have hin : ∀ {item}, item ∈ items → item.jobId ∈ jobsAt items item.headDrv.drvPath :=
    fun hi => mem_jobsAt_iff.mpr ⟨_, hi, rfl, rfl⟩
  -- a Job of the closed Step that is not the primary one is an alias
  have hprimary : ∀ {item}, item ∈ items → item.headDrv.drvPath = d.drvPath →
      item.jobId = jobId ∨ item.jobId ∈ (jobsAt items d.drvPath).drop 1 := by
    intro item hi hdd
    have hjob : item.jobId ∈ jobsAt items d.drvPath := hdd ▸ hin hi
    cases hjs : jobsAt items d.drvPath with
    | nil => exact absurd (hjs ▸ hjob) (by simp)
    | cons a l =>
      rw [hjs] at hjob hhead
      obtain rfl : a = jobId := by simpa using hhead
      simpa using hjob
  refine ⟨?_, ?_, ?_⟩
  · rintro item ⟨st, hl, hterm⟩
    obtain ⟨st', hl', -⟩ := hlinks.lookup hl
    refine (hended item).mpr ⟨st', hl', ?_⟩
    by_cases hdd : item.headDrv.drvPath = d.drvPath
    · rw [hc.ended st' (hdd ▸ hl')]
      exact StepState.isTerminal_fromStatus status
    · by_cases hsk : item.headDrv.drvPath ∈ sk
      · rw [hc.skipped _ hsk st' hl']
        rfl
      · rcases hc.others _ st st' hdd hsk hl hl' with hst | ⟨hp, -⟩
        · rw [hst]
          exact hterm
        · rw [hp] at hterm
          exact absurd hterm (by decide)
  · intro x hx
    rcases (hmem x).mp hx with ⟨j, hjm, rfl⟩ | ⟨j, hjm, rfl⟩ | rfl
    · obtain ⟨k, hk, hjk⟩ := List.mem_flatMap.mp hjm
      obtain ⟨item, hi, rfl, rfl⟩ := mem_jobsAt_iff.mp hjk
      obtain ⟨hend, hnot⟩ := hclosed item hi (Or.inr hk)
      refine ⟨item, hi, rfl, hend, hnot, Or.inr ⟨Or.inr rfl, fun d' hd' hj' => ?_⟩⟩
      obtain ⟨st₂, hl₂, hrun₂, -⟩ := h.running hd'
      obtain ⟨st₃, hl₃, hp⟩ := hc.pending _ hk
      rw [h.drvPath_of_head hnd hd' hi hj', hl₂, Option.some.injEq] at hl₃
      rw [← hl₃, hrun₂] at hp
      exact absurd hp (by decide)
    · obtain ⟨item, hi, hdd, rfl⟩ := mem_jobsAt_iff.mp (List.mem_of_mem_drop hjm)
      obtain ⟨hend, hnot⟩ := hclosed item hi (Or.inl hdd)
      refine ⟨item, hi, rfl, hend, hnot, Or.inr ⟨Or.inl ⟨rfl, hdd ▸ hjm⟩, fun d' hd' hj' => ?_⟩⟩
      -- the primary Job is not among the aliases
      have hpath := h.drvPath_of_head hnd hd' hi hj'
      rw [h.heads d' hd', ← hpath, hdd] at hj'
      have hnodup := jobsAt_nodup hnd d.drvPath
      cases hjs : jobsAt items d.drvPath with
      | nil => exact absurd (hjs ▸ hjm) (by simp)
      | cons a l =>
        rw [hjs] at hjm hj' hnodup
        obtain rfl : a = item.jobId := by simpa using hj'
        exact (List.nodup_cons.mp hnodup).1 hjm
    · obtain ⟨item, hi, hdd, rfl⟩ := mem_jobsAt_iff.mp (List.mem_of_head? hhead)
      obtain ⟨hend, hnot⟩ := hclosed item hi (Or.inl hdd)
      exact ⟨item, hi, rfl, hend, hnot, Or.inl ⟨rfl, hj⟩⟩
  · intro item hi hend hnot
    obtain ⟨st', hl', hterm⟩ := (hended item).mp hend
    by_cases hdd : item.headDrv.drvPath = d.drvPath
    · rcases hprimary hi hdd with heq | htail
      · exact ⟨_, (hmem _).mpr (Or.inr (Or.inr rfl)), heq.symm⟩
      · exact ⟨_, (hmem _).mpr (Or.inr (Or.inl ⟨_, htail, rfl⟩)), rfl⟩
    · by_cases hsk : item.headDrv.drvPath ∈ sk
      · exact ⟨_, (hmem _).mpr (Or.inl ⟨_, List.mem_flatMap.mpr ⟨_, hsk, hin hi⟩, rfl⟩), rfl⟩
      · -- any other Step was at most promoted
        obtain ⟨st, hl⟩ := h.draining.present item hi
        rcases hc.others _ st st' hdd hsk hl hl' with hst | ⟨-, hr⟩
        · exact absurd ⟨st, hl, hst ▸ hterm⟩ hnot
        · rw [hr] at hterm
          exact absurd hterm (by decide)

theorem inFlight_joined {d' : Dispatched} {token : DispatchToken} {status : JobStatus} :
    d' ∈ (p.joined token status).2.session.inFlight ↔ d' ∈ p.session.inFlight ∧ d'.token ≠ token := by
  rw [Phase.joined_eq]
  simp [Session.record]

theorem join (h : Looping items p) (hnd : (items.map (·.jobId)).Nodup) {d : Dispatched}
    (hd : d ∈ p.session.inFlight) {jobId : JobId} (hj : d.headJob = some jobId)
    (status : JobStatus) :
    Looping items { (p.joined d.token status).2 with
      pc := .settling (Phase.effectsOf jobId status (p.joined d.token status).1) } := by
  have hcomp := h.completes hnd hd hj status
  have hb := h.draining.tracks.books
  have hlinks := hb.sameLinks_complete d.token status
  refine ⟨h.draining.complete hnd (.refl _) status ⟨d, hd, rfl⟩, ?_, ?_, ?_, ?_, ?_, ?_⟩
  · exact h.acyclic.mono fun a b he => (hlinks.edge a b).mp he
  · intro d' hd'
    exact h.heads d' (inFlight_joined.mp hd').1
  · intro k st hl
    obtain ⟨st', hl', -⟩ := hlinks.symm.lookup hl
    exact h.jobs k st' hl'
  · intro d' hd'
    obtain ⟨hd', hne⟩ := inFlight_joined.mp hd'
    obtain ⟨b, hb⟩ := h.builds d' hd'
    refine ⟨b, ?_⟩
    rw [Phase.joined_eq]
    exact (HashMap.lookup_erase_eq d.token d'.token p.builds).trans (by rw [if_neg hne, hb])
  · intro x hx
    obtain ⟨item, hi, hxj, hend, -⟩ := hcomp.each x hx
    exact ⟨item, hi, hxj, hend⟩
  · intro hpc
    exact absurd hpc (by simp)

end Looping

/-! ## The other actions -/

/-- The loop has not cancelled the evaluation, and has not ended. -/
def LoopPc.alive : LoopPc → Bool
  | top | spawning | checking _ | parked | selecting _ | polled _ | settling _ | posting => true
  | finishing status => status ≠ .cancelled
  | aborting _ | draining | ended => false

namespace Looping

variable {items : List ScheduleItem} {p p' : Phase} {e : EvalId} {row row' : EvalRow}
  {a : PhaseAct}

/-- An action that leaves the strategy and the set alone. -/
theorem congr (h : Looping items p) (hs : p'.session = p.session)
    (hb : ∀ t b, p.builds.lookup t = some b → ∃ b', p'.builds.lookup t = some b')
    (htodo : ∀ x ∈ p'.pc.todo, x ∈ p.pc.todo)
    (hdr : p'.pc = .checking true → p.pc = .checking true) : Looping items p' := by
  refine ⟨hs ▸ h.draining, hs ▸ h.acyclic, hs ▸ h.heads, hs ▸ h.jobs, ?_, ?_, ?_⟩
  · rw [hs]
    intro d hd
    obtain ⟨b, hl⟩ := h.builds d hd
    exact hb d.token b hl
  · intro x hx
    obtain ⟨item, hi, hj, hend⟩ := h.owed x (htodo x hx)
    refine ⟨item, hi, hj, ?_⟩
    unfold Phase.Ended at hend ⊢
    rw [hs]
    exact hend
  · intro hpc
    rw [hs]
    exact h.drained (hdr hpc)

theorem goto (h : Looping items p) {pc : LoopPc} (htodo : pc.todo = [])
    (hdr : pc ≠ .checking true) : Looping items { p with pc := pc } :=
  h.congr rfl (fun _ b hl => ⟨b, hl⟩) (by simp [htodo]) fun hpc => absurd hpc hdr

theorem afterChecks_todo (p : Phase) (drained : Bool) : (p.afterChecks drained).todo = [] := by
  unfold Phase.afterChecks
  repeat' split
  all_goals rfl

theorem afterChecks_ne (p : Phase) (drained : Bool) : p.afterChecks drained ≠ .checking true := by
  unfold Phase.afterChecks
  repeat' split
  all_goals simp

theorem acts (h : Looping items p) (hnd : (items.map (·.jobId)).Nodup)
    (hact : PhaseActs e row p a row' p') (halive : p'.pc.alive = true) : Looping items p' := by
  cases hact with
  | look hpc => exact h.goto (by split <;> rfl) (by split <;> simp)
  | noPermit hpc => exact h.goto rfl (by simp)
  | @idle s hpc hd =>
    have := h.dispatch hnd (.checking true) p.builds rfl (fun d hor => ?_)
      fun _ => by rw [hd]
    · simpa only [hd] using this
    · rcases hor with hor | hor
      · exact h.builds d hor
      · rw [hd] at hor
        exact absurd hor (by simp)
  | @spawned d s hpc hd =>
    have := h.dispatch hnd p.pc (p.builds.insert d.token .entered)
      (by simp [hpc, LoopPc.todo]) (fun d' hor => ?_) (by simp [hpc])
    · simpa only [hd] using this
    · rw [HashMap.lookup_insert_eq]
      split
      · exact ⟨_, rfl⟩
      · rename_i hne
        rcases hor with hor | hor
        · exact h.builds d' hor
        · rw [hd] at hor
          exact absurd (congrArg Dispatched.token (Option.some.inj hor).symm) hne
  | check hpc => exact h.goto (afterChecks_todo p _) (afterChecks_ne p _)
  | wake hpc => exact h.goto rfl (by simp)
  | abort hpc hc => exact absurd halive (by simp [LoopPc.alive])
  | polled hpc hc => exact h.goto rfl (by simp)
  | join hpc ht =>
    obtain ⟨d, hd, rfl, hj, -, -⟩ := Phase.task_eq_some ht
    exact h.join hnd hd hj _
  | permit hpc _ _ => exact h.goto rfl (by simp)
  | sleep hpc => exact h.goto rfl (by simp)
  | settled hpc => exact h.goto rfl (by simp)
  | settle hpc =>
    refine h.congr rfl (fun _ b hl => ⟨b, hl⟩) (fun x hx => ?_) fun hpc' => absurd hpc' (by simp)
    rw [hpc]
    exact List.mem_cons_of_mem _ hx
  | aborted hpc | skip hpc | drained hpc => exact absurd halive (by simp [LoopPc.alive])
  | drain hpc ht =>
    rw [Phase.joined_eq] at halive
    exact absurd halive (by simp [hpc, LoopPc.alive])
  | finish hpc =>
    refine h.congr rfl (fun _ b hl => ⟨b, hl⟩) (fun x hx => ?_) fun hpc' => ?_
    · split at hx <;> exact absurd hx (by simp [LoopPc.todo])
    · split at hpc' <;> exact absurd hpc' (by simp)
  | post hpc => exact absurd halive (by simp [LoopPc.alive])
  | @build token jobId spec state state' write a ht hb =>
    refine h.congr rfl (fun t b hl => ?_) (fun x hx => hx) id
    rw [HashMap.lookup_insert_eq]
    split
    · exact ⟨_, rfl⟩
    · exact ⟨b, hl⟩
  | dropGuard hg => exact h.congr rfl (fun _ b hl => ⟨b, hl⟩) (fun x hx => hx) id
  | supersede => exact h
  | fire => exact h.congr rfl (fun _ b hl => ⟨b, hl⟩) (fun x hx => hx) id

/-- Nothing comes back from a cancelled loop. -/
theorem alive_of_acts (hact : PhaseActs e row p a row' p') (halive : p'.pc.alive = true) :
    p.pc.alive = true := by
  cases hact with
  | look hpc | noPermit hpc | idle hpc | spawned hpc | check hpc | wake hpc | abort hpc | polled hpc
  | join hpc | permit hpc | sleep hpc | settled hpc | settle hpc | post hpc => rw [hpc]; rfl
  | aborted hpc | skip hpc | drained hpc => exact absurd halive (by simp [LoopPc.alive])
  | drain hpc ht =>
    rw [Phase.joined_eq] at halive
    exact absurd halive (by simp [hpc, LoopPc.alive])
  | @finish status hpc =>
    rw [hpc]
    simp only [LoopPc.alive, decide_eq_true_eq]
    rintro rfl
    exact absurd halive (by simp [LoopPc.alive])
  | build | dropGuard | supersede | fire => exact halive

end Looping

/-! ## Invariants per stage -/

/-- Each Job satisfies what is said of its stage. -/
structure Staged (items : List ScheduleItem) (p : Phase) (waiting : JobId → Prop)
    (building : JobId → Dispatched → Prop) (owed : Effect → Prop) (isOver : JobId → Prop) :
    Prop where
  waiting : ∀ item ∈ items, ¬ p.Ended item →
    (∀ d ∈ p.session.inFlight, d.headJob ≠ some item.jobId) → waiting item.jobId
  building : ∀ item ∈ items, ∀ d ∈ p.session.inFlight, d.headJob = some item.jobId →
    building item.jobId d
  owed : ∀ x ∈ p.pc.todo, owed x ∨ isOver x.jobId
  ended : ∀ item ∈ items, p.Ended item → (∃ x ∈ p.pc.todo, x.jobId = item.jobId) ∨ isOver item.jobId

namespace Staged

variable {items : List ScheduleItem} {p p' : Phase} {W W' V V' : JobId → Prop}
  {B B' : JobId → Dispatched → Prop} {O O' : Effect → Prop}

/-- With nothing left to write, a Job whose Step is closed is over. -/
theorem isOver (h : Staged items p W B O V) (htodo : p.pc.todo = []) {item : ScheduleItem}
    (hi : item ∈ items) (hend : p.Ended item) : V item.jobId := by
  rcases h.ended item hi hend with ⟨x, hx, -⟩ | hv
  · exact absurd hx (by simp [htodo])
  · exact hv

theorem reorder (h : Staged items p W B O V) {s : DagStrategy}
    (hs : Shuffle p.session.strategy s) : Staged items (p.reorder s) W B O V := by
  refine ⟨fun item hi hne => ?_, h.building, h.owed, fun item hi hend => ?_⟩
  · exact h.waiting item hi fun hend => hne ((Looping.ended_reorder hs item).mpr hend)
  · exact h.ended item hi ((Looping.ended_reorder hs item).mp hend)

/-- The set and the strategy are left alone. -/
theorem same (h : Staged items p W B O V) (hs : p'.session = p.session)
    (htodo : p'.pc.todo = p.pc.todo)
    (hW : ∀ item ∈ items, ¬ p.Ended item →
      (∀ d ∈ p.session.inFlight, d.headJob ≠ some item.jobId) → W item.jobId → W' item.jobId)
    (hB : ∀ item ∈ items, ∀ d ∈ p.session.inFlight, d.headJob = some item.jobId →
      B item.jobId d → B' item.jobId d)
    (hO : ∀ x ∈ p.pc.todo, O x → O' x)
    (hV : ∀ item ∈ items, p.Ended item → V item.jobId → V' item.jobId)
    (hloop : Looping items p) : Staged items p' W' B' O' V' := by
  have hended : ∀ item, p'.Ended item ↔ p.Ended item := by
    intro item
    unfold Phase.Ended
    rw [hs]
  refine ⟨fun item hi hne hd => ?_, fun item hi d hd hj => ?_, fun x hx => ?_, fun item hi hend => ?_⟩
  · rw [hended] at hne
    rw [hs] at hd
    exact hW item hi hne hd (h.waiting item hi hne hd)
  · rw [hs] at hd
    exact hB item hi d hd hj (h.building item hi d hd hj)
  · rw [htodo] at hx
    refine (h.owed x hx).imp (hO x hx) fun hv => ?_
    obtain ⟨item, hi, hj, hend⟩ := hloop.owed x hx
    rw [← hj] at hv ⊢
    exact hV item hi hend hv
  · rw [hended] at hend
    rw [htodo]
    exact (h.ended item hi hend).imp_right (hV item hi hend)

/-- A pass that ran dry. -/
theorem idle (h : Staged items p W B O V) (hloop : Looping items p) {s : DagStrategy}
    (hpc : p.pc = .spawning) (hd : p.session.strategy.dispatch = (none, s)) {pc : LoopPc}
    (htodo : pc.todo = []) :
    Staged items { p with
      session := p.session.record s .dispatch (.dispatched none), pc := pc } W B O V := by
  have hended := fun item => hloop.ended_dispatch item pc p.builds
  simp only [hd] at hended
  refine ⟨fun item hi hne hd' => ?_, h.building, fun x hx => ?_, fun item hi hend => ?_⟩
  · exact h.waiting item hi (fun hend => hne ((hended item).mpr hend)) hd'
  · exact absurd hx (by simp [htodo])
  · exact Or.inr (h.isOver (by rw [hpc]; rfl) hi ((hended item).mp hend))

/-- One task more: its Job was waiting. -/
theorem spawned (h : Staged items p W B O V) (hloop : Looping items p)
    (hnd : (items.map (·.jobId)).Nodup) {d : Dispatched} {s : DagStrategy}
    (hpc : p.pc = .spawning) (hd : p.session.strategy.dispatch = (some d, s))
    {builds : HashMap DispatchToken BuildState} (hnew : ∀ j, W j → B' j d)
    (hB : ∀ j d', d'.token ≠ d.token → B j d' → B' j d') :
    Staged items { p with
      session := p.session.record s .dispatch (.dispatched (some d))
      builds := builds } W B' O V := by
  have hended := fun item => hloop.ended_dispatch item p.pc builds
  simp only [hd] at hended
  refine ⟨fun item hi hne hd' => ?_, fun item hi d' hd' hj => ?_, h.owed, fun item hi hend => ?_⟩
  · refine h.waiting item hi (fun hend => hne ((hended item).mpr hend)) fun d' hm => ?_
    exact hd' d' (List.mem_append_left _ hm)
  · rcases List.mem_append.mp hd' with hd' | hd'
    · exact hB _ d' (hloop.token_of_spawned hd d' hd') (h.building item hi d' hd' hj)
    · obtain rfl := List.mem_singleton.mp hd'
      obtain ⟨hne, hnone⟩ := hloop.waiting_of_spawned hnd hd hi hj
      exact hnew _ (h.waiting item hi hne hnone)
  · exact Or.inr (h.isOver (by rw [hpc]; rfl) hi ((hended item).mp hend))

/-- One task less: its Job is owed the count, and Jobs that waited may be owed a row. -/
theorem join (h : Staged items p W B O V) (hloop : Looping items p)
    (hnd : (items.map (·.jobId)).Nodup) {d : Dispatched} (hd : d ∈ p.session.inFlight)
    {jobId : JobId} (hj : d.headJob = some jobId) (htodo : p.pc.todo = []) (status : JobStatus)
    (hskip : ∀ j, W j → O' (.skip j))
    (hmirror : ∀ item ∈ items, item.jobId ∈ (jobsAt items item.headDrv.drvPath).drop 1 →
      W item.jobId → O' (.mirror item.jobId status))
    (hcount : B jobId d → O' (.count jobId status))
    (hB : ∀ j d', d'.token ≠ d.token → B j d' → B' j d') :
    Staged items { (p.joined d.token status).2 with
      pc := .settling (Phase.effectsOf jobId status (p.joined d.token status).1) } W B' O' V := by
  have hcomp := hloop.completes hnd hd hj status
  refine ⟨fun item hi hne hd' => ?_, fun item hi d' hd' hj' => ?_, fun x hx => ?_,
    fun item hi hend => ?_⟩
  · refine h.waiting item hi (fun hend => hne (hcomp.stays item hend)) fun d' hm hj' => ?_
    by_cases ht : d'.token = d.token
    · -- the Job that was built is closed now
      obtain rfl := hloop.eq_of_token hm hd ht
      obtain ⟨item', hi', hj'', hend, -⟩ := hcomp.each (.count jobId status) (by
        unfold Phase.effectsOf
        simp)
      obtain rfl : item' = item := List.inj_on_of_nodup_map hnd hi' hi
        (hj''.trans (Option.some.inj (hj.symm.trans hj')))
      exact hne hend
    · exact hd' d' (Looping.inFlight_joined.mpr ⟨hm, ht⟩) hj'
  · obtain ⟨hm, ht⟩ := Looping.inFlight_joined.mp hd'
    exact hB _ d' ht (h.building item hi d' hm hj')
  · obtain ⟨item, hi, hxj, -, hwas, hkind⟩ := hcomp.each x hx
    refine Or.inl ?_
    rcases hkind with ⟨rfl, hhead⟩ | ⟨hkind, hnone⟩
    · obtain rfl : item.jobId = jobId := Option.some.inj (hhead.symm.trans hj)
      exact hcount (h.building item hi d hd hhead)
    · have hw := h.waiting item hi hwas hnone
      rcases hkind with ⟨rfl, halias⟩ | rfl
      · exact hmirror item hi halias hw
      · exact hskip _ hw
  · by_cases hwas : p.Ended item
    · exact Or.inr (h.isOver htodo hi hwas)
    · exact Or.inl (hcomp.covers item hi hend hwas)

/-- One effect is written: its Job is over, and no open Job is touched. -/
theorem settle (h : Staged items p W B O V) (hloop : Looping items p)
    (hnd : (items.map (·.jobId)).Nodup) {x : Effect} {todo : List Effect} {tally : JobTally}
    (hpc : p.pc = .settling (x :: todo)) (hW : ∀ j, j ≠ x.jobId → W j → W' j)
    (hB : ∀ j d, j ≠ x.jobId → B j d → B' j d) (hO : ∀ y, y.jobId ≠ x.jobId → O y → O' y)
    (hx : (∃ item ∈ items, item.jobId = x.jobId) → O x → V' x.jobId)
    (hV : ∀ j, V j → V' j) :
    Staged items { p with tally := tally, pc := .settling todo } W' B' O' V' := by
  have htodo : p.pc.todo = x :: todo := by rw [hpc]; rfl
  have hmem : x ∈ p.pc.todo := by rw [htodo]; exact List.mem_cons_self
  obtain ⟨item₀, hi₀, hj₀, hend₀⟩ := hloop.owed x hmem
  have hclosed : ∀ item ∈ items, item.jobId = x.jobId → p.Ended item := by
    intro item hi heq
    obtain rfl : item = item₀ := List.inj_on_of_nodup_map hnd hi hi₀ (heq.trans hj₀.symm)
    exact hend₀
  have hover : V' x.jobId := (h.owed x hmem).elim (hx ⟨item₀, hi₀, hj₀⟩) (hV _)
  refine ⟨fun item hi hne hd => ?_, fun item hi d hd hj => ?_, fun y hy => ?_,
    fun item hi hend => ?_⟩
  · exact hW _ (fun heq => hne (hclosed item hi heq)) (h.waiting item hi hne hd)
  · refine hB _ d (fun heq => ?_) (h.building item hi d hd hj)
    exact hloop.not_ended_of_building hnd hd hi hj (hclosed item hi heq)
  · by_cases hyx : y.jobId = x.jobId
    · exact Or.inr (hyx ▸ hover)
    · exact (h.owed y (by rw [htodo]; exact List.mem_cons_of_mem _ hy)).imp (hO y hyx) (hV _)
  · rcases h.ended item hi hend with ⟨y, hy, hyj⟩ | hv
    · rw [htodo] at hy
      rcases List.mem_cons.mp hy with rfl | hy
      · exact Or.inr (hyj ▸ hover)
      · exact Or.inl ⟨y, hy, hyj⟩
    · exact Or.inr (hV _ hv)

end Staged

/-! ## Leaving the loop -/

theorem Looping.ended_of_drained {items : List ScheduleItem} {p : Phase} (h : Looping items p)
    (hset : p.session.inFlight = []) (hnone : p.session.strategy.pendingCount = 0)
    {item : ScheduleItem} (hi : item ∈ items) : p.Ended item := by
  obtain ⟨st, hl⟩ := h.draining.present item hi
  exact ⟨st, hl, h.draining.tracks.terminal_of_drained (by simp) h.draining.cap h.draining.sealed
    h.acyclic hset (.refl _) (dispatch_none_of_pendingCount h.draining.cap hnone) hl⟩

/-- **The exits of the loop.** It leaves with every Job over, or because the token has fired while
    nothing is in flight and something is still queued. It is never wedged. -/
theorem Looping.exit {items : List ScheduleItem} {p : Phase} (h : Looping items p)
    {drained : Bool} (hpc : p.pc = .checking drained) {status : EvalStatus}
    (hexit : p.afterChecks drained = .finishing status) :
    status = .done ∧ p.session.inFlight = [] ∧
      (p.session.strategy.pendingCount = 0 ∨
        (p.cancel = true ∧ 0 < p.session.strategy.pendingCount)) := by
  unfold Phase.afterChecks at hexit
  split at hexit
  · rename_i hc
    exact ⟨(LoopPc.finishing.inj hexit).symm, hc.1, Or.inl hc.2⟩
  · rename_i hne
    split at hexit
    · rename_i hc
      refine ⟨(LoopPc.finishing.inj hexit).symm, hc.2, Or.inr ⟨hc.1, ?_⟩⟩
      exact Nat.pos_of_ne_zero fun hz => hne ⟨hc.2, hz⟩
    · split at hexit
      · rename_i hset
        split at hexit
        · rename_i hd
          subst hd
          exact absurd ⟨hset, h.drained hpc⟩ hne
        · exact absurd hexit (by simp)
      · exact absurd hexit (by simp)

end Argunix.Daemon
