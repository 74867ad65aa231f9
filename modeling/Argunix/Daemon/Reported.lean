import Argunix.Daemon.Honest
import Argunix.Daemon.Pool

/-!
# Is what a phase reports what its rows say?

`build_one` writes the row of its Job on many exits and returns a status on as many. The loop takes
the returned status for the Job's: it passes it to `complete`, counts it and posts it, and every
error is a failure to it.

The two agree as long as no error is joined. There are two kinds of errors. A task that dies (the
log cannot be written, the store refuses, a panic) has not written its row. An attempt that ends as
cancelled has: `dispatch_build_via_pool` writes `cancelled` to the row and returns an error, also
where an agent reports `Killed` and nobody has cancelled anything. The third way to disagree is the
drain of the cancel arm, which completes every task as cancelled, whatever it returned.

`FaithfulWhen` states this on the state before an action. `reports_eq_row` is the theorem, for
every run of a phase with all its tasks. `not_reports_eq_row_killed` is the run with the agent's
`Killed`.
-/

set_option autoImplicit false

namespace Argunix.Daemon

open Argunix.Lib Argunix.Sched Argunix.Sched.DagStrategy Argunix.Eval Argunix.Store

namespace Phase

/-- The dispatch that was completed with this status. -/
def completion : Event → JobStatus → Option Dispatched
  | .completed d status', status => if status' = status then some d else none
  | _, _ => none

theorem completion_eq_some {x : Event} {status : JobStatus} {d : Dispatched} :
    completion x status = some d ↔ x = .completed d status := by
  cases x with
  | completed d' status' => simp [completion, and_comm]
  | dispatched | aliased | skipped | cancelCalled | cancelled => simp [completion]

/-- The strategy was told that the build of the Job ended so. -/
def Completed (p : Phase) (j : JobId) (status : JobStatus) : Prop :=
  ∃ d, Event.completed d status ∈ p.session.log ∧ d.headJob = some j

instance (p : Phase) (j : JobId) (status : JobStatus) : Decidable (p.Completed j status) :=
  decidable_of_iff (∃ x ∈ p.session.log, ∃ d ∈ completion x status, d.headJob = some j) (by
    unfold Completed
    constructor
    · rintro ⟨x, hx, d, hd, hj⟩
      exact ⟨d, completion_eq_some.mp hd ▸ hx, hj⟩
    · rintro ⟨d, hd, hj⟩
      exact ⟨_, hd, d, completion_eq_some.mpr rfl, hj⟩)

/-- **What the phase reports of a Job it has built**: the status it passes to `complete`, and the
    status it counts and posts. -/
def Reports (p : Phase) (j : JobId) (status : JobStatus) : Prop :=
  p.Completed j status ∨ Effect.count j status ∈ p.pc.todo

instance (p : Phase) (j : JobId) (status : JobStatus) : Decidable (p.Reports j status) :=
  inferInstanceAs (Decidable (_ ∨ _))

end Phase

/-! ## Rows that keep what was said -/

/-- The row keeps every status but `running`, and stays open if it was. -/
structure Keeps (row row' : EvalRow) (j : JobId) : Prop where
  status : ∀ s, s ≠ .running → row.jobStatus j = some s → row'.jobStatus j = some s
  openRow : OpenRow row j → OpenRow row' j

namespace Keeps

theorem of_eq {row row' : EvalRow} {j : JobId} (h : row'.jobStatus j = row.jobStatus j) :
    Keeps row row' j := by
  refine ⟨fun s _ hs => h.trans hs, fun ho => ?_⟩
  unfold OpenRow
  rwa [h]

theorem refl (row : EvalRow) (j : JobId) : Keeps row row j := .of_eq rfl

theorem of_jobs {row row' : EvalRow} (h : row'.jobs = row.jobs) (j : JobId) : Keeps row row' j :=
  .of_eq (by simp [EvalRow.jobStatus, h])

theorem of_ne {row : EvalRow} {j j₀ : JobId} (hne : j ≠ j₀) (f : JobStatus → JobStatus) :
    Keeps row (row.updateJob j₀ f) j :=
  .of_eq (by rw [EvalRow.jobStatus_updateJob, if_neg hne])

/-- An effect writes the row of its own Job, or none. -/
theorem apply {x : Effect} {j : JobId} (hne : j ≠ x.jobId) (known : Bool) (row : EvalRow)
    (tally : JobTally) : Keeps row (x.apply known row tally).1 j := by
  cases x with
  | count j₀ status => exact .refl _ _
  | skip j₀ | mirror j₀ status =>
    cases known with
    | true => exact .of_ne hne _
    | false => exact .refl _ _

/-- So does a task. -/
theorem write {j jobId : JobId} (hne : j ≠ jobId) (row : EvalRow) (write : Option RowWrite) :
    Keeps row ((write.map (RowWrite.apply jobId row)).getD row) j := by
  cases write with
  | none => exact .refl _ _
  | some r => cases r <;> exact .of_ne hne _

/-- A dropped guard touches a row that is running, and no verdict. -/
theorem interruptIfRunning (row : EvalRow) (j₀ j : JobId) :
    Keeps row (row.interruptIfRunning j₀) j := by
  refine ⟨fun s hs hrow => ?_, (Drifts.interruptIfRunning row j₀ j).openRow⟩
  rw [EvalRow.interruptIfRunning, EvalRow.jobStatus_updateJob]
  split
  · rename_i hj
    rw [← hj, hrow, Option.map_some, if_neg hs]
  · exact hrow

end Keeps

/-! ## What a task has done to its row -/

/-- The row as the phase finds it: open, or failed because of an eval error. -/
def Fresh (row : EvalRow) (p : Phase) (j : JobId) : Prop :=
  ∃ spec, p.specOf j = some spec ∧ ((spec.error = none ∧ OpenRow row j) ∨
    (spec.error.isSome = true ∧ row.jobStatus j = some .failure))

/-- What the row of a Job says while and after it is built. -/
def Held (row : EvalRow) (p : Phase) (j : JobId) : BuildState → Prop
  | .entered => Fresh row p j
  | .armed | .dispatched => OpenRow row j
  | .returned (.ok status) => row.jobStatus j = some status ∧ status ∈ reportable
  | .returned .err => row.jobStatus j = some .cancelled

theorem ne_running_of_reportable {s : JobStatus} (h : s ∈ reportable) : s ≠ .running := by
  rintro rfl
  exact absurd h (by decide)

namespace Fresh

variable {row row' : EvalRow} {p p' : Phase} {j : JobId}

theorem keeps (h : Fresh row p j) (hspecs : p'.specsById = p.specsById) (hrow : Keeps row row' j) :
    Fresh row' p' j := by
  obtain ⟨spec, hspec, hor⟩ := h
  refine ⟨spec, ?_, ?_⟩
  · unfold Phase.specOf
    rw [hspecs]
    exact hspec
  · rcases hor with ⟨herr, ho⟩ | ⟨herr, hf⟩
    · exact Or.inl ⟨herr, hrow.openRow ho⟩
    · exact Or.inr ⟨herr, hrow.status _ (by simp) hf⟩

/-- Without an eval error the row is open, … -/
theorem openRow (h : Fresh row p j) {spec : JobSpec} (hspec : p.specOf j = some spec)
    (herr : spec.error = none) : OpenRow row j := by
  obtain ⟨spec', hspec', hor⟩ := h
  rw [hspec, Option.some.injEq] at hspec'
  subst hspec'
  rcases hor with ⟨-, ho⟩ | ⟨herr', -⟩
  · exact ho
  · rw [herr] at herr'
    exact absurd herr' (by simp)

/-- … and with one it has the failure. -/
theorem failure (h : Fresh row p j) {spec : JobSpec} (hspec : p.specOf j = some spec)
    (herr : spec.error.isSome = true) : row.jobStatus j = some .failure := by
  obtain ⟨spec', hspec', hor⟩ := h
  rw [hspec, Option.some.injEq] at hspec'
  subst hspec'
  rcases hor with ⟨herr', -⟩ | ⟨-, hf⟩
  · rw [herr'] at herr
    exact absurd herr (by simp)
  · exact hf

end Fresh

/-- An error without a write is a task that died. -/
theorem eq_fail_of_unwritten {cancel : Bool} {spec : JobSpec} {state : BuildState} {a : BuildAct}
    (h : buildOne cancel spec state a = some (.returned .err, none)) : a = .fail := by
  cases a with
  | fail => rfl
  | evalError | cached | preflight | arm | dispatch | verdict | noBuilder | cancelled | killed =>
    cases state <;> simp [buildOne] at h

namespace Held

variable {row row' : EvalRow} {p p' : Phase} {j : JobId} {b : BuildState}

theorem keeps (h : Held row p j b) (hspecs : p'.specsById = p.specsById)
    (hrow : Keeps row row' j) : Held row' p' j b := by
  cases b with
  | entered => exact Fresh.keeps h hspecs hrow
  | armed | dispatched => exact hrow.openRow h
  | returned outcome =>
    cases outcome with
    | ok status => exact ⟨hrow.status _ (ne_running_of_reportable h.2) h.1, h.2⟩
    | err => exact hrow.status _ (by simp) h

/-- **A task that does not die keeps its row and its return value together.** -/
theorem built {cancel : Bool} {spec : JobSpec} {state state' : BuildState} {a : BuildAct}
    {write : Option RowWrite} (h : Held row p j state) (hspec : p.specOf j = some spec)
    (hb : buildOne cancel spec state a = some (state', write)) (hfail : a ≠ .fail) :
    Held ((write.map (RowWrite.apply j row)).getD row) p j state' := by
  have hopen : state.hasReturned = false → (state = .entered → spec.error = none) →
      OpenRow row j := by
    intro hret herr
    cases state with
    | entered => exact Fresh.openRow h hspec (herr rfl)
    | armed | dispatched => exact h
    | returned outcome => exact absurd hret (by simp [BuildState.hasReturned])
  cases buildOne_built hb with
  | arm herr => exact hopen rfl fun _ => herr
  | dispatch hguard =>
    refine (Drifts.dispatchJob row j j).openRow (hopen ?_ ?_)
    · cases state <;> simp_all [BuildState.holdsGuard, BuildState.hasReturned]
    · rintro rfl
      exact absurd hguard (by simp [BuildState.holdsGuard])
  | rejected herr => exact ⟨Fresh.failure h hspec herr, by decide⟩
  | @reported _ status hret herr hrep _ => exact ⟨(hopen hret herr).finishJob status, hrep⟩
  | killed => exact (show OpenRow row j from h).finishJob .cancelled
  | failed hret => exact absurd (eq_fail_of_unwritten hb) hfail

end Held

/-! ## What has been said, and what is about to be -/

/-- What is to be counted has been told; any other row to be written is of a Job of which nothing
    was said. -/
def Phase.Hushed (p : Phase) : Effect → Prop
  | .count j status => p.Completed j status
  | .skip j | .mirror j _ => ∀ status, ¬ p.Completed j status

structure Said (row : EvalRow) (p : Phase) : Prop where
  told : ∀ j s, p.Completed j s → row.jobStatus j = some s ∧ s ∈ reportable
  quiet : ∀ x ∈ p.pc.todo, p.Hushed x
  held : ∀ d ∈ p.session.inFlight, ∀ j, d.headJob = some j → (∀ s, ¬ p.Completed j s) ∧
    ∀ b, p.builds.lookup d.token = some b → Held row p j b

namespace Said

variable {row row' : EvalRow} {p p' : Phase} {j : JobId} {status : JobStatus}

theorem reports (h : Said row p) (hr : p.Reports j status) : row.jobStatus j = some status := by
  rcases hr with hc | hx
  · exact (h.told j status hc).1
  · exact (h.told j status (h.quiet _ hx)).1

theorem hushed_congr (hdone : ∀ j s, p'.Completed j s ↔ p.Completed j s) (x : Effect) :
    p'.Hushed x ↔ p.Hushed x := by
  cases x <;> simp only [Phase.Hushed, hdone]

/-- Nothing is said, and rows of which nothing was said may change if no task has them. -/
theorem frame (h : Said row p) (hdone : ∀ j s, p'.Completed j s ↔ p.Completed j s)
    (hflight : ∀ d ∈ p'.session.inFlight, d ∈ p.session.inFlight) (hbuilds : p'.builds = p.builds)
    (hspecs : p'.specsById = p.specsById) (htodo : ∀ x ∈ p'.pc.todo, p.Hushed x)
    (hrow : ∀ j, Keeps row row' j ∨
      ((∀ s, ¬ p.Completed j s) ∧ ∀ d ∈ p.session.inFlight, d.headJob ≠ some j)) :
    Said row' p' := by
  refine ⟨fun j s hc => ?_, fun x hx => (hushed_congr hdone x).mpr (htodo x hx),
    fun d hd j hj => ?_⟩
  · obtain ⟨hs, hrep⟩ := h.told j s ((hdone j s).mp hc)
    refine ⟨?_, hrep⟩
    rcases hrow j with hk | ⟨hnone, -⟩
    · exact hk.status s (ne_running_of_reportable hrep) hs
    · exact absurd ((hdone j s).mp hc) (hnone s)
  · obtain ⟨hnone, hheld⟩ := h.held d (hflight d hd) j hj
    refine ⟨fun s hc => hnone s ((hdone j s).mp hc), fun b hl => ?_⟩
    rcases hrow j with hk | ⟨-, hfree⟩
    · exact (hheld b (hbuilds ▸ hl)).keeps hspecs hk
    · exact absurd hj (hfree d (hflight d hd))

/-- An action that says nothing and writes no row but running ones. -/
theorem moves (h : Said row p) (hs : p'.session = p.session) (hbuilds : p'.builds = p.builds)
    (hspecs : p'.specsById = p.specsById) (htodo : ∀ x ∈ p'.pc.todo, x ∈ p.pc.todo)
    (hrow : ∀ j, Keeps row row' j) : Said row' p' := by
  refine h.frame (fun j s => ?_) (hs ▸ fun d hd => hd) hbuilds hspecs
    (fun x hx => h.quiet x (htodo x hx)) fun j => Or.inl (hrow j)
  unfold Phase.Completed
  rw [hs]

/-- `handle` writes a row of which nothing was said, or none. -/
theorem handle (h : Said row p) {x : Effect} (hx : x ∈ p.pc.todo)
    (hapart : ∀ d ∈ p.session.inFlight, d.headJob ≠ some x.jobId) {tally : JobTally} {pc : LoopPc}
    (htodo : ∀ y ∈ pc.todo, y ∈ p.pc.todo) (known : Bool) :
    Said (x.apply known row p.tally).1 { p with tally := tally, pc := pc } := by
  refine h.frame (fun _ _ => Iff.rfl) (fun d hd => hd) rfl rfl
    (fun y hy => h.quiet y (htodo y hy)) fun j => ?_
  have hquiet := h.quiet x hx
  by_cases hj : j = x.jobId
  · subst hj
    cases x with
    | count j₀ status => exact Or.inl (.refl _ _)
    | skip j₀ | mirror j₀ status => exact Or.inr ⟨hquiet, hapart⟩
  · exact Or.inl (.apply hj _ _ _)

/-- A task acts on a row of its own. -/
theorem build (h : Said row p) {token : DispatchToken} {jobId : JobId} {spec : JobSpec}
    {state state' : BuildState} {write : Option RowWrite} {a : BuildAct} {guards : List JobId}
    (ht : p.task token = some (jobId, spec, state))
    (htask : ∀ d ∈ p.session.inFlight, d.token = token ↔ d.headJob = some jobId)
    (hb : buildOne p.cancel spec state a = some (state', write)) (hfail : a ≠ .fail) :
    Said ((write.map (RowWrite.apply jobId row)).getD row)
      { p with builds := p.builds.insert token state', guards := guards } := by
  obtain ⟨d₀, hd₀, rfl, hj₀, hspec, hstate⟩ := Phase.task_eq_some ht
  obtain ⟨hnone, hheld⟩ := h.held d₀ hd₀ jobId hj₀
  refine ⟨fun j s hc => ?_, h.quiet, fun d hd j hj => ⟨(h.held d hd j hj).1, fun b hl => ?_⟩⟩
  · obtain ⟨hs, hrep⟩ := h.told j s hc
    have hne : j ≠ jobId := fun heq => hnone s (heq ▸ hc)
    exact ⟨(Keeps.write hne row write).status s (ne_running_of_reportable hrep) hs, hrep⟩
  · rw [HashMap.lookup_insert_eq] at hl
    split at hl
    · rename_i htok
      obtain rfl : j = jobId := Option.some.inj (hj.symm.trans ((htask d hd).mp htok))
      rw [← Option.some.inj hl]
      exact (hheld state hstate).built hspec hb hfail
    · rename_i htok
      have hne : j ≠ jobId := fun heq => htok ((htask d hd).mpr (heq ▸ hj))
      exact ((h.held d hd j hj).2 b hl).keeps rfl (.write hne row write)

end Said

/-- What was said after one more completion. -/
theorem Phase.completed_joined {p : Phase} (hnd : (p.session.inFlight.map (·.token)).Nodup)
    {d : Dispatched} (hd : d ∈ p.session.inFlight) (status : JobStatus) (j : JobId)
    (s : JobStatus) :
    (p.joined d.token status).2.Completed j s ↔
      p.Completed j s ∨ (d.headJob = some j ∧ s = status) := by
  have hlog : ∀ d', Event.completed d' s ∈ (p.joined d.token status).2.session.log ↔
      Event.completed d' s ∈ p.session.log ∨ (d' = d ∧ s = status) := by
    intro d'
    rw [Phase.joined_eq]
    simp only [Session.record, Session.filter_token hnd hd, List.mem_append, List.mem_map,
      List.mem_singleton]
    simp [eq_comm]
  unfold Phase.Completed
  simp only [hlog]
  constructor
  · rintro ⟨d', hm | ⟨rfl, hs⟩, hj⟩
    · exact Or.inl ⟨d', hm, hj⟩
    · exact Or.inr ⟨hj, hs⟩
  · rintro (⟨d', hm, hj⟩ | ⟨hj, hs⟩)
    · exact ⟨d', Or.inl hm, hj⟩
    · exact ⟨d, Or.inr ⟨rfl, hs⟩, hj⟩

/-- One task less, with the status its row has. -/
theorem Said.joined {row : EvalRow} {p : Phase} (h : Said row p)
    (hnd : (p.session.inFlight.map (·.token)).Nodup) {d : Dispatched}
    (hd : d ∈ p.session.inFlight) {jobId : JobId} (hj : d.headJob = some jobId)
    (hheads : ∀ d' ∈ p.session.inFlight, d'.headJob = some jobId → d' = d) {status : JobStatus}
    (hrow : row.jobStatus jobId = some status) (hrep : status ∈ reportable) {pc : LoopPc}
    (htodo : ∀ x ∈ pc.todo, (p.joined d.token status).2.Hushed x) :
    Said row { (p.joined d.token status).2 with pc := pc } := by
  have hdone := Phase.completed_joined hnd hd status
  refine ⟨fun j s hc => ?_, htodo, fun d' hd' j hj' => ?_⟩
  · rcases (hdone j s).mp hc with hc | ⟨hjd, rfl⟩
    · exact h.told j s hc
    · obtain rfl : jobId = j := Option.some.inj (hj.symm.trans hjd)
      exact ⟨hrow, hrep⟩
  · obtain ⟨hm, htok⟩ := Looping.inFlight_joined.mp hd'
    obtain ⟨hnone, hheld⟩ := h.held d' hm j hj'
    refine ⟨fun s hc => ?_, fun b hl => ?_⟩
    · rcases (hdone j s).mp hc with hc | ⟨hjd, -⟩
      · exact hnone s hc
      · refine htok (congrArg Dispatched.token (hheads d' hm ?_))
        rw [hj', ← hjd, hj]
    · have hl' := (HashMap.lookup_erase_eq d.token d'.token p.builds).symm.trans hl
      rw [if_neg htok] at hl'
      exact (hheld b hl').keeps rfl (.refl _ _)

/-! ## Up to the cancel arm -/

/-- What is said is of Jobs whose Steps are closed, and rows of Jobs that wait are as the phase
    found them. -/
structure Telling (items : List ScheduleItem) (row : EvalRow) (p : Phase) : Prop where
  looping : Looping items p
  owned : p.Owned items
  staged : Staged items p (Fresh row p) (fun _ _ => True) (fun _ => True) (fun _ => True)
  closed : ∀ j s, p.Completed j s → ∃ item ∈ items, item.jobId = j ∧ p.Ended item
  said : Said row p

/-- The conditions on the actions of a phase. -/
def Phase.FaithfulAct (p : Phase) : PhaseAct → Prop
  | .build _ a => a ≠ .fail
  | .join token => p.builds.lookup token ≠ some (.returned .err)
  | .drain token => ∀ s, p.builds.lookup token = some (.returned (.ok s)) → s = .cancelled
  | _ => True

namespace Telling

variable {items : List ScheduleItem} {row row' : EvalRow} {p p' : Phase}

theorem reorder (h : Telling items row p) {s : DagStrategy} (hs : Shuffle p.session.strategy s) :
    Telling items row (p.reorder s) := by
  refine ⟨h.looping.reorder hs, Looping.owned_reorder hs h.owned, h.staged.reorder hs,
    fun j st hc => ?_, ?_⟩
  · obtain ⟨item, hi, hj, hend⟩ := h.closed j st hc
    exact ⟨item, hi, hj, (Looping.ended_reorder hs item).mpr hend⟩
  · exact h.said.frame (fun _ _ => Iff.rfl) (fun d hd => hd) rfl rfl h.said.quiet
      fun j => Or.inl (.refl _ _)

/-- Nothing was said of a Job with an open Step. -/
theorem unsaid (h : Telling items row p) (hnd : (items.map (·.jobId)).Nodup) {item : ScheduleItem}
    (hi : item ∈ items) (hopen : ¬ p.Ended item) (s : JobStatus) : ¬ p.Completed item.jobId s := by
  intro hc
  obtain ⟨item', hi', hj, hend⟩ := h.closed _ s hc
  exact hopen (List.inj_on_of_nodup_map hnd hi' hi hj ▸ hend)

/-- An action that says nothing, spawns nothing and writes no row but running ones. -/
theorem moves (h : Telling items row p) (hloop : Looping items p') (hown : p'.Owned items)
    (hsession : p'.session = p.session) (hspecs : p'.specsById = p.specsById)
    (hbuilds : p'.builds = p.builds) (htodo : p'.pc.todo = p.pc.todo)
    (hrow : ∀ j, Keeps row row' j) : Telling items row' p' := by
  refine ⟨hloop, hown, ?_, fun j s hc => ?_,
    h.said.moves hsession hbuilds hspecs (fun x hx => htodo ▸ hx) hrow⟩
  · exact h.staged.same hsession htodo (fun item _ _ _ hw => hw.keeps hspecs (hrow _))
      (fun _ _ _ _ _ _ => trivial) (fun _ _ _ => trivial) (fun _ _ _ _ => trivial) h.looping
  · unfold Phase.Completed at hc
    rw [hsession] at hc
    obtain ⟨item, hi, hj, hend⟩ := h.closed j s hc
    refine ⟨item, hi, hj, ?_⟩
    unfold Phase.Ended at hend ⊢
    rwa [hsession]

/-- One task more: its row is as the phase found it. -/
theorem spawned (h : Telling items row p) (hnd : (items.map (·.jobId)).Nodup) {d : Dispatched}
    {s : DagStrategy} (hpc : p.pc = .spawning)
    (hd : p.session.strategy.dispatch = (some d, s)) (hp : p' = { p with
      session := p.session.record s .dispatch (.dispatched (some d))
      builds := p.builds.insert d.token .entered }) (hloop : Looping items p')
    (hown : p'.Owned items) : Telling items row p' := by
  subst hp
  have hdone : ∀ j s', Phase.Completed { p with
      session := p.session.record s .dispatch (.dispatched (some d))
      builds := p.builds.insert d.token .entered } j s' ↔ p.Completed j s' := by
    intro j s'
    simp [Phase.Completed, Session.record]
  have hended := fun item => h.looping.ended_dispatch item p.pc (p.builds.insert d.token .entered)
  simp only [hd] at hended
  refine ⟨hloop, hown, ?_, fun j s' hc => ?_, fun j s' hc => ?_, fun x hx => ?_,
    fun d' hd' j hj => ?_⟩
  · exact h.staged.spawned h.looping hnd hpc hd (fun _ _ => trivial) fun _ _ _ _ => trivial
  · obtain ⟨item, hi, hj, hend⟩ := h.closed j s' ((hdone j s').mp hc)
    exact ⟨item, hi, hj, (hended item).mpr hend⟩
  · exact h.said.told j s' ((hdone j s').mp hc)
  · exact absurd hx (by simp [hpc, LoopPc.todo])
  · rcases List.mem_append.mp hd' with hd' | hd'
    · obtain ⟨hnone, hheld⟩ := h.said.held d' hd' j hj
      refine ⟨fun s' hc => hnone s' ((hdone j s').mp hc), fun b hl => ?_⟩
      rw [HashMap.lookup_insert_eq, if_neg (h.looping.token_of_spawned hd d' hd')] at hl
      exact hheld b hl
    · obtain rfl := List.mem_singleton.mp hd'
      obtain ⟨item, hi, rfl⟩ := hloop.item_of_head (List.mem_append_right _ hd') hj
      obtain ⟨hopen, hfree⟩ := h.looping.waiting_of_spawned hnd hd hi hj
      refine ⟨fun s' hc => h.unsaid hnd hi hopen s' ((hdone _ s').mp hc), fun b hl => ?_⟩
      rw [HashMap.lookup_insert_eq, if_pos rfl, Option.some.injEq] at hl
      subst hl
      exact h.staged.waiting item hi hopen hfree

/-- One task less: its status is what its row says, and of the other Jobs that are told nothing
    was said before. -/
theorem join (h : Telling items row p) (hnd : (items.map (·.jobId)).Nodup) {d : Dispatched}
    (hd : d ∈ p.session.inFlight) {jobId : JobId} (hj : d.headJob = some jobId)
    (htodo : p.pc.todo = []) {status : JobStatus}
    (hl : p.builds.lookup d.token = some (.returned (.ok status))) (hp : p' =
      { (p.joined d.token status).2 with
        pc := .settling (Phase.effectsOf jobId status (p.joined d.token status).1) })
    (hloop : Looping items p') (hown : p'.Owned items) : Telling items row p' := by
  subst hp
  have hcomp := h.looping.completes hnd hd hj status
  have hdone := Phase.completed_joined h.looping.draining.tracks.nodup hd status
  obtain ⟨item₀, hi₀, rfl⟩ := h.looping.item_of_head hd hj
  obtain ⟨hrow, hrep⟩ := (h.said.held d hd _ hj).2 _ hl
  refine ⟨hloop, hown, ?_, fun j s hc => ?_, ?_⟩
  · exact h.staged.join h.looping hnd hd hj htodo status (fun _ _ => trivial)
      (fun _ _ _ _ => trivial) (fun _ => trivial) fun _ _ _ _ => trivial
  · rcases (hdone j s).mp hc with hc | ⟨hjd, rfl⟩
    · obtain ⟨item, hi, hij, hend⟩ := h.closed j s hc
      exact ⟨item, hi, hij, hcomp.stays item hend⟩
    · obtain ⟨item, hi, hij, hend, -⟩ := hcomp.each (.count item₀.jobId s) (by
        unfold Phase.effectsOf
        simp)
      exact ⟨item, hi, hij.trans (Option.some.inj (hj.symm.trans hjd)), hend⟩
  · refine h.said.joined h.looping.draining.tracks.nodup hd hj (fun d' hd' hj' => ?_) hrow hrep
      fun x hx => ?_
    · exact h.looping.eq_of_head hnd hd' hd hi₀ hj' hj
    · obtain ⟨item, hi, hxj, -, hopen, hkind⟩ := hcomp.each x hx
      rcases hkind with ⟨rfl, hhead⟩ | ⟨hkind, hfree⟩
      · exact (hdone _ _).mpr (Or.inr ⟨hhead, rfl⟩)
      · have hnone : ∀ s, ¬ (p.joined d.token status).2.Completed item.jobId s := by
          intro s hc
          rcases (hdone _ s).mp hc with hc | ⟨hjd, -⟩
          · exact h.unsaid hnd hi hopen s hc
          · exact hfree d hd hjd
        rcases hkind with ⟨rfl, -⟩ | rfl <;> exact hnone

theorem acts (h : Telling items row p) (hnd : (items.map (·.jobId)).Nodup) {e : EvalId}
    {a : PhaseAct} (hok : p.FaithfulAct a) (hact : PhaseActs e row p a row' p')
    (halive : p'.pc.alive = true) : Telling items row' p' := by
  have hloop := h.looping.acts hnd hact halive
  have hown := h.looping.owned_acts h.owned hact halive
  have hquiet : ∀ j, Keeps row row j := Keeps.refl row
  cases hact with
  | look hpc =>
    refine h.moves hloop hown rfl rfl rfl ?_ hquiet
    rw [hpc]
    split <;> rfl
  | noPermit hpc | wake hpc | polled hpc | permit hpc | sleep hpc | settled hpc =>
    exact h.moves hloop hown rfl rfl rfl (by rw [hpc]; rfl) hquiet
  | check hpc =>
    refine h.moves hloop hown rfl rfl rfl ?_ hquiet
    rw [hpc]
    exact Looping.afterChecks_todo p _
  | @idle s hpc hd =>
    have hended := fun item => h.looping.ended_dispatch item (.checking true) p.builds
    simp only [hd] at hended
    refine ⟨hloop, hown, h.staged.idle h.looping hpc hd rfl, fun j s' hc => ?_, ?_⟩
    · obtain ⟨item, hi, hj, hend⟩ := h.closed j s' hc
      exact ⟨item, hi, hj, (hended item).mpr hend⟩
    · exact h.said.frame (fun _ _ => Iff.rfl) (fun d hd => hd) rfl rfl (by simp [LoopPc.todo])
        fun j => Or.inl (.refl _ _)
  | spawned hpc hd => exact h.spawned hnd hpc hd rfl hloop hown
  | abort | aborted | skip | drained => exact absurd halive (by simp [LoopPc.alive])
  | @join drained token jobId spec outcome hpc ht =>
    obtain ⟨d, hd, rfl, hj, -, hstate⟩ := Phase.task_eq_some ht
    cases outcome with
    | ok status => exact h.join hnd hd hj (by rw [hpc]; rfl) hstate rfl hloop hown
    | err => exact absurd hstate hok
  | @settle x todo hpc =>
    have hmem : x ∈ p.pc.todo := by rw [hpc]; exact List.mem_cons_self
    obtain ⟨item₀, hi₀, hxj, hend⟩ := h.looping.owed x hmem
    refine ⟨hloop, hown, ?_, h.closed, ?_⟩
    · exact h.staged.settle h.looping hnd hpc (fun j hne hw => hw.keeps rfl (.apply hne _ _ _))
        (fun _ _ _ _ => trivial) (fun _ _ _ => trivial) (fun _ _ => trivial) fun _ _ => trivial
    · refine h.said.handle hmem (fun d hd hj => ?_) (fun y hy => ?_) _
      · rw [← hxj] at hj
        exact h.looping.not_ended_of_building hnd hd hi₀ hj hend
      · rw [hpc]
        exact List.mem_cons_of_mem _ hy
  | drain hpc ht =>
    rw [Phase.joined_eq] at halive
    exact absurd halive (by simp [hpc, LoopPc.alive])
  | @finish status hpc =>
    refine h.moves hloop hown rfl rfl rfl ?_ (Keeps.of_jobs (EvalRow.jobs_guardedStatus _ _))
    rw [hpc]
    split <;> rfl
  | post hpc => exact absurd halive (by simp [LoopPc.alive])
  | @build token jobId spec state state' write a ht hb =>
    obtain ⟨d₀, hd₀, rfl, hj₀, -, -⟩ := Phase.task_eq_some ht
    obtain ⟨item₀, hi₀, rfl⟩ := h.looping.item_of_head hd₀ hj₀
    refine ⟨hloop, hown, ?_, h.closed, h.said.build ht (fun d hd => ⟨fun htok => ?_, fun hj => ?_⟩)
      hb hok⟩
    · refine h.staged.same rfl rfl (fun item _ _ hfree hw => hw.keeps rfl (.write ?_ _ _))
        (fun _ _ _ _ _ _ => trivial) (fun _ _ _ => trivial) (fun _ _ _ _ => trivial) h.looping
      exact fun heq => hfree d₀ hd₀ (heq ▸ hj₀)
    · rw [h.looping.eq_of_token hd hd₀ htok, hj₀]
    · rw [h.looping.eq_of_head hnd hd hd₀ hi₀ hj hj₀]
  | dropGuard hg => exact h.moves hloop hown rfl rfl rfl rfl (Keeps.interruptIfRunning _ _)
  | supersede =>
    exact h.moves hloop hown rfl rfl rfl rfl (Keeps.of_jobs (EvalRow.jobs_guardedStatus _ _))
  | fire => exact h.moves hloop hown rfl rfl rfl rfl hquiet

end Telling

/-! ## Past it -/

/-- What holds of a phase from its start to its end. -/
def Truly (items : List ScheduleItem) (row : EvalRow) (p : Phase) : Prop :=
  (p.pc.alive = true ∧ Telling items row p) ∨ (Winding p ∧ Said row p)

/-- A phase that is winding down only completes tasks whose row is `cancelled`. -/
theorem Said.winding {row row' : EvalRow} {p p' : Phase} (h : Said row p) (hw : Winding p)
    {e : EvalId} {a : PhaseAct} (hok : p.FaithfulAct a) (hact : PhaseActs e row p a row' p') :
    Said row' p' := by
  have hpc := hw.pc
  have hquiet : ∀ j, Keeps row row j := Keeps.refl row
  cases hact with
  | look hp | noPermit hp | idle hp | spawned hp | check hp | wake hp | abort hp | polled hp
  | join hp | permit hp | sleep hp | settled hp | settle hp | post hp =>
    rw [hp] at hpc
    exact absurd hpc (by simp [LoopPc.winding])
  | aborted | drained => exact h.moves rfl rfl rfl (by simp [LoopPc.todo]) hquiet
  | @skip x todo hp =>
    have hmem : x ∈ p.pc.todo := by rw [hp]; exact List.mem_cons_self
    refine h.handle hmem (hw.apart x hmem) (fun y hy => ?_) _
    rw [hp]
    exact List.mem_cons_of_mem _ hy
  | @drain token jobId spec outcome hp ht =>
    obtain ⟨d, hd, rfl, hj, -, hstate⟩ := Phase.task_eq_some ht
    have hheld := (h.held d hd jobId hj).2 _ hstate
    have hrow : row.jobStatus jobId = some .cancelled := by
      cases outcome with
      | ok status =>
        obtain rfl : status = .cancelled := hok status hstate
        exact hheld.1
      | err => exact hheld
    have hsaid : Said row { (p.joined d.token .cancelled).2 with pc := p.pc } :=
      h.joined hw.tokens hd hj (fun d' hd' hj' => hw.heads d' hd' d hd (hj'.trans hj.symm)) hrow
        (by decide) (by simp [hp, LoopPc.todo])
    exact hsaid
  | @finish status hp =>
    refine h.moves rfl rfl rfl (fun x hx => ?_) (Keeps.of_jobs (EvalRow.jobs_guardedStatus _ _))
    split at hx <;> exact absurd hx (by simp [LoopPc.todo])
  | build ht hb => exact h.build ht (fun d hd => hw.task ht hd) hb hok
  | dropGuard => exact h.moves rfl rfl rfl (fun x hx => hx) (Keeps.interruptIfRunning _ _)
  | supersede =>
    exact h.moves rfl rfl rfl (fun x hx => hx) (Keeps.of_jobs (EvalRow.jobs_guardedStatus _ _))
  | fire => exact h.moves rfl rfl rfl (fun x hx => hx) hquiet

/-- Nothing was said of a Job that the cancel arm tells. -/
theorem Telling.abort {items : List ScheduleItem} {row : EvalRow} {p : Phase}
    (h : Telling items row p) (hnd : (items.map (·.jobId)).Nodup) {e : EvalId}
    (hev : ∀ item ∈ items, item.evalId = e) {p' : Phase} (hp : p' = { p with
      session := p.session.record (p.session.strategy.cancelEval e).2 (.cancelEval e)
        (.cancelled (p.session.strategy.cancelEval e).1)
      pc := .aborting ((p.session.strategy.cancelEval e).1.map fun skip => .skip skip.jobId) }) :
    Winding p' ∧ Said row p' := by
  subst hp
  refine ⟨.start h.looping hnd rfl rfl fun x hx d hd => ?_, ?_⟩
  · obtain ⟨item, -, rfl, -, hfree⟩ := h.looping.told_of_abort hnd h.owned hev hx
    exact hfree d hd
  · refine h.said.frame (fun j s => ?_) (fun d hd => hd) rfl rfl (fun x hx => ?_)
      fun j => Or.inl (.refl _ _)
    · simp [Phase.Completed, Session.record]
    · obtain ⟨item, hi, rfl, hopen, -⟩ := h.looping.told_of_abort hnd h.owned hev hx
      exact h.unsaid hnd hi hopen

namespace Truly

variable {items : List ScheduleItem} {row row' : EvalRow} {p p' : Phase} {e : EvalId}
  {a : PhaseAct}

theorem said (h : Truly items row p) : Said row p :=
  h.elim (fun h => h.2.said) And.right

theorem step (h : Truly items row p) (hnd : (items.map (·.jobId)).Nodup)
    (hev : ∀ item ∈ items, item.evalId = e) (hok : p.FaithfulAct a)
    (hs : PhaseStep e row p a row' p') : Truly items row' p' := by
  obtain ⟨s, hshuffle, hact⟩ := hs.acts
  rcases h with ⟨hwas, h⟩ | ⟨hw, hsaid⟩
  · have hre := h.reorder hshuffle
    cases halive : p'.pc.alive with
    | true => exact Or.inl ⟨halive, hre.acts hnd hok hact halive⟩
    | false =>
      refine Or.inr ?_
      rcases Looping.dies hact hwas halive with ⟨rfl, -, -, -, hp'⟩ | ⟨rfl, -, hp'⟩
      · exact hre.abort hnd hev hp'
      · subst hp'
        refine ⟨.start hre.looping hnd rfl rfl (by simp [LoopPc.todo]), ?_⟩
        exact hre.said.moves rfl rfl rfl (by simp [LoopPc.todo]) (Keeps.refl _)
  · have hre : Said row (p.reorder s) := hsaid.frame (fun _ _ => Iff.rfl) (fun d hd => hd) rfl rfl
      hsaid.quiet fun j => Or.inl (.refl _ _)
    exact Or.inr ⟨(hw.reorder s).acts hact, hre.winding (hw.reorder s) hok hact⟩

theorem run {row₀ : EvalRow} {p₀ : Phase} (h : Truly items row₀ p₀)
    (hnd : (items.map (·.jobId)).Nodup) (hev : ∀ item ∈ items, item.evalId = e)
    (hrun : PhaseRun Phase.FaithfulAct e row₀ p₀ row p) : Truly items row p := by
  induction hrun with
  | refl => exact h
  | step _ hok hs ih => exact ih.step hnd hev hok hs

end Truly

/-! ## Whole runs -/

/-- The rows a phase is handed: open, or failed because of an eval error. -/
def Faithful (row : EvalRow) (persisted : Persisted) : Prop :=
  ∀ q ∈ persisted, q.1.drvPath.isSome = true →
    (q.1.error = none ∧ OpenRow row q.2) ∨
      (q.1.error.isSome = true ∧ row.jobStatus q.2 = some .failure)

instance (row : EvalRow) (persisted : Persisted) : Decidable (Faithful row persisted) :=
  inferInstanceAs (Decidable (∀ q ∈ persisted, _))

theorem Truly.start {row : EvalRow} {persisted : Persisted} {walk : ClosureWalk} {repoId : RepoId}
    {e : EvalId} {s : DagStrategy} (hk : walk.Keyed)
    (henq : Enqueued none (scheduleItems walk repoId e persisted) s)
    (hids : (persisted.map Prod.snd).Nodup) (hrows : Faithful row persisted) (cancel : Bool) :
    Truly (scheduleItems walk repoId e persisted) row (Phase.start persisted s cancel) := by
  have hnd := nodup_scheduleItems walk repoId e hids
  have hnone : ∀ j s', ¬ (Phase.start persisted s cancel).Completed j s' := by
    rintro j s' ⟨d, hm, -⟩
    exact absurd hm (by simp [Phase.start, Session.start])
  have hflight : ∀ d, d ∉ (Phase.start persisted s cancel).session.inFlight := by
    intro d hd
    exact absurd hd (by simp [Phase.start, Session.start])
  refine Or.inl ⟨rfl, ?_, Looping.owned_start henq persisted cancel, ?_, ?_, ?_⟩
  · exact .start henq (flat_scheduleItems hk repoId e persisted) hnd persisted cancel
  · refine ⟨fun item hi _ _ => ?_, fun _ _ _ _ _ => trivial, fun _ _ => Or.inl trivial,
      fun _ _ _ => Or.inr trivial⟩
    obtain ⟨q, hq, hj, hd⟩ := mem_scheduleItems hi
    rw [← hj]
    exact ⟨q.1, specOf_start hids hq s cancel, hrows q hq (by rw [hd]; rfl)⟩
  · exact fun j s' hc => absurd hc (hnone j s')
  · exact ⟨fun j s' hc => absurd hc (hnone j s'),
      fun x hx => absurd hx (by simp [Phase.start, LoopPc.todo]),
      fun d hd => absurd hd (hflight d)⟩

/-- **When the report is faithful.** No task dies; no error is joined; and what the cancel arm
    drains was cancelled. -/
def FaithfulWhen (q : PoolPhase) : PoolAct → Prop
  | .loop a => q.phase.FaithfulAct a
  | .task _ a => a ≠ .fail

instance (p : Phase) (a : PhaseAct) : Decidable (p.FaithfulAct a) :=
  match a with
  | .build _ a => inferInstanceAs (Decidable (a ≠ .fail))
  | .join token => inferInstanceAs (Decidable (p.builds.lookup token ≠ some (.returned .err)))
  | .drain token =>
    match h : p.builds.lookup token with
    | some (.returned (.ok s)) => decidable_of_iff (s = .cancelled) (by simp [Phase.FaithfulAct, h])
    | none | some .entered | some .armed | some .dispatched | some (.returned .err) =>
      isTrue (by simp [Phase.FaithfulAct, h])
  | .look | .noPermit | .dispatch | .check | .wake | .pollCancel | .permit | .sleep | .handle
  | .drained | .finish | .post | .dropGuard _ | .supersede | .fire => isTrue trivial

instance (q : PoolPhase) (a : PoolAct) : Decidable (FaithfulWhen q a) :=
  match a with
  | .loop a => inferInstanceAs (Decidable (q.phase.FaithfulAct a))
  | .task _ a => inferInstanceAs (Decidable (a ≠ .fail))

theorem lifts_faithfulWhen : PoolAct.Lifts FaithfulWhen Phase.FaithfulAct :=
  fun _ _ => ⟨id, fun _ _ _ hfail hok hd => hok (hfail hd)⟩

/-- **What a phase reports of a Job is what its row says**, from the report to the end of the
    phase, in every run of a phase with its tasks whose actions all meet the condition. -/
theorem reports_eq_row (builderWait : Bool) (e : EvalId) (persisted : Persisted) (s : DagStrategy)
    (cancel : Bool) (row₀ row : EvalRow) (q : PoolPhase) (hopening : Opening e persisted s)
    (hrows : Faithful row₀ persisted)
    (hrun : PoolRun FaithfulWhen builderWait e row₀ (.start persisted s cancel) row q) :
    ∀ j status, q.phase.Reports j status → row.jobStatus j = some status := by
  obtain ⟨walk, repoId, hk, henq⟩ := hopening.loaded
  have hnd := nodup_scheduleItems walk repoId e hopening.ids
  have hphase := hrun.phaseRun lifts_faithfulWhen (PoolPhase.seen_start _ _ _)
  have htruly := (Truly.start hk henq hopening.ids hrows cancel).run hnd
    (fun _ hi => evalId_scheduleItems hi) hphase.1
  exact fun j status hr => htruly.said.reports hr

def twoSystems : Persisted :=
  [({ specOf "a" with system := some "x86_64-linux" }, ⟨1⟩),
    ({ specOf "b" with system := some "x86_64-linux" }, ⟨2⟩)]

def twoQueued : EvalRow :=
  ((EvalRow.create ⟨1⟩).createJob ⟨1⟩ "a" (some "a") "x86_64-linux").createJob ⟨2⟩ "b" (some "b")
    "x86_64-linux"

def twoLoaded : DagStrategy := load none (scheduleItems noWalk ⟨1⟩ ⟨1⟩ twoSystems)

theorem opening_two : Opening ⟨1⟩ twoSystems twoLoaded :=
  ⟨by decide, noWalk, ⟨1⟩, fun _ _ hl => absurd hl (by simp [noWalk]), enqueued_load none _⟩

/-- A task takes a slot, finds a builder and sends it the closure and the build. -/
def toBuilder (token : DispatchToken) (connection : ℕ) : List PoolAct :=
  [.slot, .pick connection, .dispatch, .copied .done, .sent true].map (.task token)

/-- The loop joins a task that has returned and counts it. -/
def joinAndCount (token : DispatchToken) : List PoolAct :=
  [.pollCancel, .join token, .handle, .handle, .look, .dispatch, .check].map .loop

/-- The builder is lost, and the attempt with it. -/
def losesBuilder (token : DispatchToken) : List PoolAct :=
  [.task token (.event none), .task token .logWritten]

/-- The builder reports the end of the build, and the task returns. -/
def finishes (token : DispatchToken) (status : BuildOutcomeStatus) : List PoolAct :=
  [.task token (.event (some (.finished status []))), .task token .logWritten,
    .task token .record]

def spawnTwo : List PoolAct := (spawnTasks 2).map PoolAct.loop

/-- A newer push comes in while every builder of the task is busy. -/
def cancelledWaiting (token : DispatchToken) : List PoolAct :=
  [.task token .arm, .task token .slot, .task token .busy, .loop .pollCancel, .loop .supersede,
    .loop .fire, .task token .seeCancel, .loop (.join token), .loop .handle, .loop .handle,
    .loop .look, .loop .check]

def finishAndPost : List PoolAct := [.loop .finish, .loop .post]

/-- Job 1 is built after a builder was lost, Job 2 is cancelled. -/
def builtAndCancelled : List PoolAct :=
  spawnTwo ++ .task ⟨0⟩ .arm :: toBuilder ⟨0⟩ 1 ++ losesBuilder ⟨0⟩ ++ toBuilder ⟨0⟩ 2 ++
    finishes ⟨0⟩ .success ++ joinAndCount ⟨0⟩ ++ cancelledWaiting ⟨1⟩ ++ finishAndPost

theorem builtAndCancelled_reports :
    ((PoolPhase.start twoSystems twoLoaded false).script FaithfulWhen true ⟨1⟩ twoQueued
        builtAndCancelled).map (fun r => (r.2.phase.pc,
          (decide (r.2.phase.Reports ⟨1⟩ .success), decide (r.2.phase.Reports ⟨2⟩ .cancelled))))
      = some (.ended, true, true) := by
  decide

theorem reports_eq_row_built_and_cancelled : ∃ row q,
    PoolRun FaithfulWhen true ⟨1⟩ twoQueued (.start twoSystems twoLoaded false) row q ∧
      q.phase.pc = .ended ∧ q.phase.Reports ⟨1⟩ .success ∧ q.phase.Reports ⟨2⟩ .cancelled ∧
      row.jobStatus ⟨1⟩ = some .success ∧ row.jobStatus ⟨2⟩ = some .cancelled := by
  obtain ⟨⟨row, q⟩, hscript, hq⟩ := Option.map_eq_some_iff.mp builtAndCancelled_reports
  obtain ⟨hpc, hone, htwo⟩ : q.phase.pc = .ended ∧ q.phase.Reports ⟨1⟩ .success ∧
      q.phase.Reports ⟨2⟩ .cancelled := by simpa using hq
  have hrun := PoolRun.of_script hscript
  have heq := reports_eq_row true ⟨1⟩ twoSystems twoLoaded false twoQueued row q opening_two
    (by decide) hrun
  exact ⟨row, q, hrun, hpc, hone, htwo, heq _ _ hone, heq _ _ htwo⟩

/-! ## An agent that reports `Killed` -/

/-- The store works and no task panics. -/
def NoTaskDies (_ : PoolPhase) : PoolAct → Prop
  | .loop _ => True
  | .task _ a => a ≠ .fail

instance (q : PoolPhase) (a : PoolAct) : Decidable (NoTaskDies q a) :=
  match a with
  | .loop _ => isTrue trivial
  | .task _ a => inferInstanceAs (Decidable (a ≠ .fail))

/-- Nobody cancels anything; the builder of Job 1 reports `Killed`. -/
def killedByAgent : List PoolAct :=
  spawnTwo ++ .task ⟨0⟩ .arm :: toBuilder ⟨0⟩ 1 ++ finishes ⟨0⟩ .killed ++ joinAndCount ⟨0⟩ ++
    .task ⟨1⟩ .arm :: toBuilder ⟨1⟩ 1 ++ finishes ⟨1⟩ .success ++ joinAndCount ⟨1⟩ ++ finishAndPost

theorem killedByAgent_reports :
    ((PoolPhase.start twoSystems twoLoaded false).script NoTaskDies true ⟨1⟩ twoQueued
        killedByAgent).map (fun r => (r.2.phase.pc, r.2.phase.cancel,
          decide (r.2.phase.Reports ⟨1⟩ .failure), r.1.jobStatus ⟨1⟩))
      = some (.ended, false, true, some .cancelled) := by
  rfl

theorem not_reports_eq_row_killed :
    ¬ ∀ (builderWait : Bool) (e : EvalId) (persisted : Persisted) (s : DagStrategy)
      (cancel : Bool) (row₀ row : EvalRow) (q : PoolPhase), Opening e persisted s →
      Faithful row₀ persisted →
      PoolRun NoTaskDies builderWait e row₀ (.start persisted s cancel) row q →
      q.phase.pc = .ended →
        ∀ j status, q.phase.Reports j status → row.jobStatus j = some status := by
  intro h
  obtain ⟨⟨row, q⟩, hscript, hq⟩ := Option.map_eq_some_iff.mp killedByAgent_reports
  obtain ⟨hpc, -, hrep, hrow⟩ : q.phase.pc = .ended ∧ q.phase.cancel = false ∧
      q.phase.Reports ⟨1⟩ .failure ∧ row.jobStatus ⟨1⟩ = some .cancelled := by simpa using hq
  have heq := h true ⟨1⟩ twoSystems twoLoaded false twoQueued row q opening_two (by decide)
    (PoolRun.of_script hscript) hpc ⟨1⟩ .failure hrep
  exact absurd (hrow.symm.trans heq) (by simp)

end Argunix.Daemon
