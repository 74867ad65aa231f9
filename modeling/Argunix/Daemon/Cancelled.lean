import Argunix.Daemon.Reported

/-!
# Does a cancelled phase leave anything open?

The token can be seen in three places. The cancel arm of the `select!` is the one that was written
for it: the rows of Jobs that wait are written, the tasks drain, and the evaluation is finished as
cancelled. The spawn gate only skips a pass. The exit with an empty set leaves the loop, and below
the loop there is one finish: `done`, with a final check from the tally.

So the phase ends cancelled, and with no row open, as long as

* the exits are not tested with an empty set once the token has fired: before the first dispatch,
  while the loop waits for a permit, and after the last join of a poll that came before the token,
  they lead to `finish(Done)`;
* no Step that is being built has a second Job when the cancel arm is taken: the drain discards the
  effects of its completions, and the aliases are among them;
* no build task dies before it has written its row.

`CancelsWhen` states these conditions. `cancelled_closes` is the theorem; `not_cancelled_closes`
is a run in which a push is superseded before the first dispatch and the check is green.
-/

set_option autoImplicit false

namespace Argunix.Daemon

open Argunix.Lib Argunix.Sched Argunix.Sched.DagStrategy Argunix.Eval Argunix.Store

/-! ## Closed rows -/

/-- Neither queued nor running. -/
def ClosedRow (row : EvalRow) (j : JobId) : Prop :=
  row.jobStatus j ≠ some .queued ∧ row.jobStatus j ≠ some .running

instance (row : EvalRow) (j : JobId) : Decidable (ClosedRow row j) :=
  inferInstanceAs (Decidable (_ ∧ _))

theorem closedRow_of_status {row : EvalRow} {j : JobId} {s : JobStatus}
    (h : row.jobStatus j = some s) (hs : s ∈ reportable) : ClosedRow row j := by
  unfold ClosedRow
  rw [h]
  cases s with
  | queued | running => exact absurd hs (by decide)
  | success | cached | failure | interrupted | cancelled | skippedNoBuilder =>
    exact ⟨by simp, by simp⟩

namespace ClosedRow

variable {row row' : EvalRow} {j j₀ : JobId} {status : JobStatus}

theorem congr (h : ClosedRow row j) (heq : row'.jobStatus j = row.jobStatus j) :
    ClosedRow row' j := by
  unfold ClosedRow
  rwa [heq]

theorem of_jobs (h : ClosedRow row j) (heq : row'.jobs = row.jobs) : ClosedRow row' j :=
  h.congr (by simp [EvalRow.jobStatus, heq])

theorem of_ne (h : ClosedRow row j) (hne : j ≠ j₀) (f : JobStatus → JobStatus) :
    ClosedRow (row.updateJob j₀ f) j :=
  h.congr (by rw [EvalRow.jobStatus_updateJob, if_neg hne])

/-- A task leaves the rows of other Jobs alone. -/
theorem write (h : ClosedRow row j) (hne : j ≠ j₀) (write : Option RowWrite) :
    ClosedRow ((write.map (RowWrite.apply j₀ row)).getD row) j := by
  cases write with
  | none => exact h
  | some r => cases r <;> exact h.of_ne hne _

/-- A verdict closes the row, also where one is there already. -/
theorem finishJob (row : EvalRow) (j : JobId) (hs : status ∈ reportable) :
    ClosedRow (row.finishJob j status) j := by
  have hrow : (row.finishJob j status).jobStatus j =
      (row.jobStatus j).map (firstVerdict status) := by
    rw [EvalRow.finishJob, EvalRow.jobStatus_updateJob, if_pos rfl]
  cases hold : row.jobStatus j with
  | none =>
    unfold ClosedRow
    rw [hrow, hold]
    exact ⟨by simp, by simp⟩
  | some s =>
    rw [hold, Option.map_some] at hrow
    cases ht : s.isTerminal with
    | true =>
      rw [firstVerdict_of_terminal ht] at hrow
      unfold ClosedRow
      rw [hrow]
      refine ⟨?_, ?_⟩ <;> (intro heq; rw [Option.some.inj heq] at ht; exact absurd ht (by decide))
    | false =>
      rw [firstVerdict_of_open ht] at hrow
      exact closedRow_of_status hrow hs

theorem finishJob_of (h : ClosedRow row j) (hs : status ∈ reportable) :
    ClosedRow (row.finishJob j₀ status) j := by
  by_cases hj : j = j₀
  · subst hj
    exact finishJob row j hs
  · exact h.of_ne hj _

/-- A dropped guard closes a row at most. -/
theorem interruptIfRunning (h : ClosedRow row j) (j₀ : JobId) :
    ClosedRow (row.interruptIfRunning j₀) j := by
  refine h.congr ?_
  rw [EvalRow.interruptIfRunning, EvalRow.jobStatus_updateJob]
  split
  · rename_i hj
    rw [← hj]
    cases hs : row.jobStatus j with
    | none => rfl
    | some s =>
      have hne : s ≠ .running := fun heq => h.2 (by rw [hs, heq])
      rw [Option.map_some, if_neg hne]
  · rfl

end ClosedRow

/-! ## What is still to be closed, and by whom -/

/-- An eval error has closed the row. -/
def Rejects (row : EvalRow) (p : Phase) (j : JobId) : Prop :=
  ∀ spec, p.specOf j = some spec → spec.error.isSome = true → ClosedRow row j

/-- The task closes the row before it returns. -/
def Closes (row : EvalRow) (p : Phase) (j : JobId) : BuildState → Prop
  | .entered => Rejects row p j
  | .armed | .dispatched => True
  | .returned outcome => ClosedRow row j ∧ outcome.finalStatus ∈ reportable

/-- What is about to be written closes its row; the row that is counted is closed. -/
def WillClose (row : EvalRow) : Effect → Prop
  | .skip _ | .mirror .. => True
  | .count j _ => ClosedRow row j

namespace Closes

variable {row row' : EvalRow} {p p' : Phase} {j : JobId} {b : BuildState}

theorem mono (h : Closes row p j b) (hspecs : p'.specsById = p.specsById)
    (hrow : ClosedRow row j → ClosedRow row' j) : Closes row' p' j b := by
  cases b with
  | entered =>
    intro spec hspec herr
    unfold Phase.specOf at hspec
    rw [hspecs] at hspec
    exact hrow (h spec hspec herr)
  | armed | dispatched => trivial
  | returned outcome => exact ⟨hrow h.1, h.2⟩

/-- **A task that does not die closes its row before it returns.** -/
theorem built {cancel : Bool} {spec : JobSpec} {state state' : BuildState} {a : BuildAct}
    {write : Option RowWrite} (h : Closes row p j state) (hspec : p.specOf j = some spec)
    (hb : buildOne cancel spec state a = some (state', write)) (hfail : a ≠ .fail) :
    Closes ((write.map (RowWrite.apply j row)).getD row) p j state' := by
  cases buildOne_built hb with
  | arm | dispatch => trivial
  | rejected herr => exact ⟨h spec hspec herr, by decide⟩
  | reported hret herr hrep _ => exact ⟨ClosedRow.finishJob row j hrep, hrep⟩
  | killed => exact ⟨ClosedRow.finishJob row j (by decide), by decide⟩
  | failed hret => exact absurd (eq_fail_of_unwritten hb) hfail

end Closes

/-- `handle` closes the row of its Job and reopens none. -/
theorem Effect.apply_closes (x : Effect) (row : EvalRow) (tally : JobTally)
    (hmirror : ∀ j status, x = .mirror j status → status ∈ reportable) :
    (WillClose row x → ClosedRow (x.apply true row tally).1 x.jobId) ∧
      ∀ j, ClosedRow row j → ClosedRow (x.apply true row tally).1 j := by
  cases x with
  | skip j₀ =>
    exact ⟨fun _ => .finishJob row j₀ (by decide), fun j h => h.finishJob_of (by decide)⟩
  | mirror j₀ status =>
    have hrep := hmirror j₀ status rfl
    exact ⟨fun _ => .finishJob row j₀ hrep, fun j h => h.finishJob_of hrep⟩
  | count j₀ status => exact ⟨fun hx => hx, fun j h => h⟩

/-! ## Up to the exits -/

/-- Two Jobs have the derivation of this dispatch. -/
def Phase.Aliased (p : Phase) (d : Dispatched) : Prop :=
  ∃ q ∈ p.specsById, ∃ q' ∈ p.specsById,
    q.2 ≠ q'.2 ∧ q.1.drvPath = some d.drvPath ∧ q'.1.drvPath = some d.drvPath

instance (p : Phase) (d : Dispatched) : Decidable (p.Aliased d) :=
  inferInstanceAs (Decidable (∃ q ∈ p.specsById, ∃ q' ∈ p.specsById, _))

/-- The conditions on the actions of a phase. -/
def Phase.CancelAct (p : Phase) : PhaseAct → Prop
  | .check => p.cancel = true → p.session.inFlight ≠ []
  | .pollCancel => p.cancel = true → ∀ d ∈ p.session.inFlight, ¬ p.Aliased d
  | .build _ a => a ≠ .fail
  | _ => True

/-- The loop is at work: rows are closed stage by stage. -/
structure Working (items : List ScheduleItem) (row : EvalRow) (p : Phase) : Prop where
  alive : p.pc.alive = true
  staying : p.pc.leaving = false
  looping : Looping items p
  owned : p.Owned items
  handed : ∀ item ∈ items, ∃ q ∈ p.specsById, q.2 = item.jobId ∧
    q.1.drvPath = some item.headDrv.drvPath
  staged : Staged items p (Rejects row p)
    (fun j d => ∀ b, p.builds.lookup d.token = some b → Closes row p j b) (WillClose row)
    (ClosedRow row)
  mirrors : ∀ j status, Effect.mirror j status ∈ p.pc.todo → status ∈ reportable
  outside : ∀ j, (∀ item ∈ items, item.jobId ≠ j) → ClosedRow row j
  silent : p.posted = none

/-- The loop was left with every row closed. -/
structure Left (row : EvalRow) (p : Phase) : Prop where
  pc : p.pc = .finishing .done ∨ p.pc = .posting ∨ p.pc = .ended
  idle : p.session.inFlight = []
  closed : ∀ j, ClosedRow row j

/-- The evaluation was cancelled: every row is closed, or about to be written, or has a task that
    closes it. -/
structure Closing (row : EvalRow) (p : Phase) : Prop where
  winding : Winding p
  known : ∀ x ∈ p.pc.todo, p.knows x.jobId = true ∧ x = .skip x.jobId
  covered : ∀ j, ClosedRow row j ∨ (∃ x ∈ p.pc.todo, x.jobId = j) ∨
    ∃ d ∈ p.session.inFlight, d.headJob = some j
  tasks : ∀ d ∈ p.session.inFlight, ∀ j, d.headJob = some j →
    ∀ b, p.builds.lookup d.token = some b → Closes row p j b
  quiet : p.Quiet
  wrote : p.pc = .ended → p.wrote = some .cancelled
  silent : p.posted = none

namespace Working

variable {items : List ScheduleItem} {row row' : EvalRow} {p p' : Phase}

theorem reorder (h : Working items row p) {s : DagStrategy} (hs : Shuffle p.session.strategy s) :
    Working items row (p.reorder s) :=
  ⟨h.alive, h.staying, h.looping.reorder hs, Looping.owned_reorder hs h.owned, h.handed,
    h.staged.reorder hs, h.mirrors, h.outside, h.silent⟩

theorem knows (h : Working items row p) {item : ScheduleItem} (hi : item ∈ items) :
    p.knows item.jobId = true := by
  obtain ⟨q, hq, hj, -⟩ := h.handed item hi
  exact List.any_eq_true.mpr ⟨q, hq, by simpa using hj⟩

/-- An action that spawns, joins and writes nothing, and reopens no row. -/
theorem moves (h : Working items row p) (halive : p'.pc.alive = true)
    (hstay : p'.pc.leaving = false) (hloop : Looping items p') (hown : p'.Owned items)
    (hsession : p'.session = p.session) (hspecs : p'.specsById = p.specsById)
    (hbuilds : p'.builds = p.builds) (htodo : p'.pc.todo = p.pc.todo)
    (hposted : p'.posted = p.posted) (hrow : ∀ j, ClosedRow row j → ClosedRow row' j) :
    Working items row' p' := by
  refine ⟨halive, hstay, hloop, hown, hspecs ▸ h.handed, ?_, htodo ▸ h.mirrors,
    fun j hj => hrow j (h.outside j hj), hposted.trans h.silent⟩
  refine h.staged.same hsession htodo (fun item _ _ _ hw spec hspec herr => ?_)
    (fun item _ d _ _ hb b hl => ?_) (fun x _ hx => ?_) (fun item _ _ hv => hrow _ hv) h.looping
  · unfold Phase.specOf at hspec
    rw [hspecs] at hspec
    exact hrow _ (hw spec hspec herr)
  · exact (hb b (hbuilds ▸ hl)).mono hspecs (hrow _)
  · cases x with
    | skip | mirror => trivial
    | count j status => exact hrow j hx

/-- A task acts on a row of its own. -/
theorem build (h : Working items row p) (hnd : (items.map (·.jobId)).Nodup)
    {token : DispatchToken} {jobId : JobId} {spec : JobSpec} {state state' : BuildState}
    {write : Option RowWrite} {a : BuildAct} {guards : List JobId}
    (ht : p.task token = some (jobId, spec, state))
    (hb : buildOne p.cancel spec state a = some (state', write)) (hfail : a ≠ .fail)
    (hp : p' = { p with builds := p.builds.insert token state', guards := guards })
    (hloop : Looping items p') :
    Working items ((write.map (RowWrite.apply jobId row)).getD row) p' := by
  subst hp
  obtain ⟨d, hd, rfl, hj, hspec, hstate⟩ := Phase.task_eq_some ht
  obtain ⟨item₀, hi₀, rfl⟩ := h.looping.item_of_head hd hj
  have hcloses := h.staged.building item₀ hi₀ d hd hj state hstate
  have hrow : ∀ j, j ≠ item₀.jobId → ClosedRow row j →
      ClosedRow ((write.map (RowWrite.apply item₀.jobId row)).getD row) j :=
    fun j hne hc => hc.write hne write
  have hended : ∀ item ∈ items, p.Ended item → item.jobId ≠ item₀.jobId := by
    intro item hi hend heq
    exact h.looping.not_ended_of_building hnd hd hi (heq ▸ hj) hend
  refine ⟨h.alive, h.staying, hloop, h.owned, h.handed, ?_, h.mirrors,
    fun j hj' => hrow j (fun heq => hj' item₀ hi₀ heq.symm) (h.outside j hj'), h.silent⟩
  refine h.staged.same rfl rfl (fun item hi _ hfree hw spec' hspec' herr => ?_)
    (fun item hi d' hd' hj' hpur b hl => ?_) (fun x hx hdue => ?_)
    (fun item hi hend hv => hrow _ (hended item hi hend) hv) h.looping
  · exact hrow _ (fun heq => hfree d hd (heq ▸ hj)) (hw spec' hspec' herr)
  · rw [HashMap.lookup_insert_eq] at hl
    split at hl
    · rename_i htok
      obtain rfl := h.looping.eq_of_token hd' hd htok
      rw [← Option.some.inj hl, ← Option.some.inj (hj.symm.trans hj')]
      exact hcloses.built hspec hb hfail
    · rename_i htok
      refine (hpur b hl).mono rfl (hrow _ fun heq => htok ?_)
      exact congrArg Dispatched.token (h.looping.eq_of_head hnd hd' hd hi hj' (heq ▸ hj))
  · obtain ⟨item, hi, hxj, hend⟩ := h.looping.owed x hx
    cases x with
    | skip | mirror => trivial
    | count j status =>
      obtain rfl : item.jobId = j := hxj
      exact hrow _ (hended item hi hend) hdue

/-- One action after which the loop is still at work. -/
theorem acts (h : Working items row p) (hnd : (items.map (·.jobId)).Nodup) {e : EvalId}
    {a : PhaseAct} (hok : p.CancelAct a) (hact : PhaseActs e row p a row' p')
    (halive : p'.pc.alive = true) (hstay : p'.pc.leaving = false) : Working items row' p' := by
  have hloop := h.looping.acts hnd hact halive
  have hown := h.looping.owned_acts h.owned hact halive
  have hwas := h.staying
  cases hact with
  | look hpc =>
    refine h.moves halive hstay hloop hown rfl rfl rfl ?_ rfl fun j hc => hc
    rw [hpc]
    split <;> rfl
  | noPermit hpc | wake hpc | polled hpc | permit hpc | sleep hpc | settled hpc =>
    exact h.moves halive hstay hloop hown rfl rfl rfl (by rw [hpc]; rfl) rfl fun j hc => hc
  | check hpc =>
    refine h.moves halive hstay hloop hown rfl rfl rfl ?_ rfl fun j hc => hc
    rw [hpc]
    exact Looping.afterChecks_todo p _
  | idle hpc hd =>
    exact ⟨halive, hstay, hloop, hown, h.handed, h.staged.idle h.looping hpc hd rfl,
      by simp [LoopPc.todo], h.outside, h.silent⟩
  | @spawned d s hpc hd =>
    refine ⟨halive, hstay, hloop, hown, h.handed, ?_, h.mirrors, h.outside, h.silent⟩
    refine h.staged.spawned h.looping hnd hpc hd (fun j hw b hl => ?_) fun j d' hne hb b hl => ?_
    · rw [HashMap.lookup_insert_eq, if_pos rfl, Option.some.injEq] at hl
      subst hl
      exact hw
    · rw [HashMap.lookup_insert_eq, if_neg hne] at hl
      exact hb b hl
  | abort | aborted | skip | drained | post => exact absurd halive (by simp [LoopPc.alive])
  | @join drained token jobId spec outcome hpc ht =>
    obtain ⟨d, hd, rfl, hj, -, hstate⟩ := Phase.task_eq_some ht
    obtain ⟨item₀, hi₀, hij⟩ := h.looping.item_of_head hd hj
    have hret := h.staged.building item₀ hi₀ d hd (hij ▸ hj) _ hstate
    refine ⟨halive, hstay, hloop, hown, h.handed, ?_, fun j status hx => ?_, h.outside, h.silent⟩
    · refine h.staged.join h.looping hnd hd hj (by rw [hpc]; rfl) outcome.finalStatus
        (fun _ _ => trivial) (fun _ _ _ _ => trivial) (fun hb => (hb _ hstate).1)
        fun j d' hne hb b hl => ?_
      rw [Phase.joined_eq] at hl
      have hl' := (HashMap.lookup_erase_eq d.token d'.token p.builds).symm.trans hl
      rw [if_neg hne] at hl'
      exact hb b hl'
    · -- an alias gets the status its primary has returned
      obtain ⟨item, -, -, -, -, hkind⟩ := (h.looping.completes hnd hd hj _).each _ hx
      rcases hkind with ⟨heq, -⟩ | ⟨⟨heq, -⟩ | heq, -⟩
      · exact absurd heq (by simp)
      · rw [(Effect.mirror.inj heq).2]
        exact hret.2
      · exact absurd heq (by simp)
  | @settle x todo hpc =>
    have hmem : x ∈ p.pc.todo := by rw [hpc]; exact List.mem_cons_self
    have hsub : ∀ y ∈ todo, y ∈ p.pc.todo := by
      intro y hy
      rw [hpc]
      exact List.mem_cons_of_mem _ hy
    obtain ⟨item₀, hi₀, hxj, -⟩ := h.looping.owed x hmem
    obtain ⟨hx, hmono⟩ := x.apply_closes row p.tally fun j status heq =>
      h.mirrors j status (heq ▸ hmem)
    rw [← hxj, h.knows hi₀] at hloop ⊢
    refine ⟨halive, hstay, hloop, hown, h.handed, ?_,
      fun j status hy => h.mirrors j status (hsub _ hy),
      fun j hj => hmono j (h.outside j hj), h.silent⟩
    refine h.staged.settle h.looping hnd hpc (fun j hne hw spec hspec herr => ?_)
      (fun j d hne hb b hl => (hb b hl).mono rfl (hmono j)) (fun y hne hy => ?_) (fun _ => hx) hmono
    · exact hmono j (hw spec hspec herr)
    · cases y with
      | skip | mirror => trivial
      | count j status => exact hmono j hy
  | drain hpc ht =>
    rw [Phase.joined_eq] at halive
    exact absurd halive (by simp [hpc, LoopPc.alive])
  | finish hpc =>
    rw [hpc] at hwas
    exact absurd hwas (by simp [LoopPc.leaving])
  | build ht hb => exact h.build hnd ht hb hok rfl hloop
  | dropGuard =>
    exact h.moves halive hstay hloop hown rfl rfl rfl rfl rfl fun j hc => hc.interruptIfRunning _
  | supersede =>
    exact h.moves halive hstay hloop hown rfl rfl rfl rfl rfl
      fun j hc => hc.of_jobs (EvalRow.jobs_guardedStatus _ _)
  | fire => exact h.moves halive hstay hloop hown rfl rfl rfl rfl rfl fun j hc => hc

/-- With the token not fired, the loop is left with every row closed. -/
theorem leaves (h : Working items row p) {drained : Bool} (hpc : p.pc = .checking drained)
    (hleave : (p.afterChecks drained).leaving = true)
    (hfree : p.cancel = true → p.session.inFlight ≠ []) :
    Left row { p with pc := p.afterChecks drained } := by
  obtain ⟨status, hexit⟩ := Phase.afterChecks_leaving hleave
  obtain ⟨rfl, hset, hq⟩ := h.looping.exit hpc hexit
  have hzero : p.session.strategy.pendingCount = 0 := by
    rcases hq with hq | ⟨hc, -⟩
    · exact hq
    · exact absurd hset (hfree hc)
  refine ⟨Or.inl hexit, hset, fun j => ?_⟩
  by_cases hitem : ∃ item ∈ items, item.jobId = j
  · obtain ⟨item, hi, rfl⟩ := hitem
    exact h.staged.isOver (by rw [hpc]; rfl) hi (h.looping.ended_of_drained hset hzero hi)
  · exact h.outside j fun item hi heq => hitem ⟨item, hi, heq⟩

/-- A Step without aliases is built for the one Job it has. -/
theorem head_of_alone (h : Working items row p) {d : Dispatched} (hd : d ∈ p.session.inFlight)
    (halone : ¬ p.Aliased d) {item : ScheduleItem} (hi : item ∈ items)
    (hpath : item.headDrv.drvPath = d.drvPath) : d.headJob = some item.jobId := by
  have hmem : item.jobId ∈ jobsAt items d.drvPath := mem_jobsAt_iff.mpr ⟨item, hi, hpath, rfl⟩
  rw [h.looping.heads d hd]
  cases hjobs : jobsAt items d.drvPath with
  | nil => exact absurd (hjobs ▸ hmem) (by simp)
  | cons j rest =>
    obtain ⟨item', hi', hpath', rfl⟩ := mem_jobsAt_iff.mp (hjobs ▸ List.mem_cons_self : j ∈ _)
    obtain ⟨q, hq, hqj, hqd⟩ := h.handed item hi
    obtain ⟨q', hq', hqj', hqd'⟩ := h.handed item' hi'
    rw [List.head?_cons]
    by_contra hne
    refine halone ⟨q, hq, q', hq', fun heq => hne ?_, by rw [hqd, hpath], by rw [hqd', hpath']⟩
    rw [← hqj, ← hqj', heq]

/-- **The cancel arm.** Without aliases of running Steps every open row is about to be written or
    has a task. -/
theorem aborts (h : Working items row p) (hnd : (items.map (·.jobId)).Nodup) {e : EvalId}
    (hev : ∀ item ∈ items, item.evalId = e) (htodo : p.pc.todo = [])
    (halone : ∀ d ∈ p.session.inFlight, ¬ p.Aliased d) (hp : p' = { p with
      session := p.session.record (p.session.strategy.cancelEval e).2 (.cancelEval e)
        (.cancelled (p.session.strategy.cancelEval e).1)
      pc := .aborting ((p.session.strategy.cancelEval e).1.map fun skip => .skip skip.jobId) }) :
    Closing row p' := by
  subst hp
  have htold := h.looping.aborts hnd h.owned hev
  refine ⟨.start h.looping hnd rfl rfl fun x hx d hd => ?_, fun x hx => ?_, fun j => ?_,
    fun d hd j hj b hl => ?_, ?_, fun hpc => absurd hpc (by simp), h.silent⟩
  · obtain ⟨item, -, rfl, -, hfree⟩ := h.looping.told_of_abort hnd h.owned hev hx
    exact hfree d hd
  · obtain ⟨item, hi, rfl, -, -⟩ := h.looping.told_of_abort hnd h.owned hev hx
    exact ⟨h.knows hi, rfl⟩
  · by_cases hitem : ∃ item ∈ items, item.jobId = j
    · obtain ⟨item, hi, rfl⟩ := hitem
      by_cases hend : p.Ended item
      · exact Or.inl (h.staged.isOver htodo hi hend)
      · refine Or.inr ?_
        by_cases hrun : ∃ d ∈ p.session.inFlight, d.drvPath = item.headDrv.drvPath
        · -- the Job of a running Step is the one it is built for
          obtain ⟨d, hd, hpath⟩ := hrun
          exact Or.inr ⟨d, hd, h.head_of_alone hd (halone d hd) hi hpath.symm⟩
        · refine Or.inl ?_
          obtain ⟨skip, hs, hsj⟩ := (htold item.jobId).mpr ⟨item, hi, rfl, hend,
            fun d hd hpath => hrun ⟨d, hd, hpath⟩⟩
          exact ⟨_, List.mem_map.mpr ⟨skip, hs, rfl⟩, hsj⟩
    · exact Or.inl (h.outside j fun item hi heq => hitem ⟨item, hi, heq⟩)
  · obtain ⟨item, hi, rfl⟩ := h.looping.item_of_head hd hj
    exact h.staged.building item hi d hd hj b hl
  · rintro (hl | hl)
    · exact absurd hl (by simp [LoopPc.leaving])
    · exact absurd hl (by simp)

end Working

/-! ## Past them -/

theorem Left.acts {row row' : EvalRow} {p p' : Phase} (h : Left row p) {e : EvalId} {a : PhaseAct}
    (hact : PhaseActs e row p a row' p') : Left row' p' := by
  have hwas := h.pc
  have hidle := h.idle
  cases hact with
  | look hpc | noPermit hpc | idle hpc | spawned hpc | check hpc | wake hpc | abort hpc
  | polled hpc | join hpc | permit hpc | sleep hpc | settled hpc | settle hpc | aborted hpc
  | skip hpc | drain hpc | drained hpc =>
    rw [hpc] at hwas
    exact absurd hwas (by simp)
  | finish hpc =>
    rw [hpc] at hwas
    obtain rfl : _ = EvalStatus.done := by simpa using hwas
    exact ⟨Or.inr (Or.inl rfl), hidle,
      fun j => (h.closed j).of_jobs (EvalRow.jobs_guardedStatus _ _)⟩
  | post hpc => exact ⟨Or.inr (Or.inr rfl), hidle, h.closed⟩
  | build ht =>
    obtain ⟨d, hd, -⟩ := Phase.task_eq_some ht
    rw [hidle] at hd
    exact absurd hd (by simp)
  | dropGuard => exact ⟨hwas, hidle, fun j => (h.closed j).interruptIfRunning _⟩
  | supersede => exact ⟨hwas, hidle, fun j => (h.closed j).of_jobs (EvalRow.jobs_guardedStatus _ _)⟩
  | fire => exact ⟨hwas, hidle, h.closed⟩

namespace Closing

variable {row row' : EvalRow} {p p' : Phase}

theorem reorder (h : Closing row p) (s : DagStrategy) : Closing row (p.reorder s) :=
  ⟨h.winding.reorder s, h.known, h.covered, h.tasks, h.quiet, h.wrote, h.silent⟩

/-- An action that leaves the tasks alone and reopens no row. -/
theorem moves (h : Closing row p) (hw : Winding p') (hquiet : p'.Quiet)
    (hsession : p'.session = p.session) (hspecs : p'.specsById = p.specsById)
    (hbuilds : p'.builds = p.builds) (htodo : p'.pc.todo = p.pc.todo)
    (hwrote : p'.pc = .ended → p'.wrote = some .cancelled) (hposted : p'.posted = p.posted)
    (hrow : ∀ j, ClosedRow row j → ClosedRow row' j) : Closing row' p' := by
  refine ⟨hw, fun x hx => ?_, fun j => ?_, fun d hd j hj b hl => ?_, hquiet, hwrote,
    hposted.trans h.silent⟩
  · rw [htodo] at hx
    unfold Phase.knows
    rw [hspecs]
    exact h.known x hx
  · rw [htodo, hsession]
    exact (h.covered j).imp_left (hrow j)
  · rw [hsession] at hd
    rw [hbuilds] at hl
    exact (h.tasks d hd j hj b hl).mono hspecs (hrow j)

theorem acts (h : Closing row p) {e : EvalId} {a : PhaseAct} (hok : p.CancelAct a)
    (hact : PhaseActs e row p a row' p') : Closing row' p' := by
  have hw := h.winding.acts hact
  have hquiet := h.quiet.acts hact
  have hpc := h.winding.pc
  cases hact with
  | look hp | noPermit hp | idle hp | spawned hp | check hp | wake hp | abort hp | polled hp
  | join hp | permit hp | sleep hp | settled hp | settle hp | post hp =>
    rw [hp] at hpc
    exact absurd hpc (by simp [LoopPc.winding])
  | aborted hp | drained hp =>
    exact h.moves hw hquiet rfl rfl rfl (by rw [hp]; rfl) (by simp) rfl fun j hc => hc
  | @skip x todo hp =>
    have hmem : x ∈ p.pc.todo := by rw [hp]; exact List.mem_cons_self
    have hsub : ∀ y ∈ todo, y ∈ p.pc.todo := by
      intro y hy
      rw [hp]
      exact List.mem_cons_of_mem _ hy
    obtain ⟨hknown, hskip⟩ := h.known x hmem
    obtain ⟨hx, hmono⟩ := x.apply_closes row p.tally (by rw [hskip]; simp)
    rw [hknown] at hw ⊢
    refine ⟨hw, fun y hy => h.known y (hsub y hy), fun j => ?_,
      fun d hd j hj b hl => (h.tasks d hd j hj b hl).mono rfl (hmono j), by rwa [hknown] at hquiet,
      fun hend => absurd hend (by simp), h.silent⟩
    rcases h.covered j with hc | ⟨y, hy, hyj⟩ | hd
    · exact Or.inl (hmono j hc)
    · rw [hp] at hy
      rcases List.mem_cons.mp hy with rfl | hy
      · exact Or.inl (hyj ▸ hx (by rw [hskip]; trivial))
      · exact Or.inr (Or.inl ⟨y, hy, hyj⟩)
    · exact Or.inr (Or.inr hd)
  | @drain token jobId spec outcome hp ht =>
    obtain ⟨d, hd, rfl, hj, -, hstate⟩ := Phase.task_eq_some ht
    have hclosed : ClosedRow row jobId := (h.tasks d hd jobId hj _ hstate).1
    refine ⟨hw, h.known, fun j => ?_, fun d' hd' j hj' b hl => ?_, hquiet,
      fun hend => absurd (hp.symm.trans hend) (by simp), h.silent⟩
    · rcases h.covered j with hc | hx | ⟨d', hd', hj'⟩
      · exact Or.inl hc
      · exact Or.inr (Or.inl hx)
      · by_cases htok : d'.token = d.token
        · obtain rfl := List.inj_on_of_nodup_map h.winding.tokens hd' hd htok
          obtain rfl : jobId = j := Option.some.inj (hj.symm.trans hj')
          exact Or.inl hclosed
        · exact Or.inr (Or.inr ⟨d', Looping.inFlight_joined.mpr ⟨hd', htok⟩, hj'⟩)
    · obtain ⟨hm, htok⟩ := Looping.inFlight_joined.mp hd'
      rw [Phase.joined_eq] at hl
      have hl' := (HashMap.lookup_erase_eq d.token d'.token p.builds).symm.trans hl
      rw [if_neg htok] at hl'
      exact h.tasks d' hm j hj' b hl'
  | @finish status hp =>
    rw [hp] at hpc
    obtain rfl : status = .cancelled := by simpa [LoopPc.winding] using hpc
    exact h.moves hw hquiet rfl rfl rfl (by rw [hp]; rfl) (fun _ => rfl) rfl
      fun j hc => hc.of_jobs (EvalRow.jobs_guardedStatus _ _)
  | @build token jobId spec state state' write a ht hb =>
    obtain ⟨d₀, hd₀, rfl, hj₀, hspec, hstate⟩ := Phase.task_eq_some ht
    refine ⟨hw, h.known, fun j => ?_, fun d hd j hj b hl => ?_, hquiet, h.wrote, h.silent⟩
    · by_cases hj : j = jobId
      · exact Or.inr (Or.inr ⟨d₀, hd₀, hj ▸ hj₀⟩)
      · exact (h.covered j).imp_left fun hc => hc.write hj write
    · rw [HashMap.lookup_insert_eq] at hl
      split at hl
      · rename_i htok
        obtain rfl : jobId = j := Option.some.inj (((h.winding.task ht hd).mp htok).symm.trans hj)
        rw [← Option.some.inj hl]
        exact (h.tasks d₀ hd₀ jobId hj₀ state hstate).built hspec hb hok
      · rename_i htok
        refine (h.tasks d hd j hj b hl).mono rfl fun hc => hc.write (fun heq => htok ?_) write
        exact (h.winding.task ht hd).mpr (heq ▸ hj)
  | dropGuard =>
    exact h.moves hw hquiet rfl rfl rfl rfl h.wrote rfl fun j hc => hc.interruptIfRunning _
  | supersede =>
    exact h.moves hw hquiet rfl rfl rfl rfl h.wrote rfl
      fun j hc => hc.of_jobs (EvalRow.jobs_guardedStatus _ _)
  | fire => exact h.moves hw hquiet rfl rfl rfl rfl h.wrote rfl fun j hc => hc

end Closing

/-! ## Whole runs -/

/-- The loop is left by its exit checks only. -/
theorem Working.leaving_of_acts {items : List ScheduleItem} {row row' : EvalRow} {p p' : Phase}
    (h : Working items row p) {e : EvalId} {a : PhaseAct} (hact : PhaseActs e row p a row' p')
    (hleave : p'.pc.leaving = true) :
    ∃ drained, a = .check ∧ row' = row ∧ p.pc = .checking drained ∧
      p' = { p with pc := p.afterChecks drained } := by
  have hwas := h.staying
  have halive := h.alive
  cases hact with
  | check hpc => exact ⟨_, rfl, rfl, hpc, rfl⟩
  | look hpc =>
    simp only at hleave
    split at hleave <;> exact absurd hleave (by simp [LoopPc.leaving])
  | finish hpc =>
    rw [hpc] at hwas
    exact absurd hwas (by simp [LoopPc.leaving])
  | drain hpc | drained hpc =>
    rw [hpc] at halive
    exact absurd halive (by simp [LoopPc.alive])
  | spawned hpc | build | dropGuard | supersede | fire =>
    exact absurd (hwas.symm.trans hleave) (by simp)
  | noPermit | idle | wake | abort | polled | join | permit | sleep | settled | settle | aborted
  | skip | post => exact absurd hleave (by simp [LoopPc.leaving])

/-- Where a phase at work can get: not out of the loop once the token has fired. -/
theorem Working.step {items : List ScheduleItem} {row row' : EvalRow} {p p' : Phase}
    (h : Working items row p) (hnd : (items.map (·.jobId)).Nodup) {e : EvalId}
    (hev : ∀ item ∈ items, item.evalId = e) {a : PhaseAct} (hok : p.CancelAct a)
    (hs : PhaseStep e row p a row' p') :
    Working items row' p' ∨ (p.cancel = false ∧ Left row' p') ∨
      (p.cancel = true ∧ Closing row' p') := by
  obtain ⟨s, hshuffle, hact⟩ := hs.acts
  have hre := h.reorder hshuffle
  have hok' : (p.reorder s).CancelAct a := hok
  cases halive : p'.pc.alive with
  | true =>
    cases hleave : p'.pc.leaving with
    | false => exact Or.inl (hre.acts hnd hok' hact halive hleave)
    | true =>
      obtain ⟨drained, rfl, rfl, hpc, rfl⟩ := hre.leaving_of_acts hact hleave
      have hleft := hre.leaves hpc hleave hok'
      refine Or.inr (Or.inl ⟨?_, hleft⟩)
      by_contra hc
      exact hok (by simpa using hc) hleft.idle
  | false =>
    refine Or.inr (Or.inr ?_)
    rcases Looping.dies hact h.alive halive with ⟨rfl, rfl, htodo, hc, hp'⟩ | ⟨-, hpc, -⟩
    · exact ⟨hc, hre.aborts hnd hev htodo (hok' hc) hp'⟩
    · have hstay := hre.staying
      rw [hpc] at hstay
      exact absurd hstay (by simp [LoopPc.leaving])

theorem Left.step {row row' : EvalRow} {p p' : Phase} (h : Left row p) {e : EvalId} {a : PhaseAct}
    (hs : PhaseStep e row p a row' p') : Left row' p' := by
  obtain ⟨s, -, hact⟩ := hs.acts
  have hre : Left row (p.reorder s) := ⟨h.pc, h.idle, h.closed⟩
  exact hre.acts hact

theorem Closing.step {row row' : EvalRow} {p p' : Phase} (h : Closing row p) {e : EvalId}
    {a : PhaseAct} (hok : p.CancelAct a) (hs : PhaseStep e row p a row' p') : Closing row' p' := by
  obtain ⟨s, -, hact⟩ := hs.acts
  exact (h.reorder s).acts hok hact

/-- A token stays fired. -/
theorem PhaseStep.cancel {e : EvalId} {row row' : EvalRow} {p p' : Phase} {a : PhaseAct}
    (hs : PhaseStep e row p a row' p') (hc : p.cancel = true) : p'.cancel = true := by
  obtain ⟨s, -, hact⟩ := hs.acts
  cases hact with
  | fire => rfl
  | look | noPermit | idle | spawned | check | wake | abort | polled | join | permit | sleep
  | settled | settle | aborted | skip | drain | drained | finish | post | build | dropGuard
  | supersede => exact hc

section Runs

variable {items : List ScheduleItem} {e : EvalId} {row₀ row : EvalRow} {p₀ p : Phase}

/-- Up to the moment the token fires. -/
theorem PhaseRun.orderly (hnd : (items.map (·.jobId)).Nodup)
    (hev : ∀ item ∈ items, item.evalId = e) (h : Working items row₀ p₀)
    (hrun : PhaseRun Phase.CancelAct e row₀ p₀ row p) :
    Working items row p ∨ Left row p ∨ Closing row p := by
  induction hrun with
  | refl => exact Or.inl h
  | step _ hok hs ih =>
    rcases ih with h | h | h
    · exact (h.step hnd hev hok hs).imp_right (Or.imp And.right And.right)
    · exact Or.inr (Or.inl (h.step hs))
    · exact Or.inr (Or.inr (h.step hok hs))

/-- And from then on. -/
theorem PhaseRun.fired (hnd : (items.map (·.jobId)).Nodup)
    (hev : ∀ item ∈ items, item.evalId = e) (h : Working items row₀ p₀ ∨ Closing row₀ p₀)
    (hc : p₀.cancel = true) (hrun : PhaseRun Phase.CancelAct e row₀ p₀ row p) :
    p.cancel = true ∧ (Working items row p ∨ Closing row p) := by
  induction hrun with
  | refl => exact ⟨hc, h⟩
  | step _ hok hs ih =>
    obtain ⟨hc, h | h⟩ := ih
    · refine ⟨hs.cancel hc, ?_⟩
      rcases h.step hnd hev hok hs with h | ⟨hfree, -⟩ | ⟨-, h⟩
      · exact Or.inl h
      · exact absurd (hc.symm.trans hfree) (by simp)
      · exact Or.inr h
    · exact ⟨hs.cancel hc, Or.inr (h.step hok hs)⟩

end Runs

/-- Every row that is open belongs to a Job the phase is going to build. -/
def AllHanded (row : EvalRow) (persisted : Persisted) : Prop :=
  ∀ x ∈ row.jobs.entries, x.2.status = .queued ∨ x.2.status = .running →
    ∃ q ∈ persisted, q.2 = x.1 ∧ q.1.drvPath.isSome = true ∧ q.1.error = none

instance (row : EvalRow) (persisted : Persisted) : Decidable (AllHanded row persisted) :=
  inferInstanceAs (Decidable (∀ x ∈ row.jobs.entries, _))

theorem Working.start {row : EvalRow} {persisted : Persisted} {walk : ClosureWalk}
    {repoId : RepoId} {e : EvalId} {s : DagStrategy} (hk : walk.Keyed)
    (henq : Enqueued none (scheduleItems walk repoId e persisted) s)
    (hids : (persisted.map Prod.snd).Nodup) (hrows : AllHanded row persisted) (cancel : Bool) :
    Working (scheduleItems walk repoId e persisted) row (Phase.start persisted s cancel) := by
  have hnd := nodup_scheduleItems walk repoId e hids
  -- a row that is open has a Job without an eval error
  have hopen : ∀ j, ¬ ClosedRow row j →
      ∃ q ∈ persisted, q.2 = j ∧ q.1.drvPath.isSome = true ∧ q.1.error = none := by
    intro j hj
    have hstatus : row.jobStatus j = some .queued ∨ row.jobStatus j = some .running := by
      unfold ClosedRow at hj
      tauto
    have hrow : ∃ job, row.jobs.lookup j = some job ∧
        (job.status = .queued ∨ job.status = .running) := by
      rcases hstatus with hs | hs
      · obtain ⟨job, hl, hjob⟩ := Option.map_eq_some_iff.mp hs
        exact ⟨job, hl, Or.inl hjob⟩
      · obtain ⟨job, hl, hjob⟩ := Option.map_eq_some_iff.mp hs
        exact ⟨job, hl, Or.inr hjob⟩
    obtain ⟨job, hl, hjob⟩ := hrow
    exact hrows ⟨j, job⟩ (HashMap.mem_entries_iff.mpr hl) hjob
  refine ⟨rfl, rfl, .start henq (flat_scheduleItems hk repoId e persisted) hnd persisted cancel,
    Looping.owned_start henq persisted cancel, fun item hi => mem_scheduleItems hi, ?_,
    fun j st hx => absurd hx (by simp [Phase.start, LoopPc.todo]), fun j hj => ?_, rfl⟩
  · refine ⟨fun item hi _ _ spec hspec herr => ?_,
      fun item _ d hd => absurd hd (by simp [Phase.start, Session.start]),
      fun x hx => absurd hx (by simp [Phase.start, LoopPc.todo]), fun item _ hend => ?_⟩
    · by_contra hj
      obtain ⟨q, hq, hqj, -, hnone⟩ := hopen _ hj
      rw [← hqj, specOf_start hids hq s cancel, Option.some.injEq] at hspec
      rw [← hspec, hnone] at herr
      exact absurd herr (by simp)
    · obtain ⟨st, hl, hterm⟩ := hend
      rcases henq.loaded.fresh _ st hl with hp | hp <;> rw [hp] at hterm <;>
        exact absurd hterm (by decide)
  · by_contra hc
    obtain ⟨q, hq, hqj, hd, -⟩ := hopen j hc
    obtain ⟨item, hi, hij⟩ := exists_scheduleItem walk repoId e hq hd
    exact hj item hi (hij.trans hqj)

/-- **When a cancelled phase ends cancelled.** -/
def CancelsWhen (q : PoolPhase) : PoolAct → Prop
  | .loop a => q.phase.CancelAct a
  | .task _ a => a ≠ .fail

theorem lifts_cancelsWhen : PoolAct.Lifts CancelsWhen Phase.CancelAct :=
  fun _ _ => ⟨id, fun _ _ _ hfail hok hd => hok (hfail hd)⟩

/-- **A phase whose token fires while a row is open ends cancelled, posts no check and leaves no
    row open**, in every run of a phase with its tasks whose actions all meet the condition. -/
theorem cancelled_closes (builderWait : Bool) (e : EvalId) (persisted : Persisted)
    (s : DagStrategy) (cancel : Bool) (row₀ row₁ row : EvalRow) (q₁ q : PoolPhase)
    (hopening : Opening e persisted s) (hrows : AllHanded row₀ persisted)
    (hrun : PoolRun CancelsWhen builderWait e row₀ (.start persisted s cancel) row₁ q₁)
    (hfired : q₁.phase.cancel = true) (hopen : ∃ j, ¬ ClosedRow row₁ j)
    (hrest : PoolRun CancelsWhen builderWait e row₁ q₁ row q) (hended : q.phase.pc = .ended) :
    q.phase.wrote = some .cancelled ∧ q.phase.posted = none ∧ ∀ j, ClosedRow row j := by
  obtain ⟨walk, repoId, hk, henq⟩ := hopening.loaded
  have hnd := nodup_scheduleItems walk repoId e hopening.ids
  have hev : ∀ item ∈ scheduleItems walk repoId e persisted, item.evalId = e :=
    fun _ hi => evalId_scheduleItems hi
  obtain ⟨hphase, hseen⟩ := hrun.phaseRun lifts_cancelsWhen (PoolPhase.seen_start _ _ _)
  obtain ⟨hphase', -⟩ := hrest.phaseRun lifts_cancelsWhen hseen
  have hfirst := hphase.orderly hnd hev (.start hk henq hopening.ids hrows cancel)
  have hthen : Working (scheduleItems walk repoId e persisted) row₁ q₁.phase ∨
      Closing row₁ q₁.phase := by
    rcases hfirst with h | h | h
    · exact Or.inl h
    · obtain ⟨j, hj⟩ := hopen
      exact absurd (h.closed j) hj
    · exact Or.inr h
  obtain ⟨-, h | h⟩ := hphase'.fired hnd hev hthen hfired
  · have halive := h.alive
    rw [hended] at halive
    exact absurd halive (by decide)
  · refine ⟨h.wrote hended, h.silent, fun j => ?_⟩
    have hset := h.quiet (Or.inr hended)
    rcases h.covered j with hc | ⟨x, hx, -⟩ | ⟨d, hd, -⟩
    · exact hc
    · exact absurd hx (by simp [hended, LoopPc.todo])
    · exact absurd hd (by simp [hset])

instance (p : Phase) (a : PhaseAct) : Decidable (p.CancelAct a) := by
  unfold Phase.CancelAct
  split <;> infer_instance

instance (q : PoolPhase) (a : PoolAct) : Decidable (CancelsWhen q a) := by
  unfold CancelsWhen
  split <;> infer_instance

/-- One permit is free and Job 1 takes it; a newer push comes in while its builder builds. -/
def firedMidBuild : List PoolAct :=
  List.flatten [[.loop .look, .loop .dispatch, .loop .noPermit, .loop .check, .task ⟨0⟩ .arm],
    toBuilder ⟨0⟩ 1, [.loop .supersede, .loop .fire]]

/-- Job 2 is told, the task of Job 1 sees the token and has its build aborted, and the loop drains
    it. -/
def drainOne : List PoolAct :=
  List.flatten [[.loop .pollCancel, .loop .handle, .loop .handle, .task ⟨0⟩ .seeCancel],
    finishes ⟨0⟩ .killed, [.loop (.drain ⟨0⟩), .loop .drained, .loop .finish]]

theorem firedMidBuild_open :
    ((PoolPhase.start twoSystems twoLoaded false).script CancelsWhen true ⟨1⟩ twoQueued
        firedMidBuild).map (fun r => (r.2.phase.cancel, r.1.jobStatus ⟨1⟩,
          (r.2.script CancelsWhen true ⟨1⟩ r.1 drainOne).map fun r' => r'.2.phase.pc))
      = some (true, some .running, some .ended) := by
  decide

theorem cancelled_closes_mid_build : ∃ row₁ q₁ row q,
    PoolRun CancelsWhen true ⟨1⟩ twoQueued (.start twoSystems twoLoaded false) row₁ q₁ ∧
      ¬ ClosedRow row₁ ⟨1⟩ ∧ PoolRun CancelsWhen true ⟨1⟩ row₁ q₁ row q ∧
      q.phase.wrote = some .cancelled ∧ q.phase.posted = none ∧ ∀ j, ClosedRow row j := by
  obtain ⟨⟨row₁, q₁⟩, hscript, heq⟩ := Option.map_eq_some_iff.mp firedMidBuild_open
  obtain ⟨hfired, hrunning, hrest⟩ : q₁.phase.cancel = true ∧
      row₁.jobStatus ⟨1⟩ = some .running ∧
      (q₁.script CancelsWhen true ⟨1⟩ row₁ drainOne).map (fun r' => r'.2.phase.pc) =
        some .ended := by simpa using heq
  obtain ⟨⟨row, q⟩, hscript', hended⟩ := Option.map_eq_some_iff.mp hrest
  have hopen : ¬ ClosedRow row₁ ⟨1⟩ := fun hc => hc.2 hrunning
  have hclose := cancelled_closes true ⟨1⟩ twoSystems twoLoaded false twoQueued row₁ row q₁ q
    opening_two (by decide) (.of_script hscript) hfired ⟨_, hopen⟩ (.of_script hscript')
    hended
  exact ⟨row₁, q₁, row, q, .of_script hscript, hopen, .of_script hscript', hclose⟩

/-! ## A push that is superseded before the first dispatch -/

def firedAtStart : List PoolAct := [.loop .supersede, .loop .fire]

/-- The spawn gate skips the pass, and the second exit leads to `finish(Done)`. -/
def leaveGreen : List PoolAct := List.map .loop [.look, .check, .finish, .post]

theorem firedAtStart_open :
    ((PoolPhase.start twoSystems twoLoaded false).script NoTaskDies true ⟨1⟩ twoQueued
        firedAtStart).map (fun r => (r.2.phase.cancel, r.1.jobStatus ⟨1⟩,
          (r.2.script NoTaskDies true ⟨1⟩ r.1 leaveGreen).map fun r' =>
            decide (r'.2.phase.pc = .ended ∧ r'.2.phase.wrote = some .done ∧
              r'.2.phase.posted = some .success ∧ r'.1.jobStatus ⟨1⟩ = some .queued)))
      = some (true, some .queued, some true) := by
  decide

theorem not_cancelled_closes :
    ¬ ∀ (builderWait : Bool) (e : EvalId) (persisted : Persisted) (s : DagStrategy)
      (cancel : Bool) (row₀ row₁ row : EvalRow) (q₁ q : PoolPhase), Opening e persisted s →
      AllHanded row₀ persisted →
      PoolRun NoTaskDies builderWait e row₀ (.start persisted s cancel) row₁ q₁ →
      q₁.phase.cancel = true → (∃ j, ¬ ClosedRow row₁ j) →
      PoolRun NoTaskDies builderWait e row₁ q₁ row q → q.phase.pc = .ended →
        q.phase.wrote = some .cancelled ∧ q.phase.posted ≠ some .success ∧
          ∀ j, ClosedRow row j := by
  intro h
  obtain ⟨⟨row₁, q₁⟩, hscript, heq⟩ := Option.map_eq_some_iff.mp firedAtStart_open
  obtain ⟨hfired, hqueued, hrest⟩ : q₁.phase.cancel = true ∧ row₁.jobStatus ⟨1⟩ = some .queued ∧
      (q₁.script NoTaskDies true ⟨1⟩ row₁ leaveGreen).map (fun r' =>
        decide (r'.2.phase.pc = .ended ∧ r'.2.phase.wrote = some .done ∧
          r'.2.phase.posted = some .success ∧ r'.1.jobStatus ⟨1⟩ = some .queued)) =
        some true := ⟨congrArg Prod.fst heq, congrArg (·.2.1) heq, congrArg (·.2.2) heq⟩
  obtain ⟨⟨row, q⟩, hscript', hq⟩ := Option.map_eq_some_iff.mp hrest
  obtain ⟨hended, hwrote, -⟩ := of_decide_eq_true hq
  have hclose := h true ⟨1⟩ twoSystems twoLoaded false twoQueued row₁ row q₁ q opening_two
    (by decide) (.of_script hscript) hfired ⟨⟨1⟩, fun hc => hc.1 hqueued⟩
    (.of_script hscript') hended
  exact absurd (hwrote.symm.trans hclose.1) (by simp)

end Argunix.Daemon
