import Argunix.Daemon.Loop
import Argunix.Daemon.World

/-!
# Is the overall check honest?

The final check is computed from the tally, and the tally counts what *this* run of the loop has
seen: the specs it was handed and the tasks it joined. The rows are what the user sees. The two
agree as long as

* the phase was handed every row that is not already a success: on a resume that fails when an
  earlier life of the daemon has recorded a failure, because only `queued` rows are loaded;
* nothing else writes the rows, so that there is no second phase of the evaluation;
* the loop does not leave through its second exit with work queued, and does not join a build that
  was cancelled: `cancelled` counts for nothing.

`HonestWhen` states these conditions on the state before a step. `honest_of_run` is the theorem,
for every run of the daemon with any number of crashes, whatever the interleaving.
`not_honest_resumed` is a run with one crash in which the check is `success` over a failed row.
-/

set_option autoImplicit false

namespace Argunix.Daemon

open Argunix.Lib Argunix.Sched Argunix.Sched.DagStrategy Argunix.Eval Argunix.Store

/-- **An honest check**: green only over green rows, and red over any red one. -/
def Honest (row : EvalRow) (state : CheckState) : Prop :=
  (state = .success → ∀ j s, row.jobStatus j = some s → s.isSuccess = true) ∧
    ((∃ j, row.jobStatus j = some .failure) → state = .failure)

/-! ## Rows against the tally, stage by stage -/

/-- The row has no verdict yet. -/
def OpenRow (row : EvalRow) (j : JobId) : Prop :=
  ∃ s, row.jobStatus j = some s ∧ s.isTerminal = false

instance (row : EvalRow) (j : JobId) : Decidable (OpenRow row j) :=
  inferInstanceAs (Decidable (∃ s ∈ row.jobStatus j, s.isTerminal = false))

/-- The Job has a derivation of its own and an eval error: `build_one` reports the failure that
    `persist_job` has recorded. -/
def Phase.Rejected (p : Phase) (items : List ScheduleItem) (j : JobId) : Prop :=
  (∃ spec, p.specOf j = some spec ∧ spec.error.isSome = true) ∧
    ∀ k, j ∈ jobsAt items k → jobsAt items k = [j]

/-- While a Job waits its row is open. -/
def Awaited (items : List ScheduleItem) (row : EvalRow) (p : Phase) (j : JobId) : Prop :=
  OpenRow row j ∨ p.Rejected items j

/-- The row bears out a status that is about to be counted. -/
def Agrees (row : EvalRow) (status : JobStatus) (j : JobId) : Prop :=
  (status.isSuccess = true → row.jobStatus j = some status) ∧
    (status = .interrupted → row.jobStatus j ≠ some .failure)

/-- While a Job is being built its row is open; then it has what `build_one` reports. -/
def Pursued (items : List ScheduleItem) (row : EvalRow) (p : Phase) (j : JobId)
    (d : Dispatched) : Prop :=
  ∀ b, p.builds.lookup d.token = some b →
    (b.hasReturned = false → OpenRow row j ∨ (p.Rejected items j ∧ b = .entered)) ∧
      ∀ o, b = .returned o → o.finalStatus ∈ reportable ∧ Agrees row o.finalStatus j

/-- What is about to be written is going to be counted. -/
def Due (row : EvalRow) : Effect → Prop
  | .skip _ => True
  | .mirror j status => OpenRow row j ∧ status ∈ reportable ∧ status ≠ .cancelled
  | .count j status => Agrees row status j ∧ status ∈ reportable ∧ status ≠ .cancelled

/-- The tally cannot hide this row. -/
def Counted (row : EvalRow) (tally : JobTally) (j : JobId) : Prop :=
  (∃ s, row.jobStatus j = some s ∧ s.isSuccess = true) ∨ 0 < tally.failure ∨
    (0 < tally.interrupted ∧ row.jobStatus j ≠ some .failure)

namespace JobTally

variable (tally : JobTally) (status : JobStatus)

theorem failure_le_record : tally.failure ≤ (tally.record status).failure := by
  cases status <;> simp [record]

theorem interrupted_le_record : tally.interrupted ≤ (tally.record status).interrupted := by
  cases status <;> simp [record]

theorem failure_record_failure : 0 < (tally.record .failure).failure := Nat.succ_pos _

theorem interrupted_record_interrupted : 0 < (tally.record .interrupted).interrupted :=
  Nat.succ_pos _

end JobTally

/-! ## Rows that move while they are open -/

/-- The row of this Job may have changed from one open status to another; a verdict stays. -/
def Drifts (row row' : EvalRow) (j : JobId) : Prop :=
  row'.jobStatus j = row.jobStatus j ∨ (OpenRow row j ∧ OpenRow row' j)

theorem JobStatus.isTerminal_of_isSuccess {s : JobStatus} (h : s.isSuccess = true) :
    s.isTerminal = true := by
  cases s <;> first | rfl | exact absurd h (by decide)

/-- A status that moves only while it is open. -/
theorem drifts_of_map {row row' : EvalRow} {j : JobId} {f : JobStatus → JobStatus}
    (hrow : row'.jobStatus j = (row.jobStatus j).map f)
    (hf : ∀ s, f s = s ∨ (s.isTerminal = false ∧ (f s).isTerminal = false)) :
    Drifts row row' j := by
  cases hs : row.jobStatus j with
  | none => exact Or.inl (by rw [hrow, hs]; rfl)
  | some s =>
    rw [hs, Option.map_some] at hrow
    rcases hf s with h | ⟨ho, ho'⟩
    · exact Or.inl (by rw [hrow, h, hs])
    · exact Or.inr ⟨⟨s, hs, ho⟩, f s, hrow, ho'⟩

namespace Drifts

variable {row row' : EvalRow} {j : JobId}

theorem refl (row : EvalRow) (j : JobId) : Drifts row row j := Or.inl rfl

theorem of_jobs (h : row'.jobs = row.jobs) (j : JobId) : Drifts row row' j :=
  Or.inl (by simp [EvalRow.jobStatus, h])

theorem of_ne {j₀ : JobId} (hne : j ≠ j₀) (f : JobStatus → JobStatus) :
    Drifts row (row.updateJob j₀ f) j :=
  Or.inl (by rw [EvalRow.jobStatus_updateJob, if_neg hne])

theorem updateJob (row : EvalRow) (j₀ j : JobId) {f : JobStatus → JobStatus}
    (hf : ∀ s, f s = s ∨ (s.isTerminal = false ∧ (f s).isTerminal = false)) :
    Drifts row (row.updateJob j₀ f) j := by
  by_cases hj : j = j₀
  · subst hj
    exact drifts_of_map (by rw [EvalRow.jobStatus_updateJob, if_pos rfl]) hf
  · exact of_ne hj f

theorem dispatchJob (row : EvalRow) (j₀ j : JobId) : Drifts row (row.dispatchJob j₀) j := by
  refine updateJob row j₀ j fun s => ?_
  cases hs : s.isTerminal with
  | true => exact Or.inl (firstVerdict_of_terminal hs)
  | false => exact Or.inr ⟨rfl, by rw [firstVerdict_of_open hs]; rfl⟩

theorem interrupts (s : JobStatus) : (if s = .running then JobStatus.interrupted else s) = s ∨
    (s.isTerminal = false ∧
      (if s = .running then JobStatus.interrupted else s).isTerminal = false) := by
  cases s <;> decide

theorem interruptIfRunning (row : EvalRow) (j₀ j : JobId) :
    Drifts row (row.interruptIfRunning j₀) j := updateJob row j₀ j interrupts

theorem markRunningInterrupted (row : EvalRow) (j : JobId) :
    Drifts row row.markRunningInterrupted j :=
  drifts_of_map (EvalRow.jobStatus_updateJobs _ _ _) interrupts

theorem requeueInterrupted (row : EvalRow) (j : JobId) : Drifts row row.requeueInterrupted j :=
  drifts_of_map (EvalRow.jobStatus_updateJobs _ _ _) fun s => by cases s <;> decide

theorem openRow (h : Drifts row row' j) (ho : OpenRow row j) : OpenRow row' j := by
  rcases h with heq | ⟨-, ho'⟩
  · obtain ⟨s, hs, ht⟩ := ho
    exact ⟨s, heq.trans hs, ht⟩
  · exact ho'

/-- A verdict is not drifted over. -/
theorem verdict (h : Drifts row row' j) {s : JobStatus} (ht : s.isTerminal = true) :
    row'.jobStatus j = some s ↔ row.jobStatus j = some s := by
  rcases h with heq | ⟨⟨s₁, h₁, ht₁⟩, s₂, h₂, ht₂⟩
  · rw [heq]
  · rw [h₁, h₂]
    refine iff_of_false ?_ ?_ <;> rintro ⟨⟩
    · rw [ht] at ht₂
      exact absurd ht₂ (by simp)
    · rw [ht] at ht₁
      exact absurd ht₁ (by simp)

theorem agrees (h : Drifts row row' j) {status : JobStatus} (ha : Agrees row status j) :
    Agrees row' status j := by
  refine ⟨fun hs => ?_, fun hi hf => ?_⟩
  · exact (h.verdict (JobStatus.isTerminal_of_isSuccess hs)).mpr (ha.1 hs)
  · exact ha.2 hi ((h.verdict rfl).mp hf)

theorem counted (h : Drifts row row' j) {tally : JobTally} (hc : Counted row tally j) :
    Counted row' tally j := by
  rcases hc with ⟨s, hs, hok⟩ | hf | ⟨hi, hne⟩
  · exact Or.inl ⟨s, (h.verdict (JobStatus.isTerminal_of_isSuccess hok)).mpr hs, hok⟩
  · exact Or.inr (Or.inl hf)
  · exact Or.inr (Or.inr ⟨hi, fun hf => hne ((h.verdict rfl).mp hf)⟩)

theorem pursued (h : Drifts row row' j) {items : List ScheduleItem} {p : Phase} {d : Dispatched}
    (hp : Pursued items row p j d) : Pursued items row' p j d := by
  intro b hl
  obtain ⟨hopen, hret⟩ := hp b hl
  refine ⟨fun hb => (hopen hb).imp_left h.openRow, fun o ho => ?_⟩
  exact ⟨(hret o ho).1, h.agrees (hret o ho).2⟩

theorem due {x : Effect} (h : Drifts row row' x.jobId) (hx : Due row x) : Due row' x := by
  cases x with
  | skip j => trivial
  | mirror j status => exact ⟨h.openRow hx.1, hx.2⟩
  | count j status => exact ⟨h.agrees hx.1, hx.2⟩

/-- Outside the items a row that drifts is covered by the failure count, if it is not a success. -/
theorem outside (h : Drifts row row' j) {n : ℕ}
    (hout : ∀ s, row.jobStatus j = some s → s.isSuccess = true ∨ 0 < n) {s : JobStatus}
    (hs : row'.jobStatus j = some s) : s.isSuccess = true ∨ 0 < n := by
  rcases h with heq | ⟨⟨s₁, h₁, ht₁⟩, -⟩
  · exact hout s (heq ▸ hs)
  · refine Or.inr ((hout s₁ h₁).resolve_left fun hok => ?_)
    rw [JobStatus.isTerminal_of_isSuccess hok] at ht₁
    exact absurd ht₁ (by simp)

end Drifts

/-! ## Writing and counting -/

theorem OpenRow.finishJob {row : EvalRow} {j : JobId} (h : OpenRow row j) (status : JobStatus) :
    (row.finishJob j status).jobStatus j = some status := by
  obtain ⟨s, hs, ht⟩ := h
  rw [EvalRow.finishJob, EvalRow.jobStatus_updateJob, if_pos rfl, hs, Option.map_some,
    firstVerdict_of_open ht]

/-- A reported status that is counted cannot be hidden. -/
theorem counted_record {row : EvalRow} {tally : JobTally} {status : JobStatus} {j : JobId}
    (ha : Agrees row status j) (hrep : status ∈ reportable) (hne : status ≠ .cancelled) :
    Counted row (tally.record status) j := by
  simp only [reportable, List.mem_cons, List.not_mem_nil, or_false] at hrep
  rcases hrep with rfl | rfl | rfl | rfl | rfl
  · exact Or.inl ⟨_, ha.1 rfl, rfl⟩
  · exact Or.inl ⟨_, ha.1 rfl, rfl⟩
  · exact Or.inr (Or.inl tally.failure_record_failure)
  · exact Or.inr (Or.inr ⟨tally.interrupted_record_interrupted, ha.2 rfl⟩)
  · exact absurd rfl hne

/-- Counting more hides nothing. -/
theorem Counted.record {row : EvalRow} {tally : JobTally} {j : JobId} (h : Counted row tally j)
    (status : JobStatus) : Counted row (tally.record status) j := by
  rcases h with hs | hf | ⟨hi, hne⟩
  · exact Or.inl hs
  · exact Or.inr (Or.inl (hf.trans_le (tally.failure_le_record status)))
  · exact Or.inr (Or.inr ⟨hi.trans_le (tally.interrupted_le_record status), hne⟩)

/-- Nor does writing a status and counting it. -/
theorem Counted.finishJob {row : EvalRow} {tally : JobTally} {j : JobId} (h : Counted row tally j)
    (j₀ : JobId) (status : JobStatus) :
    Counted (row.finishJob j₀ status) (tally.record status) j := by
  by_cases hj : j = j₀
  · subst hj
    cases hs : row.jobStatus j with
    | none =>
      refine Counted.record ?_ status
      refine Drifts.counted (Or.inl ?_) h
      rw [EvalRow.finishJob, EvalRow.jobStatus_updateJob, if_pos rfl, hs]
      rfl
    | some s =>
      have hrow : (row.finishJob j status).jobStatus j = some (firstVerdict status s) := by
        rw [EvalRow.finishJob, EvalRow.jobStatus_updateJob, if_pos rfl, hs]
        rfl
      cases ht : s.isTerminal with
      | true =>
        rw [firstVerdict_of_terminal ht, ← hs] at hrow
        exact (Drifts.counted (Or.inl hrow) h).record status
      | false =>
        -- an open row gets the status that is counted
        rw [firstVerdict_of_open ht] at hrow
        rcases h with ⟨s', hs', hok⟩ | hf | ⟨hi, -⟩
        · rw [hs, Option.some.injEq] at hs'
          rw [hs', JobStatus.isTerminal_of_isSuccess hok] at ht
          exact absurd ht (by simp)
        · exact Or.inr (Or.inl (hf.trans_le (tally.failure_le_record status)))
        · by_cases hfail : status = .failure
          · rw [hfail]
            exact Or.inr (Or.inl tally.failure_record_failure)
          · refine Or.inr (Or.inr ⟨hi.trans_le (tally.interrupted_le_record status), ?_⟩)
            rw [hrow, Ne, Option.some.injEq]
            exact hfail
  · exact ((Drifts.of_ne hj _).counted h).record status

/-- `handle`: the Job it writes is counted, and nothing that was counted is hidden. -/
theorem Effect.apply_counted (x : Effect) (row : EvalRow) (tally : JobTally) :
    (Due row x → Counted (x.apply true row tally).1 (x.apply true row tally).2 x.jobId) ∧
      (∀ j, Counted row tally j → Counted (x.apply true row tally).1 (x.apply true row tally).2 j) ∧
      (∀ j, j ≠ x.jobId → Drifts row (x.apply true row tally).1 j) ∧
      tally.failure ≤ (x.apply true row tally).2.failure := by
  cases x with
  | skip j₀ =>
    exact ⟨fun _ => Or.inr (Or.inl tally.failure_record_failure), fun j h => h.finishJob j₀ .failure,
      fun j hj => .of_ne hj _, tally.failure_le_record _⟩
  | mirror j₀ status =>
    refine ⟨fun ⟨hopen, hrep, hne⟩ => counted_record ⟨fun _ => hopen.finishJob status, ?_⟩ hrep hne,
      fun j h => h.finishJob j₀ status, fun j hj => .of_ne hj _, tally.failure_le_record _⟩
    rintro rfl hfail
    exact absurd ((hopen.finishJob .interrupted).symm.trans hfail) (by simp)
  | count j₀ status =>
    exact ⟨fun ⟨ha, hrep, hne⟩ => counted_record ha hrep hne, fun j h => h.record status,
      fun j _ => .refl _ j, tally.failure_le_record _⟩

/-! ## The invariant of one phase -/

/-- The loop has been left by one of its exits. -/
def LoopPc.leaving : LoopPc → Bool
  | finishing _ | posting => true
  | _ => false

theorem LoopPc.todo_of_leaving {pc : LoopPc} (h : pc.leaving = true) : pc.todo = [] := by
  cases pc with
  | settling | aborting => exact absurd h (by simp [leaving])
  | _ => rfl

/-- The exit checks leave the loop only to finish. -/
theorem Phase.afterChecks_leaving {p : Phase} {drained : Bool}
    (h : (p.afterChecks drained).leaving = true) :
    ∃ status, p.afterChecks drained = .finishing status := by
  cases hexit : p.afterChecks drained with
  | finishing status => exact ⟨status, rfl⟩
  | posting =>
    unfold Phase.afterChecks at hexit
    repeat' split at hexit
    all_goals exact absurd hexit (by simp)
  | _ => rw [hexit] at h; exact absurd h (by simp [LoopPc.leaving])

/-- No row of the evaluation is hidden from the check. -/
structure Reporting (items : List ScheduleItem) (row : EvalRow) (p : Phase) : Prop where
  looping : Looping items p
  knows : ∀ item ∈ items, p.knows item.jobId = true
  staged : Staged items p (Awaited items row p) (Pursued items row p) (Due row)
    (Counted row p.tally)
  /-- Rows of an earlier life of the daemon, and of Jobs without a derivation. -/
  outside : ∀ j, (∀ item ∈ items, item.jobId ≠ j) → ∀ s, row.jobStatus j = some s →
    s.isSuccess = true ∨ 0 < p.tally.failure
  isOver : p.pc.leaving = true → ∀ item ∈ items, p.Ended item

/-- The conditions on the loop: it does not leave with work queued, and it does not count a build
    that was cancelled. -/
def Phase.HonestAct (p : Phase) : PhaseAct → Prop
  | .check => ¬ (p.cancel = true ∧ p.session.inFlight = [] ∧ 0 < p.session.strategy.pendingCount)
  | .join token => p.builds.lookup token ≠ some (.returned (.ok .cancelled))
  | _ => True

instance (p : Phase) (a : PhaseAct) : Decidable (p.HonestAct a) := by
  unfold Phase.HonestAct
  split <;> infer_instance

theorem Phase.honestAct_reorder {p : Phase} {s : DagStrategy} (hs : Shuffle p.session.strategy s)
    {a : PhaseAct} (h : p.HonestAct a) : (p.reorder s).HonestAct a := by
  cases a with
  | check =>
    intro ⟨hc, hset, hq⟩
    exact h ⟨hc, hset, (pendingCount_shuffle hs) ▸ hq⟩
  | join token => exact h
  | _ => trivial

namespace Reporting

variable {items : List ScheduleItem} {row row' : EvalRow} {p p' : Phase}

theorem reorder (h : Reporting items row p) {s : DagStrategy} (hs : Shuffle p.session.strategy s) :
    Reporting items row (p.reorder s) :=
  ⟨h.looping.reorder hs, h.knows, h.staged.reorder hs, h.outside,
    fun hpc item hi => (Looping.ended_reorder hs item).mpr (h.isOver hpc item hi)⟩

/-- An action that spawns, joins, counts and reports nothing. -/
theorem moves (h : Reporting items row p) (hloop : Looping items p')
    (hsession : p'.session = p.session) (hspecs : p'.specsById = p.specsById)
    (hbuilds : p'.builds = p.builds) (htally : p'.tally = p.tally)
    (htodo : p'.pc.todo = p.pc.todo) (hrow : ∀ j, Drifts row row' j)
    (hover : p'.pc.leaving = true → ∀ item ∈ items, p.Ended item) : Reporting items row' p' := by
  have hrej : ∀ j, p.Rejected items j → p'.Rejected items j := by
    intro j hr
    unfold Phase.Rejected Phase.specOf at hr ⊢
    rwa [hspecs]
  refine ⟨hloop, fun item hi => ?_, ?_, fun j hj s hs => ?_, fun hpc item hi => ?_⟩
  · unfold Phase.knows
    rw [hspecs]
    exact h.knows item hi
  · refine h.staged.same hsession htodo (fun item _ _ _ hw => ?_) (fun item _ d _ _ hb => ?_)
      (fun x _ hx => (hrow x.jobId).due hx) (fun item _ _ hv => ?_) h.looping
    · exact hw.imp (hrow _).openRow (hrej _)
    · intro b hl
      rw [hbuilds] at hl
      obtain ⟨hopen, hret⟩ := (hrow _).pursued hb b hl
      exact ⟨fun hb => (hopen hb).imp_right fun hr => ⟨hrej _ hr.1, hr.2⟩, hret⟩
    · rw [htally]
      exact (hrow _).counted hv
  · rw [htally]
    exact (hrow j).outside (h.outside j hj) hs
  · have hend := hover hpc item hi
    unfold Phase.Ended at hend ⊢
    rwa [hsession]

/-- Other parties may move open rows. -/
theorem drift (h : Reporting items row p) (hrow : ∀ j, Drifts row row' j) :
    Reporting items row' p :=
  h.moves h.looping rfl rfl rfl rfl rfl hrow h.isOver

/-- Where the loop leaves, every Job is counted. -/
theorem counted (h : Reporting items row p) (hpc : p.pc.leaving = true) (j : JobId) {s : JobStatus}
    (hs : row.jobStatus j = some s) : Counted row p.tally j := by
  by_cases hitem : ∃ item ∈ items, item.jobId = j
  · obtain ⟨item, hi, rfl⟩ := hitem
    exact h.staged.isOver (LoopPc.todo_of_leaving hpc) hi (h.isOver hpc item hi)
  · rcases h.outside j (fun item hi heq => hitem ⟨item, hi, heq⟩) s hs with hok | hf
    · exact Or.inl ⟨s, hs, hok⟩
    · exact Or.inr (Or.inl hf)

theorem honest (h : Reporting items row p) (hpc : p.pc.leaving = true) :
    Honest row p.tally.overallState := by
  refine ⟨fun hgreen j s hs => ?_, fun ⟨j, hj⟩ => ?_⟩
  · unfold JobTally.overallState at hgreen
    split at hgreen
    · exact absurd hgreen (by simp)
    · split at hgreen
      · exact absurd hgreen (by simp)
      · rename_i hf hi
        rcases h.counted hpc j hs with ⟨s', hs', hok⟩ | hf' | ⟨hi', -⟩
        · rw [hs, Option.some.injEq] at hs'
          exact hs' ▸ hok
        · exact absurd hf' hf
        · exact absurd hi' hi
  · rcases h.counted hpc j hj with ⟨s, hs, hok⟩ | hf | ⟨-, hne⟩
    · rw [hj, Option.some.injEq] at hs
      exact absurd (hs ▸ hok) (by decide)
    · exact if_pos hf
    · exact absurd hj hne

/-- A build task acts on a row of its own. -/
theorem build (h : Reporting items row p) (hnd : (items.map (·.jobId)).Nodup)
    {token : DispatchToken} {jobId : JobId} {spec : JobSpec} {state state' : BuildState}
    {write : Option RowWrite} {guards : List JobId}
    (ht : p.task token = some (jobId, spec, state))
    (hb : Built p.cancel spec state state' write) :
    Reporting items ((write.map (RowWrite.apply jobId row)).getD row)
      { p with builds := p.builds.insert token state', guards := guards } := by
  obtain ⟨d, hd, rfl, hj, hspec, hstate⟩ := Phase.task_eq_some ht
  obtain ⟨item₀, hi₀, rfl⟩ := h.looping.item_of_head hd hj
  obtain ⟨hopen, -⟩ := h.staged.building item₀ hi₀ d hd hj state hstate
  have hloop : Looping items { p with builds := p.builds.insert d.token state', guards := guards } := by
    refine h.looping.congr rfl (fun t b hl => ?_) (fun x hx => hx) id
    rw [HashMap.lookup_insert_eq]
    split
    · exact ⟨_, rfl⟩
    · exact ⟨b, hl⟩
  -- the other rows are not written
  have hrow : ∀ j, j ≠ item₀.jobId →
      Drifts row ((write.map (RowWrite.apply item₀.jobId row)).getD row) j := by
    intro j hne
    cases write with
    | none => exact .refl _ _
    | some r =>
      cases r with
      | dispatch => exact .dispatchJob _ _ _
      | finish status => exact .of_ne hne _
  have hended : ∀ item ∈ items, p.Ended item → item.jobId ≠ item₀.jobId := by
    intro item hi hend heq
    exact h.looping.not_ended_of_building hnd hd hi (heq ▸ hj) hend
  have hown : (state'.hasReturned = false →
        OpenRow ((write.map (RowWrite.apply item₀.jobId row)).getD row) item₀.jobId ∨
          (p.Rejected items item₀.jobId ∧ state' = .entered)) ∧
      ∀ o, state' = .returned o → o.finalStatus ∈ reportable ∧
        Agrees ((write.map (RowWrite.apply item₀.jobId row)).getD row) o.finalStatus
          item₀.jobId := by
    -- a failure is counted, whatever the row says
    have hfail : ∀ row : EvalRow, JobStatus.failure ∈ reportable ∧ Agrees row .failure item₀.jobId :=
      fun row => ⟨by decide, by simp [JobStatus.isSuccess], by simp⟩
    cases hb with
    | arm herr =>
      refine ⟨fun _ => Or.inl ((hopen rfl).resolve_right fun ⟨hrej, _⟩ => ?_), by simp⟩
      obtain ⟨spec', hspec', herr'⟩ := hrej.1
      rw [hspec, Option.some.injEq] at hspec'
      rw [← hspec', herr] at herr'
      exact absurd herr' (by simp)
    | dispatch hguard =>
      have hret : state.hasReturned = false := by
        cases state <;> simp_all [BuildState.holdsGuard, BuildState.hasReturned]
      refine ⟨fun _ => Or.inl ?_, by simp⟩
      refine (Drifts.dispatchJob row _ _).openRow ((hopen hret).resolve_right ?_)
      rintro ⟨-, rfl⟩
      exact absurd hguard (by simp [BuildState.holdsGuard])
    | rejected herr =>
      refine ⟨by simp [BuildState.hasReturned], ?_⟩
      rintro o ⟨⟩
      exact hfail _
    | @reported _ status hret herr hrep _ =>
      refine ⟨by simp [BuildState.hasReturned], ?_⟩
      rintro o ⟨⟩
      have hwas := (hopen hret).resolve_right fun ⟨hrej, hst⟩ => by
        obtain ⟨spec', hspec', herr'⟩ := hrej.1
        rw [hspec, Option.some.injEq] at hspec'
        rw [← hspec', herr hst] at herr'
        exact absurd herr' (by simp)
      refine ⟨hrep, fun _ => hwas.finishJob status, ?_⟩
      rintro rfl hf
      exact absurd ((hwas.finishJob .interrupted).symm.trans hf) (by simp)
    | killed | failed =>
      refine ⟨by simp [BuildState.hasReturned], ?_⟩
      rintro o ⟨⟩
      exact hfail _
  refine ⟨hloop, h.knows, ?_, fun j hj' s hs => ?_, h.isOver⟩
  · refine h.staged.same rfl rfl (fun item hi _ hnone hw => ?_) (fun item hi d' hd' hj' hpur => ?_)
      (fun x hx hdue => ?_) (fun item hi hend hv => ?_) h.looping
    · have hne : item.jobId ≠ item₀.jobId := fun heq => hnone d hd (heq ▸ hj)
      exact hw.imp_left (hrow _ hne).openRow
    · intro b hl
      by_cases htok : d'.token = d.token
      · obtain rfl := h.looping.eq_of_token hd' hd htok
        obtain heq : item₀.jobId = item.jobId := Option.some.inj (hj.symm.trans hj')
        rw [HashMap.lookup_insert_eq, if_pos rfl, Option.some.injEq] at hl
        rw [← heq, ← hl]
        exact hown
      · rw [HashMap.lookup_insert_eq, if_neg htok] at hl
        refine (hrow _ fun heq => htok ?_).pursued hpur b hl
        exact congrArg Dispatched.token (h.looping.eq_of_head hnd hd' hd hi hj' (heq ▸ hj))
    · obtain ⟨item, hi, hxj, hend⟩ := h.looping.owed x hx
      exact (hrow _ (hxj ▸ hended item hi hend)).due hdue
    · exact (hrow _ (hended item hi hend)).counted hv
  · exact (hrow j (fun heq => hj' item₀ hi₀ heq.symm)).outside (h.outside j hj') hs

/-- One action of the phase. -/
theorem acts (h : Reporting items row p) (hnd : (items.map (·.jobId)).Nodup) {e : EvalId}
    {a : PhaseAct} (hok : p.HonestAct a) (hact : PhaseActs e row p a row' p')
    (halive : p'.pc.alive = true) : Reporting items row' p' := by
  have hloop := h.looping.acts hnd hact halive
  have hquiet : ∀ j, Drifts row row j := Drifts.refl row
  cases hact with
  | look hpc =>
    refine h.moves hloop rfl rfl rfl rfl ?_ hquiet fun hl => ?_
    · rw [hpc]
      split <;> rfl
    · split at hl <;> exact absurd hl (by simp [LoopPc.leaving])
  | noPermit hpc | wake hpc | polled hpc | permit hpc | sleep hpc | settled hpc =>
    exact h.moves hloop rfl rfl rfl rfl (by rw [hpc]; rfl) hquiet (by simp [LoopPc.leaving])
  | @idle s hpc hd =>
    exact ⟨hloop, h.knows, h.staged.idle h.looping hpc hd rfl, h.outside, by simp [LoopPc.leaving]⟩
  | @spawned d s hpc hd =>
    refine ⟨hloop, h.knows, ?_, h.outside, fun hl => ?_⟩
    · refine h.staged.spawned h.looping hnd hpc hd (fun j hw b hl => ?_) fun j d' hne hb b hl => ?_
      · rw [HashMap.lookup_insert_eq, if_pos rfl, Option.some.injEq] at hl
        subst hl
        exact ⟨fun _ => hw.imp_right fun hr => ⟨hr, rfl⟩, by simp⟩
      · rw [HashMap.lookup_insert_eq, if_neg hne] at hl
        exact hb b hl
    · exact absurd hl (by simp [hpc, LoopPc.leaving])
  | @check drained hpc =>
    refine h.moves hloop rfl rfl rfl rfl ?_ hquiet fun hl item hi => ?_
    · rw [hpc]
      exact Looping.afterChecks_todo p drained
    · -- the loop left by its first exit
      obtain ⟨status, hexit⟩ := Phase.afterChecks_leaving hl
      obtain ⟨-, hset, hq | ⟨hc, hq⟩⟩ := h.looping.exit hpc hexit
      · exact h.looping.ended_of_drained hset hq hi
      · exact absurd ⟨hc, hset, hq⟩ hok
  | abort | aborted | skip | drained => exact absurd halive (by simp [LoopPc.alive])
  | @join drained token jobId spec outcome hpc ht =>
    obtain ⟨d, hd, rfl, hj, -, hstate⟩ := Phase.task_eq_some ht
    have hne : outcome.finalStatus ≠ .cancelled := by
      intro hc
      refine hok (hstate.trans ?_)
      cases outcome with
      | ok status => rw [show status = .cancelled from hc]
      | err => exact absurd hc (by simp [Outcome.finalStatus])
    obtain ⟨item₀, hi₀, hij⟩ := h.looping.item_of_head hd hj
    have hret := (h.staged.building item₀ hi₀ d hd (hij ▸ hj) _ hstate).2 outcome rfl
    refine ⟨hloop, h.knows, ?_, h.outside, by simp [LoopPc.leaving]⟩
    refine h.staged.join h.looping hnd hd hj (by rw [hpc]; rfl) outcome.finalStatus
      (fun _ _ => trivial) (fun item hi halias hw => ?_) (fun hb => ?_) fun j d' hne' hb b hl => ?_
    · refine ⟨hw.resolve_right fun hrej => ?_, hret.1, hne⟩
      -- a rejected Job has no aliases
      rw [hrej.2 _ (List.mem_of_mem_drop halias)] at halias
      exact absurd halias (by simp)
    · exact ⟨((hb _ hstate).2 outcome rfl).2, hret.1, hne⟩
    · rw [Phase.joined_eq] at hl
      have hl' := (HashMap.lookup_erase_eq d.token d'.token p.builds).symm.trans hl
      rw [if_neg hne'] at hl'
      exact hb b hl'
  | @settle x todo hpc =>
    have hmem : x ∈ p.pc.todo := by rw [hpc]; exact List.mem_cons_self
    obtain ⟨item₀, hi₀, hxj, -⟩ := h.looping.owed x hmem
    rw [← hxj, h.knows item₀ hi₀] at hloop ⊢
    obtain ⟨hx, hmono, hothers, hfail⟩ := x.apply_counted row p.tally
    refine ⟨hloop, h.knows, ?_, fun j hj s hs => ?_, by simp [LoopPc.leaving]⟩
    · refine h.staged.settle h.looping hnd hpc (fun j hne hw => ?_) (fun j d hne hb => ?_)
        (fun y hne hy => ?_) (fun _ => hx) hmono
      · exact hw.imp_left (hothers j hne).openRow
      · exact (hothers j hne).pursued hb
      · exact (hothers _ hne).due hy
    · refine ((hothers j fun heq => ?_).outside (h.outside j hj) hs).imp_right hfail.trans_lt'
      exact hj item₀ hi₀ (hxj.trans heq.symm)
  | drain hpc ht =>
    rw [Phase.joined_eq] at halive
    exact absurd halive (by simp [hpc, LoopPc.alive])
  | @finish status hpc =>
    refine h.moves hloop rfl rfl rfl rfl ?_ (Drifts.of_jobs (EvalRow.jobs_guardedStatus _ _))
      fun _ => h.isOver (by rw [hpc]; rfl)
    rw [hpc]
    split <;> rfl
  | post hpc => exact absurd halive (by simp [LoopPc.alive])
  | build ht hb => exact h.build hnd ht (buildOne_built hb)
  | dropGuard hg => exact h.moves hloop rfl rfl rfl rfl rfl (Drifts.interruptIfRunning _ _) h.isOver
  | supersede =>
    exact h.moves hloop rfl rfl rfl rfl rfl (Drifts.of_jobs (EvalRow.jobs_guardedStatus _ _)) h.isOver
  | fire => exact h.moves hloop rfl rfl rfl rfl rfl hquiet h.isOver

end Reporting

/-! ## What a phase is handed -/

/-- Every handed Job is open, or has an eval error and a derivation of its own; every other row is
    a success, unless an eval error is counted up front. -/
def Ready (row : EvalRow) (persisted : Persisted) : Prop :=
  (∀ q ∈ persisted, q.1.drvPath.isSome = true → OpenRow row q.2 ∨
    (q.1.error.isSome = true ∧ ∀ q' ∈ persisted, q'.1.drvPath = q.1.drvPath → q' = q)) ∧
  ((∃ q ∈ persisted, q.1.drvPath = none) ∨ ∀ x ∈ row.jobs.entries,
    x.1 ∈ persisted.map Prod.snd ∨ x.2.status.isSuccess = true)

instance (row : EvalRow) (persisted : Persisted) : Decidable (Ready row persisted) :=
  inferInstanceAs (Decidable (_ ∧ _))

theorem failure_evalErrorTally {persisted : Persisted} (h : ∃ q ∈ persisted, q.1.drvPath = none) :
    0 < (Phase.evalErrorTally persisted).failure := by
  have hle : ∀ (l : Persisted) (tally : JobTally), tally.failure ≤
      (l.foldl (fun tally p => if p.1.drvPath.isSome then tally else tally.record .failure)
        tally).failure := by
    intro l
    induction l with
    | nil => exact fun _ => le_rfl
    | cons q l ih =>
      intro tally
      rw [List.foldl_cons]
      split
      · exact ih tally
      · exact (tally.failure_le_record _).trans (ih _)
  obtain ⟨q, hq, hd⟩ := h
  obtain ⟨l₁, l₂, rfl⟩ := List.append_of_mem hq
  rw [Phase.evalErrorTally, List.foldl_append, List.foldl_cons, hd]
  exact (JobTally.failure_record_failure _).trans_le (hle l₂ _)

theorem specOf_start {persisted : Persisted} (hids : (persisted.map Prod.snd).Nodup)
    {q : JobSpec × JobId} (hq : q ∈ persisted) (s : DagStrategy) (cancel : Bool) :
    (Phase.start persisted s cancel).specOf q.2 = some q.1 := by
  have hfind : (persisted.find? fun q' => q'.2 = q.2) = some q := by
    have hsome : (persisted.find? fun q' => q'.2 = q.2).isSome = true :=
      List.find?_isSome.mpr ⟨q, hq, by simp⟩
    obtain ⟨q', hq'⟩ := Option.isSome_iff_exists.mp hsome
    rw [hq', List.inj_on_of_nodup_map hids (List.mem_of_find?_eq_some hq') hq
      (by simpa using List.find?_some hq')]
  show (persisted.find? fun q' => q'.2 = q.2).map Prod.fst = some q.1
  rw [hfind]
  rfl

theorem Reporting.start {row : EvalRow} {persisted : Persisted} {walk : ClosureWalk}
    {repoId : RepoId} {e : EvalId} {s : DagStrategy} (hk : walk.Keyed)
    (henq : Enqueued none (scheduleItems walk repoId e persisted) s)
    (hids : (persisted.map Prod.snd).Nodup) (hready : Ready row persisted) (cancel : Bool) :
    Reporting (scheduleItems walk repoId e persisted) row (Phase.start persisted s cancel) := by
  have hnd := nodup_scheduleItems walk repoId e hids
  refine ⟨.start henq (flat_scheduleItems hk repoId e persisted) hnd persisted cancel, ?_, ?_, ?_,
    by simp [Phase.start, LoopPc.leaving]⟩
  · intro item hi
    obtain ⟨q, hq, hj, -⟩ := mem_scheduleItems hi
    exact List.any_eq_true.mpr ⟨q, hq, by simpa using hj⟩
  · refine ⟨fun item hi _ _ => ?_, fun item _ d hd => absurd hd (by simp [Phase.start, Session.start]),
      fun x hx => absurd hx (by simp [Phase.start, LoopPc.todo]), fun item _ hend => ?_⟩
    · obtain ⟨q, hq, hj, hd⟩ := mem_scheduleItems hi
      rw [← hj]
      refine (hready.1 q hq (by rw [hd]; rfl)).imp_right fun halone => ?_
      obtain ⟨herr, halone⟩ := halone
      refine ⟨⟨q.1, specOf_start hids hq s cancel, herr⟩, fun k hk => ?_⟩
      -- no other item has this derivation
      have hpath : item.headDrv.drvPath = k :=
        jobsAt_unique hnd (mem_jobsAt_iff.mpr ⟨item, hi, rfl, hj.symm⟩) hk
      have hall : ∀ j ∈ jobsAt (scheduleItems walk repoId e persisted) k, j = q.2 := by
        intro j hjk
        obtain ⟨item', hi', hpath', rfl⟩ := mem_jobsAt_iff.mp hjk
        obtain ⟨q', hq', hj', hd'⟩ := mem_scheduleItems hi'
        rw [← hj', halone q' hq' (by rw [hd', hd, hpath', hpath])]
      exact List.perm_singleton.mp ((List.perm_ext_iff_of_nodup (jobsAt_nodup hnd k) (by simp)).mpr
        fun j => ⟨fun hjk => List.mem_singleton.mpr (hall j hjk), fun hjs => List.mem_singleton.mp hjs ▸ hk⟩)
    · obtain ⟨st, hl, hterm⟩ := hend
      rcases henq.loaded.fresh _ st hl with hp | hp <;> rw [hp] at hterm <;>
        exact absurd hterm (by decide)
  · intro j hj st hst
    rcases hready.2 with herr | hrest
    · exact Or.inr (failure_evalErrorTally herr)
    · obtain ⟨job, hl, hjob⟩ := Option.map_eq_some_iff.mp hst
      rcases hrest ⟨j, job⟩ (HashMap.mem_entries_iff.mpr hl) with hin | hok
      · obtain ⟨q, hq, hqj⟩ := List.mem_map.mp hin
        cases hd : q.1.drvPath with
        | none => exact Or.inr (failure_evalErrorTally ⟨q, hq, hd⟩)
        | some d =>
          obtain ⟨item, hi, hij⟩ := exists_scheduleItem walk repoId e hq (by rw [hd]; rfl)
          exact absurd (hij.trans hqj) (hj item hi)
      · exact Or.inl (hjob ▸ hok)

/-! ## Phases that have ended -/

/-- Past the loop nothing is in flight. -/
def Phase.Quiet (p : Phase) : Prop :=
  (p.pc.leaving = true ∨ p.pc = .ended) → p.session.inFlight = []

theorem Phase.Quiet.acts {e : EvalId} {row row' : EvalRow} {p p' : Phase} {a : PhaseAct}
    (h : p.Quiet) (hact : PhaseActs e row p a row' p') : p'.Quiet := by
  cases hact with
  | look hpc =>
    rintro (hl | hl)
    · split at hl <;> exact absurd hl (by simp [LoopPc.leaving])
    · split at hl <;> exact absurd hl (by simp)
  | noPermit | idle | wake | abort | polled | join | permit | sleep | settled | settle | aborted
  | skip =>
    rintro (hl | hl)
    · exact absurd hl (by simp [LoopPc.leaving])
    · exact absurd hl (by simp)
  | spawned hpc | drain hpc =>
    rintro (hl | hl)
    · exact absurd hl (by simp [Phase.joined_eq, hpc, LoopPc.leaving])
    · exact absurd hl (by simp [Phase.joined_eq, hpc])
  | @check drained hpc =>
    intro hl
    show p.session.inFlight = []
    unfold Phase.afterChecks at hl
    by_contra hset
    simp [hset, LoopPc.leaving] at hl
  | drained hpc hset => exact fun _ => hset
  | finish hpc => exact fun _ => h (Or.inl (by rw [hpc]; rfl))
  | post hpc => exact fun _ => h (Or.inl (by rw [hpc]; rfl))
  | build | dropGuard | supersede | fire => exact h

/-- A phase that has ended stays so, and moves open rows at most. -/
theorem PhaseActs.of_ended {e : EvalId} {row row' : EvalRow} {p p' : Phase} {a : PhaseAct}
    (hact : PhaseActs e row p a row' p') (hend : p.pc = .ended) (hquiet : p.Quiet) :
    p'.pc = .ended ∧ ∀ j, Drifts row row' j := by
  cases hact with
  | look hpc | noPermit hpc | idle hpc | spawned hpc | check hpc | wake hpc | abort hpc
  | polled hpc | join hpc | permit hpc | sleep hpc | settled hpc | settle hpc | aborted hpc
  | skip hpc | drain hpc | drained hpc | finish hpc | post hpc =>
    exact absurd (hend.symm.trans hpc) (by simp)
  | build ht =>
    obtain ⟨d, hd, -⟩ := Phase.task_eq_some ht
    rw [hquiet (Or.inr hend)] at hd
    exact absurd hd (by simp)
  | dropGuard => exact ⟨hend, Drifts.interruptIfRunning _ _⟩
  | supersede => exact ⟨hend, Drifts.of_jobs (EvalRow.jobs_guardedStatus _ _)⟩
  | fire => exact ⟨hend, Drifts.refl _⟩

/-! ## Runs of the daemon -/

/-- The worker is about to spawn a phase that can be honest. -/
def World.ReadyToSpawn (w : World) : Prop :=
  match w.worker with
  | .walking e persisted => ∀ row ∈ w.evals.lookup e, Ready row persisted
  | _ => True

/-- **When the check is honest.** -/
def HonestWhen (w : World) : Action → Prop
  | .receive => ∀ e ∈ w.channel.head?, ∀ x ∈ w.phases, x.1 = e → x.2.pc = .ended
  | .spawn _ => w.ReadyToSpawn
  | .phase i a => ∀ x ∈ w.phases[i]?, x.2.HonestAct a
  | _ => True

instance (w : World) : Decidable w.ReadyToSpawn := by
  unfold World.ReadyToSpawn
  split <;> infer_instance

instance (w : World) (a : Action) : Decidable (HonestWhen w a) := by
  unfold HonestWhen
  split <;> infer_instance

/-- The rows of `e` have drifted. -/
def World.Drift (w w' : World) (e : EvalId) : Prop :=
  ∀ row, w.evals.lookup e = some row →
    ∃ row', w'.evals.lookup e = some row' ∧ ∀ j, Drifts row row' j

theorem World.Drift.same {w w' : World} (h : w'.evals = w.evals) (e : EvalId) : w.Drift w' e :=
  fun row hl => ⟨row, h ▸ hl, Drifts.refl row⟩

theorem World.Drift.update {w w' : World} {e e' : EvalId} {f : EvalRow → EvalRow}
    (h : w'.evals = (w.update e f).evals)
    (hf : e' = e → ∀ row, w.evals.lookup e = some row → ∀ j, Drifts row (f row) j) :
    w.Drift w' e' := by
  intro row hl
  rw [h, World.lookup_update]
  split
  · rename_i heq
    subst heq
    exact ⟨f row, by rw [hl]; rfl, hf rfl row hl⟩
  · exact ⟨row, hl, Drifts.refl row⟩

/-- The invariant of every honest run. -/
structure Truthful (w : World) : Prop where
  handed : Handed w
  quiet : ∀ x ∈ w.phases, x.2.Quiet
  /-- An evaluation has one phase at a time, … -/
  alone : ∀ (i k : ℕ) (x y : EvalId × Phase), i ≠ k → w.phases[i]? = some x →
    w.phases[k]? = some y → x.1 = y.1 → x.2.pc = .ended ∨ y.2.pc = .ended
  /-- … and none while the worker is at it. -/
  free : ∀ x ∈ w.phases, w.worker.evalId = some x.1 → x.2.pc = .ended
  reporting : ∀ x ∈ w.phases, x.2.pc.alive = true → ∃ items row,
    (items.map (·.jobId)).Nodup ∧ w.evals.lookup x.1 = some row ∧ Reporting items row x.2

namespace Truthful

variable {w w' : World} {a : Action}

/-- An action that touches no phase, and no row of a running one but to let it drift. -/
theorem moves (h : Truthful w) (hh : Handed w') (hphases : w'.phases = w.phases)
    (hworker : ∀ x ∈ w.phases, w'.worker.evalId = some x.1 → x.2.pc = .ended)
    (hrows : ∀ x ∈ w.phases, x.2.pc.alive = true → w.Drift w' x.1) : Truthful w' := by
  refine ⟨hh, hphases ▸ h.quiet, hphases ▸ h.alone, hphases ▸ hworker, ?_⟩
  rw [hphases]
  intro x hx halive
  obtain ⟨items, row, hnd, hl, hrep⟩ := h.reporting x hx halive
  obtain ⟨row', hl', hdrift⟩ := hrows x hx halive row hl
  exact ⟨items, row', hnd, hl', hrep.drift hdrift⟩

/-- The phases of the evaluation the worker is at are not running. -/
theorem ne_of_alive (h : Truthful w) {e : EvalId} (hw : w.worker.evalId = some e)
    {x : EvalId × Phase} (hx : x ∈ w.phases) (halive : x.2.pc.alive = true) : x.1 ≠ e := by
  rintro rfl
  rw [h.free x hx hw] at halive
  exact absurd halive (by decide)

theorem spawn (h : Truthful w) {e : EvalId} {persisted : Persisted} {row : EvalRow}
    {s : DagStrategy} {walk : ClosureWalk} (hw : w.worker = .walking e persisted)
    (hl : w.evals.lookup e = some row) (hk : walk.Keyed)
    (henq : Enqueued none (scheduleItems walk row.repoId e persisted) s)
    (hh : Handed (w.spawned e persisted s)) (hready : Ready row persisted) :
    Truthful (w.spawned e persisted s) := by
  have hids : (persisted.map Prod.snd).Nodup := by
    have := h.handed.nodup
    rwa [hw] at this
  have hev : w.worker.evalId = some e := by rw [hw]; rfl
  -- a phase of the new list is an old one or the one that is spawned
  have hget : ∀ i x, (w.spawned e persisted s).phases[i]? = some x →
      w.phases[i]? = some x ∨ (i = w.phases.length ∧ x = (e, Phase.start persisted s w.cancel)) := by
    intro i x hx
    rcases lt_or_ge i w.phases.length with hi | hi
    · exact Or.inl ((List.getElem?_append_left hi).symm.trans hx)
    · have := (List.getElem?_append_right hi).symm.trans hx
      have hzero : i - w.phases.length = 0 := by
        by_contra hne
        rw [List.getElem?_singleton, if_neg hne] at this
        exact absurd this (by simp)
      rw [hzero] at this
      exact Or.inr ⟨by omega, (Option.some.inj this).symm⟩
  have hmem : ∀ x ∈ (w.spawned e persisted s).phases,
      x ∈ w.phases ∨ x = (e, Phase.start persisted s w.cancel) := by
    intro x hx
    exact (List.mem_append.mp hx).imp_right List.mem_singleton.mp
  refine ⟨hh, fun x hx => ?_, fun i k x y hne hi hk hxy => ?_, fun x _ hx => ?_, fun x hx halive => ?_⟩
  · rcases hmem x hx with hx | rfl
    · exact h.quiet x hx
    · exact fun _ => rfl
  · rcases hget i x hi with hi | ⟨rfl, rfl⟩ <;> rcases hget k y hk with hk | ⟨rfl, rfl⟩
    · exact h.alone i k x y hne hi hk hxy
    · exact Or.inl (h.free x (List.mem_of_getElem? hi) (hxy ▸ hev))
    · exact Or.inr (h.free y (List.mem_of_getElem? hk) (hxy ▸ hev))
    · exact absurd rfl hne
  · exact absurd hx (by simp [World.spawned, WorkerPc.evalId])
  · rcases hmem x hx with hx | rfl
    · exact h.reporting x hx halive
    · exact ⟨_, row, nodup_scheduleItems walk row.repoId e hids, hl,
        .start hk henq hids hready w.cancel⟩

theorem phase (h : Truthful w) {i : ℕ} {e : EvalId} {p p' : Phase} {row row' : EvalRow}
    {b : PhaseAct} (hi : w.phases[i]? = some (e, p)) (hl : w.evals.lookup e = some row)
    (hok : p.HonestAct b) (hs : PhaseStep e row p b row' p')
    (hh : Handed (w.stepped i e row' p')) : Truthful (w.stepped i e row' p') := by
  obtain ⟨s, hshuffle, hact⟩ := hs.acts
  have hp : (e, p) ∈ w.phases := List.mem_of_getElem? hi
  have hquiet : (p.reorder s).Quiet := h.quiet _ hp
  have hended : p.pc = .ended → p'.pc = .ended ∧ ∀ j, Drifts row row' j :=
    fun hend => hact.of_ended hend hquiet
  have hget : ∀ k x, (w.stepped i e row' p').phases[k]? = some x →
      (k ≠ i ∧ w.phases[k]? = some x) ∨ (k = i ∧ x = (e, p')) := by
    intro k x hx
    have hx' := List.getElem?_set.symm.trans hx
    by_cases hki : i = k
    · rw [if_pos hki] at hx'
      split at hx'
      · exact Or.inr ⟨hki.symm, (Option.some.inj hx').symm⟩
      · exact absurd hx' (by simp)
    · rw [if_neg hki] at hx'
      exact Or.inl ⟨fun heq => hki heq.symm, hx'⟩
  have hlook : ∀ e', (w.stepped i e row' p').evals.lookup e' =
      if e' = e then some row' else w.evals.lookup e' := by
    intro e'
    refine (w.lookup_update e e' fun _ => row').trans ?_
    rw [hl]
    rfl
  refine ⟨hh, fun x hx => ?_, fun k m x y hne hk hm hxy => ?_, fun x hx hw => ?_, fun x hx halive => ?_⟩
  · obtain ⟨k, hk⟩ := List.mem_iff_getElem?.mp hx
    rcases hget k x hk with ⟨-, hk⟩ | ⟨-, rfl⟩
    · exact h.quiet x (List.mem_of_getElem? hk)
    · exact hquiet.acts hact
  · rcases hget k x hk with ⟨-, hk'⟩ | ⟨rfl, rfl⟩ <;> rcases hget m y hm with ⟨-, hm'⟩ | ⟨rfl, rfl⟩
    · exact h.alone k m x y hne hk' hm' hxy
    · exact (h.alone k m x (e, p) hne hk' hi hxy).imp_right fun hend => (hended hend).1
    · exact (h.alone k m (e, p) y hne hi hm' hxy).imp_left fun hend => (hended hend).1
    · exact absurd rfl hne
  · obtain ⟨k, hk⟩ := List.mem_iff_getElem?.mp hx
    rcases hget k x hk with ⟨-, hk⟩ | ⟨-, rfl⟩
    · exact h.free x (List.mem_of_getElem? hk) hw
    · exact (hended (h.free _ hp hw)).1
  · obtain ⟨k, hk⟩ := List.mem_iff_getElem?.mp hx
    rcases hget k x hk with ⟨hne, hk⟩ | ⟨-, rfl⟩
    · obtain ⟨items, row₀, hnd, hl₀, hrep⟩ := h.reporting x (List.mem_of_getElem? hk) halive
      rw [hlook]
      split
      · -- this phase is running, so the one that acted has ended
        rename_i heq
        rw [heq, hl, Option.some.injEq] at hl₀
        subst hl₀
        have hend : p.pc = .ended := by
          refine (h.alone k i x (e, p) hne hk hi heq).resolve_left fun hend => ?_
          rw [hend] at halive
          exact absurd halive (by decide)
        exact ⟨items, row', hnd, rfl, hrep.drift (hended hend).2⟩
      · exact ⟨items, row₀, hnd, hl₀, hrep⟩
    · have hwas : (p.reorder s).pc.alive = true := Looping.alive_of_acts hact halive
      obtain ⟨items, row₀, hnd, hl₀, hrep⟩ := h.reporting _ hp hwas
      rw [hl, Option.some.injEq] at hl₀
      subst hl₀
      refine ⟨items, row', hnd, by rw [hlook, if_pos rfl], ?_⟩
      exact (hrep.reorder hshuffle).acts hnd (Phase.honestAct_reorder hshuffle hok) hact halive

theorem step (h : Truthful w) (hok : HonestWhen w a) (hd : Acts w a w') : Truthful w' := by
  have hh := h.handed.step hd
  have hguarded : ∀ (status : EvalStatus) (row : EvalRow) (j : JobId),
      Drifts row (row.guardedStatus status) j :=
    fun status row j => .of_jobs (EvalRow.jobs_guardedStatus _ _) j
  cases hd with
  | boot hm =>
    refine h.moves hh rfl h.free fun x _ _ row hl => ⟨row.markRunningInterrupted, ?_, ?_⟩
    · exact (HashMap.lookup_mapValues _ x.1 w.evals).trans (by rw [hl]; rfl)
    · exact Drifts.markRunningInterrupted row
  | recover hr =>
    obtain ⟨hw, -, hp, hrows⟩ := World.recover_rows hr
    refine h.moves hh hp (hw ▸ h.free) fun x _ _ => ?_
    rcases hrows with hrows | ⟨e, -, -, hrows⟩ | ⟨e, -, -, hrows⟩
    · exact .same hrows _
    · exact .update hrows fun _ row _ j => .of_jobs rfl j
    · exact .update hrows fun _ row _ j => .requeueInterrupted row j
  | @submit e repoId hm hnone =>
    refine h.moves hh rfl h.free fun x _ _ row hl => ⟨row, ?_, Drifts.refl row⟩
    have hne : x.1 ≠ e := fun heq => absurd (hnone.symm.trans (heq ▸ hl)) (by simp)
    exact (HashMap.lookup_insert_eq e x.1 _ w.evals).trans (by rw [if_neg hne, hl])
  | @supersede e hm =>
    exact h.moves hh rfl h.free fun x _ _ => .update (e := e) rfl fun _ row _ => hguarded _ row
  | fire => exact h.moves hh rfl h.free fun x _ _ => .same rfl _
  | @receive e channel hw hc =>
    refine h.moves hh rfl (fun x hx he => ?_) fun x _ _ => .same rfl _
    refine hok e (by rw [hc]; rfl) x hx ?_
    exact (Option.some.inj he).symm
  | dropped hw => exact h.moves hh rfl (by simp [WorkerPc.evalId]) fun x _ _ => .same rfl _
  | resumed hw | load hw | persisted hw =>
    refine h.moves hh rfl (fun x hx he => h.free x hx ?_) fun x _ _ => .same rfl _
    rw [hw]
    exact he
  | @started e row hw =>
    refine h.moves hh rfl (fun x hx he => h.free x hx ?_)
      fun x _ _ => .update (e := e) rfl fun _ row _ => hguarded _ row
    rw [hw]
    exact he
  | @evaluated e jobs hw =>
    refine h.moves hh rfl (fun x hx he => h.free x hx ?_)
      fun x _ _ => .update (e := e) rfl fun _ row _ => hguarded _ row
    rw [hw]
    exact he
  | @abandon e hw =>
    exact h.moves hh rfl (by simp [WorkerPc.evalId])
      fun x _ _ => .update (e := e) rfl fun _ row _ => hguarded _ row
  | @fail e hw =>
    exact h.moves hh rfl (by simp [WorkerPc.evalId])
      fun x _ _ => .update (e := e) rfl fun _ row _ => hguarded _ row
  | @createRow e _ _ _ _ _ hw | @describe e _ _ _ _ hw | @conclude e _ _ _ _ hw =>
    -- no phase of this evaluation is running
    have hev : w.worker.evalId = some e := by rw [hw]; rfl
    refine h.moves hh rfl (fun x hx he => h.free x hx (hev.trans he)) fun x hx halive row hl => ?_
    refine ⟨row, (w.lookup_update e x.1 _).trans ?_, Drifts.refl row⟩
    rw [if_neg (h.ne_of_alive hev hx halive), hl]
  | @spawn e persisted row s walk hw hl hk henq =>
    refine h.spawn hw hl hk henq hh ?_
    have hready : w.ReadyToSpawn := hok
    rw [World.ReadyToSpawn, hw] at hready
    exact hready row hl
  | @phase i e p p' row row' b hi hl hr hs => exact h.phase hi hl (hok _ hi) hs hh
  | crash =>
    exact ⟨hh, by simp [World.down], by simp [World.down], by simp [World.down],
      by simp [World.down]⟩

theorem start (evals : HashMap EvalId EvalRow) : Truthful (World.down evals) :=
  ⟨⟨by simp [World.down, WorkerPc.handed], by simp [World.down, WorkerPc.handed]⟩,
    by simp [World.down], by simp [World.down], by simp [World.down], by simp [World.down]⟩

theorem run {evals : HashMap EvalId EvalRow} (h : Run HonestWhen (World.down evals) w) :
    Truthful w := by
  induction h with
  | refl => exact .start evals
  | step _ hok hd ih => exact ih.step hok hd.acts

end Truthful

/-- **The overall check is honest**, in every run of the daemon, with any number of crashes, whose
    steps all meet the condition. -/
theorem honest_of_run (evals : HashMap EvalId EvalRow) (w : World)
    (h : Run HonestWhen (World.down evals) w) :
    ∀ e p, (e, p) ∈ w.phases → p.pc = .posting →
      ∃ row, w.evals.lookup e = some row ∧ Honest row p.tally.overallState := by
  intro e p hp hpc
  obtain ⟨items, row, -, hl, hrep⟩ := (Truthful.run h).reporting (e, p) hp (by rw [hpc]; rfl)
  exact ⟨row, hl, hrep.honest (by rw [hpc]; rfl)⟩

/-- One Job succeeds and one fails. -/
def oneFails : List Action :=
  bootUp 7 ++ evaluateTwo ++
    phaseScript (spawnTasks 2 ++ buildAndJoin ⟨0⟩ true ++ buildAndJoin ⟨1⟩ false ++ [.finish])

theorem oneFails_posts :
    ((World.down queuedAtBoot).script HonestWhen oneFails).map
        (fun w => w.phases.map fun x => (x.1, x.2.pc, x.2.tally.overallState))
      = some [(⟨1⟩, .posting, .failure)] := by
  rfl

theorem honest_one_fails : ∃ w p row, Run HonestWhen (World.down queuedAtBoot) w ∧
    (⟨1⟩, p) ∈ w.phases ∧ p.tally.overallState = .failure ∧ w.evals.lookup ⟨1⟩ = some row ∧
      Honest row p.tally.overallState := by
  obtain ⟨w, hscript, hphases⟩ := Option.map_eq_some_iff.mp oneFails_posts
  obtain ⟨⟨e, p⟩, hp, hx⟩ := List.map_eq_singleton_iff.mp hphases
  obtain ⟨rfl, hpc, hstate⟩ : e = ⟨1⟩ ∧ p.pc = .posting ∧ p.tally.overallState = .failure := by
    simpa using hx
  have hmem : ((⟨1⟩ : EvalId), p) ∈ w.phases := by rw [hp]; exact List.mem_singleton.mpr rfl
  obtain ⟨row, hl, hhonest⟩ := honest_of_run queuedAtBoot w (.of_script hscript) ⟨1⟩ p hmem hpc
  exact ⟨w, p, row, .of_script hscript, hmem, hstate, hl, hhonest⟩

/-! ## A resume forgets failures -/

/-- Job 1 has failed when the daemon crashes; the resumed phase is handed Job 2 only. -/
def failedBeforeCrash : List Action :=
  bootUp 7 ++ evaluateTwo ++ phaseScript (spawnTasks 2 ++ buildAndJoin ⟨0⟩ false) ++
    .crash :: bootUp 8 ++ resume ++
    phaseScript (spawnTasks 1 ++ buildAndJoin ⟨0⟩ true ++ [.finish])

theorem failedBeforeCrash_posts :
    ((World.down queuedAtBoot).script AnyStep failedBeforeCrash).map
        (fun w => (w.phases.map fun x => (x.1, x.2.pc, x.2.tally.overallState),
          (w.evals.lookup ⟨1⟩).bind fun row => row.jobStatus ⟨1⟩))
      = some ([(⟨1⟩, .posting, .success)], some .failure) := by
  rfl

theorem not_honest_resumed :
    ¬ ∀ (evals : HashMap EvalId EvalRow) (w : World), Run AnyStep (World.down evals) w →
      ∀ e p, (e, p) ∈ w.phases → p.pc = .posting →
        ∃ row, w.evals.lookup e = some row ∧ Honest row p.tally.overallState := by
  intro h
  obtain ⟨w, hscript, hw⟩ := Option.map_eq_some_iff.mp failedBeforeCrash_posts
  obtain ⟨hphases, hjob⟩ := Prod.mk.inj hw
  obtain ⟨⟨e, p⟩, hp, hx⟩ := List.map_eq_singleton_iff.mp hphases
  obtain ⟨rfl, hpc, hstate⟩ : e = ⟨1⟩ ∧ p.pc = .posting ∧ p.tally.overallState = .success := by
    simpa using hx
  obtain ⟨row, hl, -, hred⟩ := h queuedAtBoot w (.of_script hscript) ⟨1⟩ p
    (by rw [hp]; exact List.mem_singleton.mpr rfl) hpc
  rw [hl, Option.bind_some] at hjob
  exact absurd (hstate.symm.trans (hred ⟨⟨1⟩, hjob⟩)) (by simp)

end Argunix.Daemon
