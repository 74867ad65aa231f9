import Argunix.Daemon.World

/-!
# What survives a crash: the Job rows and their specs

`process` writes a row for every spec of an evaluation, then its `spec_json`, and hands the list
to the build phase. A crash takes the list; a resume reads it back off the rows, **but only the
rows that are still queued** (`loadJobsForResume`).

* Only the persist loop adds rows or specs (`Acts.specs`). So what a first evaluation has persisted
  is in the rows from then on, whatever crashes and recoveries follow (`Recorded.run`,
  `Whole.run`).
* What a resumed phase is handed is the persisted list without the Jobs whose rows have left
  `queued` (`loadJobsForResume_eq`).
-/

set_option autoImplicit false

namespace Argunix.Daemon

open Argunix.Lib Argunix.Sched Argunix.Sched.DagStrategy Argunix.Eval Argunix.Store

/-! ## Who writes rows and specs -/

/-- What an action adds to the rows of the evaluation. -/
inductive Adds (e : EvalId) (w : World) : Action → World → EvalRow → EvalRow → Prop
  | nothing {a : Action} {w' : World} {row row' : EvalRow} : row'.specs = row.specs →
      Adds e w a w' row row'
  | row {w' : World} {row row' : EvalRow} {spec : JobSpec} {todo : List JobSpec}
      {persisted : Persisted} {jobId : JobId} : w.worker = .persisting e (spec :: todo) persisted →
      row.NewId jobId → w'.worker = .describing e spec jobId todo persisted →
      row'.specs = row.specs ++ [(jobId, none)] → Adds e w (.createRow jobId) w' row row'
  | spec {w' : World} {row row' : EvalRow} {spec : JobSpec} {todo : List JobSpec}
      {persisted : Persisted} {jobId : JobId} : w.worker = .describing e spec jobId todo persisted →
      w'.worker = .concluding e spec jobId todo persisted →
      row'.specs = row.specs.map (fun x => if x.1 = jobId then (x.1, some spec) else x) →
      Adds e w .describe w' row row'

/-- One statement, on one evaluation, seen from another or the same one. -/
theorem Adds.update {e e' : EvalId} {w w' : World} {a : Action} {f : EvalRow → EvalRow}
    {row : EvalRow} (h : w'.evals = (w.update e f).evals) (hl : w.evals.lookup e' = some row)
    (hf : w.evals.lookup e = some row → e' = e → Adds e' w a w' row (f row)) :
    ∃ row', w'.evals.lookup e' = some row' ∧ Adds e' w a w' row row' := by
  rw [h, World.lookup_update]
  by_cases heq : e' = e
  · subst heq
    exact ⟨f row, by rw [if_pos rfl, hl]; rfl, hf hl rfl⟩
  · exact ⟨row, by rw [if_neg heq, hl], .nothing rfl⟩

/-- **Only the persist loop adds to the rows.** -/
theorem Acts.adds {w w' : World} {a : Action} (h : Acts w a w') {e : EvalId} {row : EvalRow}
    (hl : w.evals.lookup e = some row) :
    ∃ row', w'.evals.lookup e = some row' ∧ Adds e w a w' row row' := by
  cases h with
  | boot hm =>
    refine ⟨row.markRunningInterrupted, ?_, .nothing (EvalRow.specs_updateJobs row _)⟩
    exact (HashMap.lookup_mapValues _ e w.evals).trans (by rw [hl]; rfl)
  | recover hr =>
    obtain ⟨-, -, -, h | ⟨e', -, -, h⟩ | ⟨e', -, -, h⟩⟩ := World.recover_rows hr
    · exact ⟨row, by rw [h, hl], .nothing rfl⟩
    · exact Adds.update h hl fun _ _ => .nothing rfl
    · exact Adds.update h hl fun _ _ => .nothing (EvalRow.specs_updateJobs row _)
  | @submit e' repoId hm hnone =>
    have hne : e ≠ e' := by
      rintro rfl
      exact absurd (hnone.symm.trans hl) (by simp)
    exact ⟨row, (HashMap.lookup_insert_eq e' e _ w.evals).trans (by rw [if_neg hne, hl]),
      .nothing rfl⟩
  | supersede | fail | evaluated =>
    refine Adds.update rfl hl fun _ _ => .nothing ?_
    exact EvalRow.specs_guardedStatus row _
  | @started e' =>
    refine Adds.update (e := e') (f := fun row => row.start .evaluating) rfl hl fun _ _ =>
      .nothing ?_
    exact EvalRow.specs_guardedStatus row _
  | @abandon e' =>
    refine Adds.update (e := e') (f := fun row => row.finish .cancelled) rfl hl fun _ _ =>
      .nothing ?_
    exact EvalRow.specs_guardedStatus row _
  | @createRow e' spec todo persisted row' jobId hw hl' hnew =>
    refine Adds.update (e := e')
      (f := fun row => row.createJob jobId spec.attrPath spec.drvPath (systemColumn spec)) rfl hl
      fun hl₀ heq => ?_
    rw [hl', Option.some.injEq] at hl₀
    subst hl₀ heq
    exact .row hw hnew rfl (EvalRow.specs_createJob hnew _ _ _)
  | @describe e' spec jobId todo persisted hw =>
    refine Adds.update (e := e') (f := fun row => row.setSpecJson jobId spec) rfl hl fun _ heq => ?_
    subst heq
    exact .spec hw rfl (EvalRow.specs_setSpecJson row jobId spec)
  | @conclude e' spec jobId _ _ hw =>
    refine Adds.update (e := e')
      (f := fun row => if spec.error.isSome then row.finishJob jobId .failure else row) rfl hl
      fun _ _ => .nothing ?_
    split
    · exact EvalRow.specs_updateJob row _ _
    · rfl
  | @phase i e' p p' row₀ row' b hi hl' _ hs =>
    obtain ⟨s, -, hact⟩ := hs.acts
    refine Adds.update rfl hl fun hl₀ _ => .nothing ?_
    rw [hl', Option.some.injEq] at hl₀
    exact hl₀ ▸ hact.specs
  | fire | receive | dropped | resumed | persisted | load | spawn | crash =>
    exact ⟨row, hl, .nothing rfl⟩

/-! ## The persist loop -/

/-- The rows of these Jobs, with their specs. -/
def described (persisted : Persisted) : List (JobId × Option JobSpec) :=
  persisted.map fun p => (p.2, some p.1)

/-- Every row of the evaluation is one of these Jobs, with its spec. -/
def Whole (row : EvalRow) (persisted : Persisted) : Prop := row.specs = described persisted

instance (row : EvalRow) (persisted : Persisted) : Decidable (Whole row persisted) :=
  inferInstanceAs (Decidable (row.specs = described persisted))

/-- The rows the worker has written for the evaluation it persists. -/
def WorkerPc.recorded : WorkerPc → Option (EvalId × List (JobId × Option JobSpec))
  | persisting e _ persisted => some (e, described persisted)
  | describing e _ jobId _ persisted => some (e, described persisted ++ [(jobId, none)])
  | concluding e spec jobId _ persisted => some (e, described persisted ++ [(jobId, some spec)])
  | idle | picked _ | evaluating _ | loading _ | walking _ _ => none

/-- The evaluation has no rows when its result comes in. -/
def FirstResult (w : World) : Action → Prop
  | .evaluated _ => ∀ e ∈ w.worker.evalId, ∀ row ∈ w.evals.lookup e, row.specs = []
  | _ => True

instance (w : World) (a : Action) : Decidable (FirstResult w a) := by
  unfold FirstResult
  split <;> infer_instance

/-- While the worker persists an evaluation, its rows are what has been persisted so far. -/
structure Recorded (w : World) : Prop where
  present : ∀ e, w.worker = .evaluating e → ∃ row, w.evals.lookup e = some row
  rows : ∀ e specs, w.worker.recorded = some (e, specs) →
    ∃ row, w.evals.lookup e = some row ∧ row.specs = specs

/-- The worker has not moved, and nothing was added. -/
theorem Recorded.stay {w w' : World} {a : Action} (h : Recorded w) (hd : Acts w a w')
    (hw : w'.worker = w.worker)
    (hkeep : ∀ e row row', Adds e w a w' row row' → row'.specs = row.specs) : Recorded w' := by
  constructor
  · intro e he
    obtain ⟨row, hl⟩ := h.present e (hw ▸ he)
    obtain ⟨row', hl', -⟩ := hd.adds hl
    exact ⟨row', hl'⟩
  · intro e specs he
    obtain ⟨row, hl, hrow⟩ := h.rows e specs (hw ▸ he)
    obtain ⟨row', hl', hadds⟩ := hd.adds hl
    exact ⟨row', hl', (hkeep e row row' hadds).trans hrow⟩

/-- The worker has turned to something else. -/
theorem Recorded.leave {w' : World} (he : ∀ e, w'.worker ≠ .evaluating e)
    (hr : w'.worker.recorded = none) : Recorded w' :=
  ⟨fun e h => absurd h (he e), fun _ _ h => absurd (hr.symm.trans h) (by simp)⟩

theorem described_concat (persisted : Persisted) (spec : JobSpec) (jobId : JobId) :
    described (persisted ++ [(spec, jobId)]) = described persisted ++ [(jobId, some spec)] := by
  simp [described]

/-- Describing the row just created leaves the others alone. -/
theorem described_describe {persisted : Persisted} {jobId : JobId}
    (hnd : ((described persisted ++ [(jobId, none)]).map Prod.fst).Nodup) (spec : JobSpec) :
    (described persisted ++ [(jobId, (none : Option JobSpec))]).map
        (fun x => if x.1 = jobId then (x.1, some spec) else x) =
      described persisted ++ [(jobId, some spec)] := by
  rw [List.map_append, List.map_singleton, if_pos rfl]
  congr 1
  conv_rhs => rw [← List.map_id (described persisted)]
  refine List.map_congr_left fun x hx => if_neg ?_
  intro heq
  rw [List.map_append, List.nodup_append] at hnd
  exact hnd.2.2 x.1 (List.mem_map_of_mem hx) jobId (by simp) heq

theorem Recorded.step {w w' : World} {a : Action} (h : Recorded w) (hok : FirstResult w a)
    (hd : Acts w a w') : Recorded w' := by
  have hd₀ := hd
  cases hd with
  | boot | submit | supersede | fire | phase =>
    refine h.stay hd₀ rfl fun e row row' hadds => ?_
    cases hadds with
    | nothing heq => exact heq
  | recover hr =>
    obtain ⟨hw, -⟩ := World.recover_rows hr
    refine h.stay hd₀ hw fun e row row' hadds => ?_
    cases hadds with
    | nothing heq => exact heq
  | receive | dropped | resumed | abandon | fail | persisted | load | spawn | crash =>
    exact .leave (fun e => WorkerPc.noConfusion) rfl
  | @started e row hw hl =>
    refine ⟨fun e' he => ?_, fun _ _ hrec => absurd hrec (by simp [WorkerPc.recorded])⟩
    obtain rfl : e = e' := by simpa using he
    obtain ⟨row', hl', -⟩ := hd₀.adds hl
    exact ⟨row', hl'⟩
  | @evaluated e jobs hw =>
    refine ⟨fun e' he => absurd he WorkerPc.noConfusion, fun e' specs hrec => ?_⟩
    obtain ⟨rfl, rfl⟩ : e = e' ∧ described [] = specs := by simpa [WorkerPc.recorded] using hrec
    obtain ⟨row, hl⟩ := h.present e hw
    have hnone : row.specs = [] := hok e (by rw [hw]; rfl) row (by rw [hl]; rfl)
    obtain ⟨row', hl', hadds⟩ := hd₀.adds hl
    cases hadds with
    | nothing heq => exact ⟨row', hl', heq.trans hnone⟩
  | @createRow e spec todo persisted row jobId hw hl hnew =>
    refine ⟨fun e' he => absurd he WorkerPc.noConfusion, fun e' specs hrec => ?_⟩
    obtain ⟨rfl, rfl⟩ : e = e' ∧ described persisted ++ [(jobId, none)] = specs := by
      simpa [WorkerPc.recorded] using hrec
    obtain ⟨row₀, hl₀, hrow₀⟩ := h.rows e (described persisted) (by rw [hw]; rfl)
    obtain rfl : row = row₀ := Option.some.inj (hl.symm.trans hl₀)
    refine ⟨_, (World.lookup_update _ _ _ _).trans (by rw [if_pos rfl, hl]; rfl), ?_⟩
    rw [EvalRow.specs_createJob hnew, hrow₀]
  | @describe e spec jobId todo persisted hw =>
    refine ⟨fun e' he => absurd he WorkerPc.noConfusion, fun e' specs hrec => ?_⟩
    obtain ⟨rfl, rfl⟩ : e = e' ∧ described persisted ++ [(jobId, some spec)] = specs := by
      simpa [WorkerPc.recorded] using hrec
    obtain ⟨row, hl, hrow⟩ := h.rows e (described persisted ++ [(jobId, none)]) (by rw [hw]; rfl)
    refine ⟨_, (World.lookup_update _ _ _ _).trans (by rw [if_pos rfl, hl]; rfl), ?_⟩
    rw [EvalRow.specs_setSpecJson, hrow]
    exact described_describe (hrow ▸ row.nodup_specs) spec
  | @conclude e spec jobId todo persisted hw =>
    refine ⟨fun e' he => absurd he WorkerPc.noConfusion, fun e' specs hrec => ?_⟩
    obtain ⟨rfl, rfl⟩ : e = e' ∧ described (persisted ++ [(spec, jobId)]) = specs := by
      simpa [WorkerPc.recorded] using hrec
    obtain ⟨row, hl, hrow⟩ := h.rows e (described persisted ++ [(jobId, some spec)])
      (by rw [hw]; rfl)
    obtain ⟨row', hl', hadds⟩ := hd₀.adds hl
    cases hadds with
    | nothing heq => exact ⟨row', hl', by rw [heq, hrow, described_concat]⟩

theorem Recorded.start (evals : HashMap EvalId EvalRow) : Recorded (World.down evals) :=
  .leave (fun _ => WorkerPc.noConfusion) rfl

theorem Recorded.run {w₀ w : World} (h : Recorded w₀) (hr : Run FirstResult w₀ w) :
    Recorded w := by
  induction hr with
  | refl => exact h
  | step _ hok hd ih => exact ih.step hok hd.acts

/-- **A first evaluation is persisted whole.** -/
theorem Recorded.whole {w : World} (h : Recorded w) {e : EvalId} {persisted : Persisted}
    (hw : w.worker = .persisting e [] persisted) :
    ∃ row, w.evals.lookup e = some row ∧ Whole row persisted :=
  h.rows e (described persisted) (by rw [hw]; rfl)

/-! ## From then on -/

/-- The action does not take in another result for the evaluation. -/
def Continues (e : EvalId) (w : World) : Action → Prop
  | .evaluated _ => w.worker ≠ .evaluating e
  | _ => True

instance (e : EvalId) (w : World) (a : Action) : Decidable (Continues e w a) := by
  unfold Continues
  split <;> infer_instance

/-- The worker will not add to the rows of the evaluation. -/
def WorkerPc.through (e : EvalId) : WorkerPc → Prop
  | persisting e' todo _ => e' = e → todo = []
  | describing e' .. | concluding e' .. => e' ≠ e
  | idle | picked _ | evaluating _ | loading _ | walking _ _ => True

theorem through_step {e : EvalId} {w w' : World} {a : Action} (h : w.worker.through e)
    (hok : Continues e w a) (hd : Acts w a w') : w'.worker.through e := by
  cases hd with
  | boot | submit | supersede | fire | phase => exact h
  | recover hr => rwa [(World.recover_rows hr).1]
  | receive | dropped | resumed | started | abandon | fail | persisted | load | spawn | crash =>
    trivial
  | @evaluated e' jobs hw =>
    intro heq
    exact absurd (heq ▸ hw) hok
  | createRow hw =>
    rw [hw] at h
    intro heq
    exact absurd (h heq) (by simp)
  | describe hw =>
    rw [hw] at h
    exact h
  | conclude hw =>
    rw [hw] at h
    exact fun heq => absurd heq h

/-- **The rows keep their Jobs and specs** through every crash and recovery. -/
theorem Whole.run {e : EvalId} {w₀ w : World} {row₀ : EvalRow} {persisted : Persisted}
    (hthrough : w₀.worker.through e) (hl₀ : w₀.evals.lookup e = some row₀)
    (h : Whole row₀ persisted) (hr : Run (Continues e) w₀ w) :
    ∃ row, w.evals.lookup e = some row ∧ Whole row persisted := by
  have hboth : w.worker.through e ∧ ∃ row, w.evals.lookup e = some row ∧ Whole row persisted := by
    induction hr with
    | refl => exact ⟨hthrough, row₀, hl₀, h⟩
    | step _ hok hd ih =>
      obtain ⟨ht, row, hl, hrow⟩ := ih
      refine ⟨through_step ht hok hd.acts, ?_⟩
      obtain ⟨row', hl', hadds⟩ := hd.acts.adds hl
      cases hadds with
      | nothing heq => exact ⟨row', hl', heq.trans hrow⟩
      | row hw =>
        rw [hw] at ht
        exact absurd (ht rfl) (by simp)
      | spec hw =>
        rw [hw] at ht
        exact absurd rfl ht
  exact hboth.2

/-! ## What is read back -/

/-- The Jobs whose rows are still queued. -/
def stillQueued (row : EvalRow) (persisted : Persisted) : Persisted :=
  persisted.filter fun p => row.jobStatus p.2 = some .queued

/-- **A resumed phase is handed what is still queued**, with the specs the first one had. -/
theorem loadJobsForResume_eq {row : EvalRow} {persisted : Persisted} (h : Whole row persisted) :
    loadJobsForResume row = stillQueued row persisted := by
  have hstatus : ∀ x ∈ row.listByEval, row.jobStatus x.1 = some x.2.status := by
    intro x hx
    rw [EvalRow.jobStatus, EvalRow.mem_listByEval.mp hx]
    rfl
  unfold Whole EvalRow.specs at h
  unfold loadJobsForResume stillQueued
  generalize row.listByEval = rows at h hstatus
  induction rows generalizing persisted with
  | nil =>
    obtain rfl : persisted = [] := by simpa [described] using h.symm
    rfl
  | cons x rows ih =>
    cases persisted with
    | nil => exact absurd h (by simp [described])
    | cons p persisted =>
      obtain ⟨⟨hid, hspec⟩, hrest⟩ : (x.1 = p.2 ∧ x.2.specJson = some p.1) ∧
          rows.map (fun x => (x.1, x.2.specJson)) = described persisted := by
        simpa [described] using h
      have hx := hstatus x (by simp)
      rw [hid] at hx
      have ih := ih hrest fun y hy => hstatus y (by simp [hy])
      obtain ⟨jobId, job⟩ := x
      simp only at hid hspec hx
      subst hid
      by_cases hq : job.status = .queued
      · rw [List.filter_cons_of_pos (by simp [hx, hq]), ← ih]
        simp [hq, hspec]
      · rw [List.filter_cons_of_neg (by simp [hx, hq]), ← ih]
        simp [hq]

end Argunix.Daemon
