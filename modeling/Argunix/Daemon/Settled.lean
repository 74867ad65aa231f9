import Argunix.Daemon.World

/-!
# Jobs that have a verdict keep it

A verdict is written once: `finish`, `start` and `dispatch` are guarded, and the two recovery
updates select on `running` and on `interrupted`. So an evaluation whose Jobs all have a verdict
stays as it is under every statement of the daemon, a crash and a resume included, as long as no Job
row is inserted (`Acts.shows`). `verdicts` is the part of the rows that this is about; the specs and
the evaluation's own status may change.
-/

set_option autoImplicit false

namespace Argunix.Store.EvalRow

/-! ## One row at a time -/

variable {row : EvalRow}

/-- The Job rows in id order, each with its attribute, its system and its status. -/
def verdicts (row : EvalRow) : List (JobId × String × String × JobStatus) :=
  row.listByEval.map fun x => (x.1, x.2.attrPath, x.2.system, x.2.status)

/-- Every Job has a verdict. -/
def Settled (row : EvalRow) : Prop := ∀ x ∈ row.verdicts, x.2.2.2.isTerminal = true

instance (row : EvalRow) : Decidable row.Settled :=
  inferInstanceAs (Decidable (∀ x ∈ row.verdicts, x.2.2.2.isTerminal = true))

theorem Settled.entry (h : row.Settled) {e : Sigma fun _ : JobId => JobRow}
    (he : e ∈ row.jobs.entries) : e.2.status.isTerminal = true := by
  refine h (e.1, e.2.attrPath, e.2.system, e.2.status) (List.mem_map.mpr ⟨(e.1, e.2), ?_, rfl⟩)
  exact List.mem_map.mpr ⟨e, List.mem_reverse.mpr he, rfl⟩

/-- A statement that changes Job rows one by one, and none that has a verdict. -/
theorem Settled.verdicts_eq {row' : EvalRow} (h : row.Settled)
    (f : (Sigma fun _ : JobId => JobRow) → Sigma fun _ : JobId => JobRow)
    (hrows : row'.jobs.entries = row.jobs.entries.map f)
    (hf : ∀ e ∈ row.jobs.entries, e.2.status.isTerminal = true → (f e).1 = e.1 ∧
      (f e).2.attrPath = e.2.attrPath ∧ (f e).2.system = e.2.system ∧
      (f e).2.status = e.2.status) : row'.verdicts = row.verdicts := by
  simp only [verdicts, listByEval, hrows, List.map_reverse, List.map_map]
  congr 1
  refine List.map_congr_left fun e he => ?_
  obtain ⟨hid, hattr, hsystem, hstatus⟩ := hf e he (h.entry he)
  simp only [Function.comp_apply, hid, hattr, hsystem, hstatus]

theorem Settled.verdicts_updateJob {j : JobId} {f : JobStatus → JobStatus} (h : row.Settled)
    (hf : ∀ s, s.isTerminal = true → f s = s) :
    (row.updateJob j f).verdicts = row.verdicts := by
  refine h.verdicts_eq _ rfl fun e _ ht => ?_
  dsimp only
  split
  · rename_i heq
    subst heq
    exact ⟨rfl, rfl, rfl, hf _ ht⟩
  · exact ⟨rfl, rfl, rfl, rfl⟩

theorem Settled.verdicts_updateJobs {f : JobStatus → JobStatus} (h : row.Settled)
    (hf : ∀ s, s.isTerminal = true → f s = s) :
    (row.updateJobs f).verdicts = row.verdicts :=
  h.verdicts_eq _ rfl fun _ _ ht => ⟨rfl, rfl, rfl, hf _ ht⟩

theorem Settled.verdicts_setSpecJson {j : JobId} {spec : Eval.JobSpec} (h : row.Settled) :
    (row.setSpecJson j spec).verdicts = row.verdicts := by
  refine h.verdicts_eq _ rfl fun e _ _ => ?_
  dsimp only
  split
  · rename_i heq
    subst heq
    exact ⟨rfl, rfl, rfl, rfl⟩
  · exact ⟨rfl, rfl, rfl, rfl⟩

theorem verdicts_guardedStatus (row : EvalRow) (status : EvalStatus) :
    (row.guardedStatus status).verdicts = row.verdicts := by
  simp [verdicts, listByEval]

end Argunix.Store.EvalRow

namespace Argunix.Daemon

open Argunix.Lib Argunix.Store

/-! ## What every statement leaves alone -/

theorem firstVerdict_settled (new : JobStatus) (s : JobStatus) (h : s.isTerminal = true) :
    firstVerdict new s = s := firstVerdict_of_terminal h

theorem interrupt_settled (s : JobStatus) (h : s.isTerminal = true) :
    (if s = .running then JobStatus.interrupted else s) = s := by
  refine if_neg ?_
  rintro rfl
  exact absurd h (by decide)

theorem requeue_settled (s : JobStatus) (h : s.isTerminal = true) :
    (if s = .interrupted then JobStatus.queued else s) = s := by
  refine if_neg ?_
  rintro rfl
  exact absurd h (by decide)

theorem Effect.verdicts_apply {row : EvalRow} (hs : row.Settled) (x : Effect) (known : Bool)
    (tally : JobTally) : (x.apply known row tally).1.verdicts = row.verdicts := by
  cases x with
  | skip jobId =>
    cases known with
    | false => rfl
    | true => exact hs.verdicts_updateJob (firstVerdict_settled _)
  | mirror jobId status =>
    cases known with
    | false => rfl
    | true => exact hs.verdicts_updateJob (firstVerdict_settled _)
  | count jobId status => rfl

/-- A build phase leaves rows with a verdict as they are. -/
theorem PhaseActs.verdicts {e : EvalId} {row row' : EvalRow} {p p' : Phase} {a : PhaseAct}
    (h : PhaseActs e row p a row' p') (hs : row.Settled) : row'.verdicts = row.verdicts := by
  cases h with
  | settle | skip => exact Effect.verdicts_apply hs _ _ _
  | finish | supersede => exact EvalRow.verdicts_guardedStatus _ _
  | @build _ _ _ _ _ write =>
    cases write with
    | none => rfl
    | some r => cases r <;> exact hs.verdicts_updateJob (firstVerdict_settled _)
  | dropGuard => exact hs.verdicts_updateJob interrupt_settled
  | look | noPermit | idle | spawned | check | wake | abort | polled | join | permit | sleep
  | settled | aborted | drain | drained | post | fire => rfl

/-- The Jobs of `e` are `row`'s, as far as the verdicts go. -/
def World.Shows (w : World) (e : EvalId) (row : EvalRow) : Prop :=
  ∃ row', w.evals.lookup e = some row' ∧ row'.verdicts = row.verdicts

theorem World.Shows.update {w w' : World} {e d : EvalId} {row : EvalRow} {f : EvalRow → EvalRow}
    (hl : w.evals.lookup e = some row) (h : w'.evals = (w.update d f).evals)
    (hf : d = e → (f row).verdicts = row.verdicts) : w'.Shows e row := by
  unfold World.Shows
  rw [h, World.lookup_update]
  split
  · rename_i heq
    subst heq
    exact ⟨f row, by rw [hl]; rfl, hf rfl⟩
  · exact ⟨row, hl, rfl⟩

/-- **Every action leaves an evaluation as it is whose Jobs all have a verdict**, unless it inserts
    a Job row. -/
theorem Acts.shows {w w' : World} {a : Action} {e : EvalId} {row : EvalRow} (h : Acts w a w')
    (hl : w.evals.lookup e = some row) (hs : row.Settled)
    (hinsert : ∀ j, a = .createRow j → w.worker.evalId ≠ some e) : w'.Shows e row := by
  cases h with
  | boot hm =>
    refine ⟨row.markRunningInterrupted, ?_, hs.verdicts_updateJobs interrupt_settled⟩
    exact (HashMap.lookup_mapValues _ e w.evals).trans (by rw [hl]; rfl)
  | recover hr =>
    obtain ⟨-, -, -, h | ⟨d, -, -, h⟩ | ⟨d, -, -, h⟩⟩ := World.recover_rows hr
    · exact ⟨row, h ▸ hl, rfl⟩
    · exact .update hl h fun _ => rfl
    · exact .update hl h fun _ => hs.verdicts_updateJobs requeue_settled
  | @submit d repoId hm hnone =>
    have hne : e ≠ d := by
      rintro rfl
      exact absurd (hnone.symm.trans hl) (by simp)
    refine ⟨row, ?_, rfl⟩
    exact (HashMap.lookup_insert_eq d e _ w.evals).trans (by rw [if_neg hne, hl])
  | supersede | started | abandon | fail | evaluated =>
    exact .update hl (f := fun row => row.guardedStatus _) rfl fun _ =>
      EvalRow.verdicts_guardedStatus row _
  | @createRow d spec todo persisted row' jobId hw hl' hnew =>
    refine .update hl
      (f := fun row => row.createJob jobId spec.attrPath spec.drvPath (systemColumn spec)) rfl
      fun heq => absurd ?_ (hinsert jobId rfl)
    rw [hw, ← heq]
    rfl
  | @describe d spec jobId =>
    exact .update hl (f := fun row => row.setSpecJson jobId spec) rfl fun _ =>
      hs.verdicts_setSpecJson
  | @conclude d spec jobId =>
    refine .update hl
      (f := fun row => if spec.error.isSome then row.finishJob jobId .failure else row) rfl
      fun _ => ?_
    split
    · exact hs.verdicts_updateJob (firstVerdict_settled _)
    · rfl
  | @phase i d p p' row₀ row' b hi hl₀ _ hstep =>
    obtain ⟨s, -, hact⟩ := hstep.acts
    refine .update hl rfl fun heq => ?_
    subst heq
    rw [hl, Option.some.injEq] at hl₀
    subst hl₀
    exact hact.verdicts hs
  | fire | receive | dropped | resumed | persisted | load | spawn | crash => exact ⟨row, hl, rfl⟩

end Argunix.Daemon
