import Argunix.Eval

/-!
# `argunix-store`: the rows of one evaluation, and the statements that change them

The database is what survives a crash, so its statements are the unit of atomicity: one
`UPDATE`, one step. An evaluation's row has a status, its Jobs have one each. Ids are handed out
in increasing order, so a table is iterated newest first and `listByEval` reads it backwards.

Most statements are *guarded*: `WHERE status NOT IN (…terminal…)`. The first verdict wins, for
evaluations and for Jobs. Two are not guarded: `setStatus`, which boot recovery uses, and the
recovery updates, which select on one status (`running` or `interrupted`) instead.

The lemmas say what each statement leaves in the status column, in one spelling: an `if` on the
Job id over `jobStatus`.
-/

set_option autoImplicit false

namespace Argunix.Store

open Argunix.Lib Argunix.Eval

/-- The columns of `jobs` that scheduling and recovery read. `specJson` holds the spec that the
    column's JSON decodes to. -/
structure JobRow where
  attrPath : String
  drvPath : Option String
  system : String
  status : JobStatus
  specJson : Option JobSpec
deriving DecidableEq, Repr

/-- A row of `evaluations` with the rows of `jobs` that point to it. -/
structure EvalRow where
  repoId : RepoId
  status : EvalStatus
  jobs : HashMap JobId JobRow

/-- A guarded `UPDATE … SET status`: the value the column has afterwards. -/
def firstVerdict (new old : JobStatus) : JobStatus := if old.isTerminal then old else new

theorem firstVerdict_of_terminal {new old : JobStatus} (h : old.isTerminal = true) :
    firstVerdict new old = old := if_pos h

theorem firstVerdict_of_open {new old : JobStatus} (h : old.isTerminal = false) :
    firstVerdict new old = new := if_neg (by simp [h])

namespace EvalRow

/-! ## Statements on `evaluations` -/

/-- `INSERT INTO evaluations` -/
def create (repoId : RepoId) : EvalRow := { repoId := repoId, status := .queued, jobs := ∅ }

/-- `UPDATE evaluations SET status`, with no guard. -/
def setStatus (row : EvalRow) (status : EvalStatus) : EvalRow := { row with status := status }

/-- The guard the four statements below share. -/
def guardedStatus (row : EvalRow) (status : EvalStatus) : EvalRow :=
  if row.status.isTerminal then row else { row with status := status }

/-- `start` -/
def start (row : EvalRow) (status : EvalStatus) : EvalRow := row.guardedStatus status

/-- `finish` -/
def finish (row : EvalRow) (status : EvalStatus) : EvalRow := row.guardedStatus status

/-- `mark_building` -/
def markBuilding (row : EvalRow) : EvalRow := row.guardedStatus .building

/-- `fail_with_reason`; nothing here reads the reason. -/
def failWithReason (row : EvalRow) : EvalRow := row.guardedStatus .evaluationFailed

/-! ## Statements on `jobs` -/

/-- `UPDATE jobs SET status … WHERE id = …`, with what becomes of the old status. -/
def updateJob (row : EvalRow) (jobId : JobId) (f : JobStatus → JobStatus) : EvalRow :=
  { row with jobs := row.jobs.modify jobId fun j => { j with status := f j.status } }

/-- `JobStore::finish`: the first verdict stays. -/
def finishJob (row : EvalRow) (jobId : JobId) (status : JobStatus) : EvalRow :=
  row.updateJob jobId (firstVerdict status)

/-- `JobStore::dispatch` -/
def dispatchJob (row : EvalRow) (jobId : JobId) : EvalRow :=
  row.updateJob jobId (firstVerdict .running)

/-- `interrupt_if_running` -/
def interruptIfRunning (row : EvalRow) (jobId : JobId) : EvalRow :=
  row.updateJob jobId fun s => if s = .running then .interrupted else s

/-- An `UPDATE jobs SET status` over all Jobs of the evaluation. -/
def updateJobs (row : EvalRow) (f : JobStatus → JobStatus) : EvalRow :=
  { row with jobs := row.jobs.mapValues fun j => { j with status := f j.status } }

/-- `mark_running_interrupted`, over the Jobs of the evaluation. -/
def markRunningInterrupted (row : EvalRow) : EvalRow :=
  row.updateJobs fun s => if s = .running then .interrupted else s

/-- `requeue_interrupted_for_eval`: what a crash has interrupted is to be built again. -/
def requeueInterrupted (row : EvalRow) : EvalRow :=
  row.updateJobs fun s => if s = .interrupted then .queued else s

/-- `INSERT INTO jobs` -/
def createJob (row : EvalRow) (jobId : JobId) (attrPath : String) (drvPath : Option String)
    (system : String) : EvalRow :=
  { row with jobs := row.jobs.insert jobId ⟨attrPath, drvPath, system, .queued, none⟩ }

/-- `set_spec_json`, once the Job is described. -/
def setSpecJson (row : EvalRow) (jobId : JobId) (spec : JobSpec) : EvalRow :=
  { row with jobs := row.jobs.modify jobId fun j => { j with specJson := some spec } }

/-- `SELECT … FROM jobs … ORDER BY id` -/
def listByEval (row : EvalRow) : List (JobId × JobRow) :=
  row.jobs.entries.reverse.map fun e => (e.1, e.2)

/-- `AUTOINCREMENT`: the id is above every id in use. -/
def NewId (row : EvalRow) (jobId : JobId) : Prop :=
  ∀ e ∈ row.jobs.entries, e.1.get < jobId.get

instance (row : EvalRow) (jobId : JobId) : Decidable (row.NewId jobId) :=
  inferInstanceAs (Decidable (∀ e ∈ row.jobs.entries, e.1.get < jobId.get))

/-! ## The status columns after each statement -/

variable {row : EvalRow} {j j' : JobId}

/-- The `status` column of a Job. -/
def jobStatus (row : EvalRow) (jobId : JobId) : Option JobStatus :=
  (row.jobs.lookup jobId).map (·.status)

theorem status_guardedStatus (row : EvalRow) (status : EvalStatus) :
    (row.guardedStatus status).status = if row.status.isTerminal then row.status else status := by
  unfold guardedStatus
  split <;> rfl

@[simp]
theorem jobs_guardedStatus (row : EvalRow) (status : EvalStatus) :
    (row.guardedStatus status).jobs = row.jobs := by
  unfold guardedStatus
  split <;> rfl

/-- A terminal evaluation stays as it is. -/
theorem guardedStatus_of_terminal {status : EvalStatus} (h : row.status.isTerminal = true) :
    row.guardedStatus status = row := if_pos h

@[simp]
theorem status_updateJob (row : EvalRow) (j : JobId) (f : JobStatus → JobStatus) :
    (row.updateJob j f).status = row.status := rfl

@[simp]
theorem status_updateJobs (row : EvalRow) (f : JobStatus → JobStatus) :
    (row.updateJobs f).status = row.status := rfl

theorem jobStatus_updateJob (row : EvalRow) (j j' : JobId) (f : JobStatus → JobStatus) :
    (row.updateJob j f).jobStatus j' =
      if j' = j then (row.jobStatus j).map f else row.jobStatus j' := by
  unfold jobStatus updateJob
  rw [HashMap.lookup_modify]
  split
  · rw [Option.map_map, Option.map_map]
    rfl
  · rfl

theorem jobStatus_updateJobs (row : EvalRow) (j : JobId) (f : JobStatus → JobStatus) :
    (row.updateJobs f).jobStatus j = (row.jobStatus j).map f := by
  unfold jobStatus updateJobs
  rw [HashMap.lookup_mapValues, Option.map_map, Option.map_map]
  rfl

theorem jobStatus_createJob (row : EvalRow) (j j' : JobId) (attrPath : String)
    (drvPath : Option String) (system : String) :
    (row.createJob j attrPath drvPath system).jobStatus j' =
      if j' = j then some .queued else row.jobStatus j' := by
  unfold jobStatus createJob
  rw [HashMap.lookup_insert_eq]
  split <;> rfl

theorem jobStatus_setSpecJson (row : EvalRow) (j j' : JobId) (spec : JobSpec) :
    (row.setSpecJson j spec).jobStatus j' = row.jobStatus j' := by
  have hview : ∀ job : JobRow, { job with specJson := some spec }.status = job.status := fun _ => rfl
  exact HashMap.map_modify_of_view hview j j'

theorem mem_listByEval {job : JobRow} :
    (j, job) ∈ row.listByEval ↔ row.jobs.lookup j = some job := by
  unfold listByEval
  rw [List.mem_map, ← HashMap.mem_entries_iff]
  constructor
  · rintro ⟨⟨j', job'⟩, hmem, heq⟩
    obtain ⟨rfl, rfl⟩ := Prod.mk.inj heq
    exact List.mem_reverse.mp hmem
  · intro hmem
    exact ⟨⟨j, job⟩, List.mem_reverse.mpr hmem, rfl⟩

/-! ## Rows and their specs

A Job row is there for good, and only `set_spec_json` touches its spec. -/

/-- The Job rows in id order, each with its spec. -/
def specs (row : EvalRow) : List (JobId × Option JobSpec) :=
  row.listByEval.map fun x => (x.1, x.2.specJson)

theorem specs_updateJob (row : EvalRow) (j : JobId) (f : JobStatus → JobStatus) :
    (row.updateJob j f).specs = row.specs := by
  simp only [specs, listByEval, updateJob, HashMap.modify, List.map_reverse, List.map_map]
  congr 1
  refine List.map_congr_left fun e _ => ?_
  simp only [Function.comp_apply]
  split <;> rfl

theorem specs_updateJobs (row : EvalRow) (f : JobStatus → JobStatus) :
    (row.updateJobs f).specs = row.specs := by
  simp only [specs, listByEval, updateJobs, HashMap.mapValues, List.map_reverse, List.map_map]
  rfl

theorem specs_guardedStatus (row : EvalRow) (status : EvalStatus) :
    (row.guardedStatus status).specs = row.specs := by
  simp [specs, listByEval]

theorem mem_specs_fst : j ∈ row.specs.map Prod.fst ↔ (row.jobStatus j).isSome = true := by
  rw [jobStatus, Option.isSome_map, Option.isSome_iff_exists]
  simp only [specs, List.map_map, List.mem_map, Function.comp_apply]
  constructor
  · rintro ⟨⟨j', job⟩, hm, rfl⟩
    exact ⟨job, mem_listByEval.mp hm⟩
  · rintro ⟨job, hl⟩
    exact ⟨(j, job), mem_listByEval.mpr hl, rfl⟩

theorem nodup_specs (row : EvalRow) : (row.specs.map Prod.fst).Nodup := by
  have : row.specs.map Prod.fst = (row.jobs.entries.map Sigma.fst).reverse := by
    simp [specs, listByEval, List.map_reverse, Function.comp_def]
  rw [this]
  exact List.nodup_reverse.mpr row.jobs.nodupKeys

theorem NewId.lookup (h : row.NewId j) : row.jobs.lookup j = none := by
  cases hl : row.jobs.lookup j with
  | none => rfl
  | some job => exact absurd (h _ (HashMap.mem_entries_iff.mpr hl)) (lt_irrefl _)

theorem specs_createJob (h : row.NewId j) (attrPath : String) (drvPath : Option String)
    (system : String) :
    (row.createJob j attrPath drvPath system).specs = row.specs ++ [(j, none)] := by
  have hnew : j ∉ row.jobs := by
    rw [← AList.lookup_eq_none, h.lookup]
  simp only [specs, listByEval, createJob, AList.entries_insert_of_notMem hnew]
  simp

theorem specs_setSpecJson (row : EvalRow) (j : JobId) (spec : JobSpec) :
    (row.setSpecJson j spec).specs =
      row.specs.map fun x => if x.1 = j then (x.1, some spec) else x := by
  simp only [specs, listByEval, setSpecJson, HashMap.modify, List.map_reverse, List.map_map]
  congr 1
  refine List.map_congr_left fun e _ => ?_
  simp only [Function.comp_apply]
  split <;> rfl

end EvalRow

end Argunix.Store
