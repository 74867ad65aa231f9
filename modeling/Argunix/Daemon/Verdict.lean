import Argunix.Lib.HashMap
import Argunix.Domain

/-!
# First verdict wins: the rows with all their columns

`Store` keeps of a row what scheduling reads. Here are the columns that tell what became of it:
when it ended, why, and where its log and its output are. Every `UPDATE` of `argunix-store` is
given with all the columns it sets and with its `WHERE`.

Almost all of them are guarded by `status NOT IN (…terminal…)`, or select on a status that is not
terminal. The exception is `set_status` on an evaluation, which the boot pass uses to put what was
left in `evaluating` back to `queued`. The pass lists first and resets one by one, while the worker
is running already, so that the reset is safe only because nobody else touches a row between the
listing and its reset: the worker has not been sent it, and webhooks are not served yet
(`Booting`). `first_verdict_wins` is the result for every run, with any number of crashes and
boots.
-/

set_option autoImplicit false

namespace Argunix.Daemon.Verdict

open Argunix.Lib

/-! ## The tables -/

/-- A row of `evaluations`. Times are numbers. -/
structure Evaluation where
  status : EvalStatus
  startedAt : Option ℕ
  buildingStartedAt : Option ℕ
  finishedAt : Option ℕ
  failureReason : Option String
deriving DecidableEq, Repr

/-- `JobPhaseMetrics` -/
structure Metrics where
  pushBytes : Option ℕ
  pushMs : Option ℕ
  buildMs : Option ℕ
  pullBytes : Option ℕ
  pullMs : Option ℕ
deriving DecidableEq, Repr

/-- A row of `jobs`. -/
structure Job where
  evalId : EvalId
  status : JobStatus
  startedAt : Option ℕ
  finishedAt : Option ℕ
  logPath : Option String
  outputPath : Option String
  builderId : Option ℕ
  failureReason : Option String
  metrics : Metrics
  cachePushMs : Option ℕ
  imageSizeBytes : Option ℕ
  specJson : Option String
deriving DecidableEq, Repr

/-- The two tables. -/
structure Tables where
  evaluations : HashMap EvalId Evaluation
  jobs : HashMap JobId Job

/-- The statements of the store that write a status. -/
inductive Statement
  | create (e : EvalId)
  | setStatus (e : EvalId) (status : EvalStatus)
  | start (e : EvalId) (startedAt : ℕ) (status : EvalStatus)
  | finish (e : EvalId) (status : EvalStatus) (finishedAt : ℕ)
  | failWithReason (e : EvalId) (reason : String) (finishedAt : ℕ)
  | markBuilding (e : EvalId) (buildingStartedAt : ℕ)
  | createJob (j : JobId) (e : EvalId)
  | startJob (j : JobId) (startedAt : ℕ)
  | finishJob (j : JobId) (status : JobStatus) (finishedAt : ℕ) (logPath outputPath : Option String)
      (metrics : Metrics)
  | recordCachePushMs (j : JobId) (ms : ℕ)
  | recordImageSize (j : JobId) (bytes : ℕ)
  | markRunningInterrupted
  | interruptIfRunning (j : JobId)
  | requeueInterruptedForEval (e : EvalId)
  | setSpecJson (j : JobId) (specJson : String)
  | dispatch (j : JobId) (builderId : ℕ) (startedAt : ℕ)

/-- `WHERE … AND status NOT IN ('evaluation_failed', 'done', 'cancelled')` -/
def openEval (f : Evaluation → Evaluation) (row : Evaluation) : Evaluation :=
  if row.status.isTerminal then row else f row

/-- `WHERE … AND status NOT IN ('cached', 'success', 'failure', 'cancelled', 'skipped_no_builder')` -/
def openJob (f : Job → Job) (row : Job) : Job := if row.status.isTerminal then row else f row

/-- `WHERE … AND status = …` -/
def jobWith (status : JobStatus) (f : Job → Job) (row : Job) : Job :=
  if row.status = status then f row else row

namespace Tables

/-- An `UPDATE` of one evaluation. -/
def updateEval (db : Tables) (e : EvalId) (f : Evaluation → Evaluation) : Tables :=
  { db with evaluations := db.evaluations.modify e f }

/-- An `UPDATE` of one Job. -/
def updateJob (db : Tables) (j : JobId) (f : Job → Job) : Tables :=
  { db with jobs := db.jobs.modify j f }

/-- An insert gets an id that is not in use. -/
def exec (db : Tables) : Statement → Tables
  | .create e =>
    if e ∈ db.evaluations then db
    else { db with evaluations := db.evaluations.insert e ⟨.queued, none, none, none, none⟩ }
  | .setStatus e status => db.updateEval e fun row => { row with status := status }
  | .start e startedAt status =>
    db.updateEval e (openEval fun row => { row with status := status, startedAt := some startedAt })
  | .finish e status finishedAt =>
    db.updateEval e
      (openEval fun row => { row with status := status, finishedAt := some finishedAt })
  | .failWithReason e reason finishedAt =>
    db.updateEval e (openEval fun row =>
      { row with
        status := .evaluationFailed
        finishedAt := some finishedAt
        failureReason := some reason })
  | .markBuilding e buildingStartedAt =>
    db.updateEval e (openEval fun row =>
      { row with status := .building, buildingStartedAt := some buildingStartedAt })
  | .createJob j e =>
    if j ∈ db.jobs then db
    else
      { db with
        jobs := db.jobs.insert j ⟨e, .queued, none, none, none, none, none, none,
          ⟨none, none, none, none, none⟩, none, none, none⟩ }
  | .startJob j startedAt =>
    db.updateJob j (openJob fun row => { row with status := .running, startedAt := some startedAt })
  | .finishJob j status finishedAt logPath outputPath metrics =>
    db.updateJob j (openJob fun row =>
      { row with
        status := status
        finishedAt := some finishedAt
        logPath := logPath
        outputPath := outputPath
        metrics := metrics })
  | .recordCachePushMs j ms => db.updateJob j fun row => { row with cachePushMs := some ms }
  | .recordImageSize j bytes => db.updateJob j fun row => { row with imageSizeBytes := some bytes }
  | .markRunningInterrupted =>
    { db with jobs := db.jobs.mapValues (jobWith .running ({ · with status := .interrupted })) }
  | .interruptIfRunning j =>
    db.updateJob j (jobWith .running ({ · with status := .interrupted }))
  | .requeueInterruptedForEval e =>
    { db with
      jobs := db.jobs.mapValues fun row =>
        if row.evalId = e then
          jobWith .interrupted
            ({ · with status := .queued, startedAt := none, builderId := none }) row
        else row }
  | .setSpecJson j specJson => db.updateJob j fun row => { row with specJson := some specJson }
  | .dispatch j builderId startedAt =>
    db.updateJob j (openJob fun row =>
      { row with status := .running, startedAt := some startedAt, builderId := some builderId })

end Tables

/-- The columns that are an evaluation's verdict. -/
def Evaluation.verdict (row : Evaluation) : EvalStatus × Option ℕ × Option String :=
  (row.status, row.finishedAt, row.failureReason)

/-- The columns that are a Job's verdict. -/
def Job.verdict (row : Job) :
    JobStatus × Option ℕ × Option String × Option String × Option String :=
  (row.status, row.finishedAt, row.failureReason, row.logPath, row.outputPath)

/-- The evaluation whose row a statement may write. -/
def Statement.onEval : Statement → Option EvalId
  | .create e | .setStatus e _ | .start e .. | .finish e .. | .failWithReason e ..
  | .markBuilding e _ => some e
  | _ => none

/-! ## What a statement leaves alone -/

namespace Tables

variable {db : Tables} {e : EvalId} {j : JobId} {row : Evaluation} {job : Job}

theorem lookup_openEval (hl : db.evaluations.lookup e = some row)
    (ht : row.status.isTerminal = true) (e' : EvalId) (f : Evaluation → Evaluation) :
    (db.updateEval e' (openEval f)).evaluations.lookup e = some row := by
  rw [updateEval, HashMap.lookup_modify]
  split
  · rename_i heq
    rw [← heq, hl, Option.map_some, openEval, if_pos ht]
  · exact hl

/-- **A terminal evaluation** is written by nothing but a `set_status`. -/
theorem evaluation_exec (hl : db.evaluations.lookup e = some row)
    (ht : row.status.isTerminal = true) {st : Statement} (hne : ∀ status, st ≠ .setStatus e status) :
    (db.exec st).evaluations.lookup e = some row := by
  cases st with
  | create e' =>
    simp only [exec]
    split
    · exact hl
    · rename_i hnot
      have hee : e ≠ e' := fun heq => hnot (heq ▸ AList.lookup_isSome.mp (by simp [hl]))
      rw [HashMap.lookup_insert_eq, if_neg hee]
      exact hl
  | setStatus e' status =>
    have hee : e ≠ e' := fun heq => hne status (heq ▸ rfl)
    exact (HashMap.lookup_modify_ne hee).trans hl
  | start e' t status => exact lookup_openEval hl ht e' _
  | finish e' status t => exact lookup_openEval hl ht e' _
  | failWithReason e' reason t => exact lookup_openEval hl ht e' _
  | markBuilding e' t => exact lookup_openEval hl ht e' _
  | createJob j e' =>
    simp only [exec]
    split <;> exact hl
  | _ => exact hl

/-- A statement leaves the evaluations alone that it does not name. -/
theorem lookup_exec_of_ne {st : Statement} (h : st.onEval ≠ some e) :
    (db.exec st).evaluations.lookup e = db.evaluations.lookup e := by
  cases st with
  | create e' =>
    simp only [exec]
    split
    · rfl
    · have hee : e ≠ e' := fun heq => h (congrArg some heq.symm)
      rw [HashMap.lookup_insert_eq, if_neg hee]
  | setStatus e' _ | start e' _ _ | finish e' _ _ | failWithReason e' _ _ | markBuilding e' _ =>
    have hee : e ≠ e' := fun heq => h (congrArg some heq.symm)
    exact HashMap.lookup_modify_ne hee
  | createJob j e' =>
    simp only [exec]
    split <;> rfl
  | _ => rfl

/-- An update of one Job that keeps a terminal one's verdict. -/
theorem job_update {f : Job → Job} (hl : db.jobs.lookup j = some job)
    (hf : (f job).verdict = job.verdict) (j' : JobId) :
    ∃ job', (db.updateJob j' f).jobs.lookup j = some job' ∧ job'.verdict = job.verdict := by
  rw [updateJob, HashMap.lookup_modify]
  split
  · rename_i heq
    exact ⟨f job, by rw [← heq, hl]; rfl, hf⟩
  · exact ⟨job, hl, rfl⟩

theorem openJob_of_terminal (ht : job.status.isTerminal = true) (f : Job → Job) :
    openJob f job = job := if_pos ht

theorem jobWith_of_terminal (ht : job.status.isTerminal = true) {status : JobStatus}
    (hs : status.isTerminal = false) (f : Job → Job) : jobWith status f job = job :=
  if_neg fun heq => absurd (ht.symm.trans (heq ▸ hs)) (by simp)

/-- **A terminal Job** keeps its verdict under every statement. -/
theorem job_exec (hl : db.jobs.lookup j = some job) (ht : job.status.isTerminal = true)
    (st : Statement) :
    ∃ job', (db.exec st).jobs.lookup j = some job' ∧ job'.verdict = job.verdict := by
  have hopen : ∀ f, (openJob f job).verdict = job.verdict := fun f =>
    congrArg Job.verdict (openJob_of_terminal ht f)
  cases st with
  | create e =>
    simp only [exec]
    split <;> exact ⟨job, hl, rfl⟩
  | createJob j' e =>
    simp only [exec]
    split
    · exact ⟨job, hl, rfl⟩
    · rename_i hnot
      have hjj : j ≠ j' := fun heq => hnot (heq ▸ AList.lookup_isSome.mp (by simp [hl]))
      exact ⟨job, by rw [HashMap.lookup_insert_eq, if_neg hjj]; exact hl, rfl⟩
  | startJob j' t => exact job_update hl (hopen _) j'
  | finishJob j' status t log out metrics => exact job_update hl (hopen _) j'
  | dispatch j' b t => exact job_update hl (hopen _) j'
  | recordCachePushMs j' ms => exact job_update hl (by rfl) j'
  | recordImageSize j' bytes => exact job_update hl (by rfl) j'
  | setSpecJson j' specJson => exact job_update hl (by rfl) j'
  | interruptIfRunning j' =>
    exact job_update hl (congrArg Job.verdict (jobWith_of_terminal ht rfl _)) j'
  | markRunningInterrupted =>
    refine ⟨job, ?_, rfl⟩
    simp only [exec]
    rw [HashMap.lookup_mapValues, hl, Option.map_some, jobWith_of_terminal ht rfl]
  | requeueInterruptedForEval e =>
    refine ⟨job, ?_, rfl⟩
    simp only [exec]
    rw [HashMap.lookup_mapValues, hl, Option.map_some]
    split
    · rw [jobWith_of_terminal ht rfl]
    · rfl
  | setStatus e status | start e t status | finish e status t | failWithReason e reason t
  | markBuilding e t => exact ⟨job, hl, rfl⟩

end Tables

/-! ## Who issues them -/

/-- Where `main` stands. `redriving` stands for the passes that only list and send. -/
inductive MainPc
  | down
  | listing
  | resetting (ids : List EvalId)
  | sending (e : EvalId) (ids : List EvalId)
  | redriving
  | serving
deriving DecidableEq, Repr

/-- The database, and the evaluations this daemon has sent to its worker. -/
structure Process where
  db : Tables
  main : MainPc
  sent : List EvalId

/-- `issue` is a statement of the worker, of a build phase, of a drop guard or of a webhook;
    `skip` is a reset that failed; `hand` a send of a later pass or of a webhook. -/
inductive Act
  | boot
  | step
  | skip
  | hand (e : EvalId)
  | issue (st : Statement)
  | crash

namespace Process

/-- The daemon is down. -/
def start (db : Tables) : Process := { db := db, main := .down, sent := [] }

/-- **As the daemon issues them.** The worker and the build phases write the evaluations that were
    sent, webhooks create evaluations and cancel any, both of them only while the HTTP listener is
    bound; Job statements come from everywhere. `set_status` is the boot pass's. -/
def issues (s : Process) : Statement → Bool
  | .create _ => s.main = .serving
  | .setStatus .. => false
  | .finish e _ _ => e ∈ s.sent || s.main = .serving
  | .start e .. | .failWithReason e .. | .markBuilding e _ => e ∈ s.sent
  | _ => s.main ≠ .down

/-- `list_evaluating_ids` -/
def evaluatingIds (db : Tables) : List EvalId :=
  (db.evaluations.entries.filter fun e => e.2.status = .evaluating).map Sigma.fst

/-- A step of the boot, or of whoever serves after it. -/
def act (s : Process) : Act → Process
  | .boot =>
    match s.main with
    | .down => { s with db := s.db.exec .markRunningInterrupted, main := .listing }
    | _ => s
  | .step =>
    match s.main with
    | .listing => { s with main := .resetting (evaluatingIds s.db) }
    | .resetting [] => { s with main := .redriving }
    | .resetting (e :: ids) =>
      { s with db := s.db.exec (.setStatus e .queued), main := .sending e ids }
    | .sending e ids => { s with main := .resetting ids, sent := s.sent ++ [e] }
    | .redriving => { s with main := .serving }
    | .down | .serving => s
  | .skip =>
    match s.main with
    | .resetting (_ :: ids) => { s with main := .resetting ids }
    | _ => s
  | .hand e =>
    match s.main with
    | .redriving | .serving => { s with sent := s.sent ++ [e] }
    | _ => s
  | .issue st => if s.issues st then { s with db := s.db.exec st } else s
  | .crash => { s with main := .down, sent := [] }

/-- One after the other. -/
def run (s : Process) (as : List Act) : Process := as.foldl act s

/-! ## Between the listing and the reset -/

/-- Listed, not sent, and still as it was listed. -/
def Untouched (s : Process) (ids : List EvalId) : Prop :=
  ids.Nodup ∧ ∀ e ∈ ids, e ∉ s.sent ∧
    ∃ row, s.db.evaluations.lookup e = some row ∧ row.status = .evaluating

/-- How far the boot is, and what nobody has touched yet. -/
def Booting (s : Process) : Prop :=
  match s.main with
  | .down | .listing => s.sent = []
  | .resetting ids => s.Untouched ids
  | .sending e ids => e ∉ ids ∧ s.Untouched ids
  | .redriving | .serving => True

variable {s : Process} {ids : List EvalId} {e : EvalId}

theorem Untouched.tail (h : s.Untouched (e :: ids)) : s.Untouched ids :=
  ⟨(List.nodup_cons.mp h.1).2, fun e' he' => h.2 e' (List.mem_cons_of_mem e he')⟩

/-- Before webhooks are served, only evaluations that were sent are written. -/
theorem mem_sent_of_issues {st : Statement} (h : s.issues st = true) (hm : s.main ≠ .serving)
    (he : st.onEval = some e) : e ∈ s.sent := by
  cases st with
  | create e' => exact absurd (of_decide_eq_true h) hm
  | setStatus e' status => exact absurd h (by simp [issues])
  | start e' _ _ | failWithReason e' _ _ | markBuilding e' _ =>
    cases he
    exact of_decide_eq_true h
  | finish e' _ _ =>
    cases he
    simpa [issues, hm] using h
  | _ => exact absurd he (by simp [Statement.onEval])

theorem Untouched.issue {st : Statement} (h : s.Untouched ids) (hi : s.issues st = true)
    (hm : s.main ≠ .serving) : Untouched { s with db := s.db.exec st } ids := by
  refine ⟨h.1, fun e he => ⟨(h.2 e he).1, ?_⟩⟩
  obtain ⟨row, hl, hs⟩ := (h.2 e he).2
  have hne : st.onEval ≠ some e := fun heq => (h.2 e he).1 (mem_sent_of_issues hi hm heq)
  exact ⟨row, (Tables.lookup_exec_of_ne hne).trans hl, hs⟩

theorem untouched_evaluatingIds (hs : s.sent = []) : s.Untouched (evaluatingIds s.db) := by
  refine ⟨?_, fun e he => ⟨by simp [hs], ?_⟩⟩
  · exact List.Nodup.sublist (List.Sublist.map _ List.filter_sublist) s.db.evaluations.nodupKeys
  · obtain ⟨x, hx, rfl⟩ := List.mem_map.mp he
    obtain ⟨hx, hstatus⟩ := List.mem_filter.mp hx
    exact ⟨x.2, HashMap.mem_entries_iff.mp hx, of_decide_eq_true hstatus⟩

theorem Booting.step (h : s.Booting) : (s.act .step).Booting := by
  cases hm : s.main with
  | down | serving => simpa [act, hm] using h
  | listing =>
    have hs : s.sent = [] := by simpa [Booting, hm] using h
    simp only [act, hm, Booting]
    exact untouched_evaluatingIds hs
  | redriving => simp [act, hm, Booting]
  | sending e ids =>
    obtain ⟨hne, hun⟩ : e ∉ ids ∧ s.Untouched ids := by simpa [Booting, hm] using h
    simp only [act, hm, Booting]
    refine ⟨hun.1, fun e' he' => ⟨fun hsent => ?_, (hun.2 e' he').2⟩⟩
    rcases List.mem_append.mp hsent with hold | hnew
    · exact (hun.2 e' he').1 hold
    · exact hne (List.mem_singleton.mp hnew ▸ he')
  | resetting ids =>
    have hun : s.Untouched ids := by simpa [Booting, hm] using h
    cases ids with
    | nil => simp [act, hm, Booting]
    | cons e ids =>
      have hne := (List.nodup_cons.mp hun.1).1
      simp only [act, hm, Booting]
      refine ⟨hne, hun.tail.1, fun e' he' => ⟨(hun.tail.2 e' he').1, ?_⟩⟩
      obtain ⟨row, hl, hs⟩ := (hun.tail.2 e' he').2
      refine ⟨row, (Tables.lookup_exec_of_ne fun heq => ?_).trans hl, hs⟩
      exact hne (Option.some.inj heq ▸ he')

/-- **Nobody touches a row between its listing and its reset.** -/
theorem Booting.act (h : s.Booting) (a : Act) : (s.act a).Booting := by
  cases a with
  | step => exact h.step
  | crash => exact (rfl : ([] : List EvalId) = [])
  | boot =>
    cases hm : s.main with
    | down =>
      have hs : s.sent = [] := by simpa [Booting, hm] using h
      simpa [Process.act, hm, Booting] using hs
    | _ => simpa [Process.act, hm] using h
  | skip =>
    cases hm : s.main with
    | resetting ids =>
      have hun : s.Untouched ids := by simpa [Booting, hm] using h
      cases ids with
      | nil => simpa [Process.act, hm] using h
      | cons e ids =>
        simp only [Process.act, hm, Booting]
        exact hun.tail
    | _ => simpa [Process.act, hm] using h
  | hand e =>
    cases hm : s.main with
    | redriving | serving => simp [Process.act, hm, Booting]
    | _ => simpa [Process.act, hm] using h
  | issue st =>
    simp only [Process.act]
    split
    · rename_i hi
      cases hm : s.main with
      | down | listing => simpa [Booting, hm] using h
      | redriving | serving => simp [Booting]
      | resetting ids =>
        have hun : s.Untouched ids := by simpa [Booting, hm] using h
        simpa [Booting, hm] using hun.issue hi (by simp [hm])
      | sending e ids =>
        obtain ⟨hne, hun⟩ : e ∉ ids ∧ s.Untouched ids := by simpa [Booting, hm] using h
        simpa [Booting, hm] using ⟨hne, hun.issue hi (by simp [hm])⟩
    · exact h

theorem Booting.run (h : s.Booting) (as : List Act) : (s.run as).Booting := by
  induction as generalizing s with
  | nil => exact h
  | cons a as ih => exact ih (h.act a)

/-- Every change of the database is a statement, and a `set_status` is a reset of a row that is
    `evaluating`. -/
theorem db_act (h : s.Booting) (a : Act) : (s.act a).db = s.db ∨ ∃ st,
    (s.act a).db = s.db.exec st ∧ ∀ e status, st = .setStatus e status →
      ∃ row, s.db.evaluations.lookup e = some row ∧ row.status = .evaluating := by
  cases a with
  | crash => exact Or.inl rfl
  | boot =>
    simp only [Process.act]
    split
    · exact Or.inr ⟨.markRunningInterrupted, rfl, fun e status hst => absurd hst (by simp)⟩
    · exact Or.inl rfl
  | step =>
    simp only [Process.act]
    split
    case h_3 e ids hm =>
      have hun : s.Untouched (e :: ids) := by simpa [Booting, hm] using h
      refine Or.inr ⟨.setStatus e .queued, rfl, fun e' status hst => ?_⟩
      cases hst
      exact (hun.2 e List.mem_cons_self).2
    all_goals exact Or.inl rfl
  | skip | hand e =>
    simp only [Process.act]
    split <;> exact Or.inl rfl
  | issue st =>
    simp only [Process.act]
    split
    · rename_i hi
      refine Or.inr ⟨st, rfl, fun e status hst => ?_⟩
      rw [hst] at hi
      exact absurd hi (by simp [issues])
    · exact Or.inl rfl

theorem evaluation_act {row : Evaluation} (h : s.Booting)
    (hl : s.db.evaluations.lookup e = some row) (ht : row.status.isTerminal = true) (a : Act) :
    (s.act a).db.evaluations.lookup e = some row := by
  rcases db_act h a with heq | ⟨st, heq, hreset⟩
  · rw [heq]
    exact hl
  · rw [heq]
    refine Tables.evaluation_exec hl ht fun status hst => ?_
    obtain ⟨row', hl', hs⟩ := hreset e status hst
    rw [hl, Option.some.injEq] at hl'
    rw [hl', hs] at ht
    exact absurd ht (by decide)

theorem job_act {j : JobId} {job : Job} (h : s.Booting) (hl : s.db.jobs.lookup j = some job)
    (ht : job.status.isTerminal = true) (a : Act) :
    ∃ job', (s.act a).db.jobs.lookup j = some job' ∧ job'.verdict = job.verdict := by
  rcases db_act h a with heq | ⟨st, heq, -⟩
  · exact ⟨job, by rw [heq]; exact hl, rfl⟩
  · rw [heq]
    exact Tables.job_exec hl ht st

theorem evaluation_run {row : Evaluation} (h : s.Booting)
    (hl : s.db.evaluations.lookup e = some row) (ht : row.status.isTerminal = true)
    (as : List Act) : (s.run as).db.evaluations.lookup e = some row := by
  induction as generalizing s with
  | nil => exact hl
  | cons a as ih => exact ih (h.act a) (evaluation_act h hl ht a)

theorem job_run {j : JobId} {job : Job} (h : s.Booting) (hl : s.db.jobs.lookup j = some job)
    (ht : job.status.isTerminal = true) (as : List Act) :
    ∃ job', (s.run as).db.jobs.lookup j = some job' ∧ job'.verdict = job.verdict := by
  induction as generalizing s job with
  | nil => exact ⟨job, hl, rfl⟩
  | cons a as ih =>
    obtain ⟨job', hl', hv⟩ := job_act h hl ht a
    have hstatus : job'.status = job.status := congrArg Prod.fst hv
    obtain ⟨job'', hl'', hv'⟩ := ih (h.act a) hl' (by rw [hstatus]; exact ht)
    exact ⟨job'', hl'', hv'.trans hv⟩

/-- **First terminal verdict wins.** In every run of the daemon, over any database and with any
    crashes and boots, an evaluation or a Job that has come to a terminal status keeps its
    verdict. -/
theorem first_verdict_wins (db : Tables) (as bs : List Act) :
    (∀ e row, ((start db).run as).db.evaluations.lookup e = some row →
      row.status.isTerminal = true → ∃ row',
        (((start db).run as).run bs).db.evaluations.lookup e = some row' ∧
          row'.verdict = row.verdict) ∧
    ∀ j job, ((start db).run as).db.jobs.lookup j = some job → job.status.isTerminal = true →
      ∃ job', (((start db).run as).run bs).db.jobs.lookup j = some job' ∧
        job'.verdict = job.verdict := by
  have hboot : ((start db).run as).Booting :=
    Booting.run (show (start db).Booting from (rfl : ([] : List EvalId) = [])) as
  exact ⟨fun e row hl ht => ⟨row, evaluation_run hboot hl ht bs, rfl⟩,
    fun j job hl ht => job_run hboot hl ht bs⟩

/-- A webhook cancels the evaluation it created, and the worker's `finish(Done)` comes too late. -/
def cancelledFirst : List Act :=
  [.boot, .step, .step, .step, .issue (.create ⟨1⟩), .hand ⟨1⟩, .issue (.finish ⟨1⟩ .cancelled 5)]

theorem first_verdict_wins_cancelled :
    ((start ⟨∅, ∅⟩).run cancelledFirst).db.evaluations.lookup ⟨1⟩ =
      some ⟨.cancelled, none, none, some 5, none⟩ ∧
    ∃ row', (((start ⟨∅, ∅⟩).run cancelledFirst).run
        [.issue (.finish ⟨1⟩ .done 9)]).db.evaluations.lookup ⟨1⟩ = some row' ∧
      row'.verdict = (.cancelled, some 5, none) :=
  ⟨by decide, (first_verdict_wins ⟨∅, ∅⟩ cancelledFirst [.issue (.finish ⟨1⟩ .done 9)]).1 ⟨1⟩
    ⟨.cancelled, none, none, some 5, none⟩ (by decide) rfl⟩

end Process

end Argunix.Daemon.Verdict
