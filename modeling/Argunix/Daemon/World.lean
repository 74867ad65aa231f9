import Argunix.Daemon.Phase

/-!
# The daemon: boot recovery, the worker, build phases, crashes

The database outlives the daemon; everything else is lost in a crash. A daemon is three kinds of
parties over the rows:

* `main`, which at boot flips running Jobs to `interrupted` and then makes three list-then-send
  passes: evaluations in `evaluating` are reset to `queued` and sent, `queued` ones are sent,
  `building` ones get their interrupted Jobs requeued and are sent. It binds the HTTP listener
  after that (`serving`), so webhooks come only then.
* the worker, which takes one evaluation at a time off the channel. `process` reads the row:
  `cancelled` is skipped, `building` is resumed from the persisted Jobs, **anything else is
  evaluated afresh**. It ends by spawning the build phase and does not wait for it.
* the build phases, each with its own loop (`Phase`).

Every statement on the store is one action, so a crash may fall between any two of them.
`World.act` runs the actions of `main`, the worker and the webhooks. `Does` adds those with a
choice that is not the daemon's: the order of a phase's hash maps.
-/

set_option autoImplicit false

namespace Argunix.Daemon

open Argunix.Lib Argunix.Sched Argunix.Sched.DagStrategy Argunix.Eval Argunix.Store

/-! ## What is persisted, and what is read back -/

/-- `system_from_attr_path` -/
def systemFromAttrPath (attrPath : String) : Option String :=
  match attrPath.splitOn "." with
  | _ :: system :: _ :: _ => some system
  | _ => none

/-- The `system` column `persist_job` writes. -/
def systemColumn (spec : JobSpec) : String :=
  (spec.system.or (systemFromAttrPath spec.attrPath)).getD "unknown"

/-- The reconstruction from columns, for a row without `spec_json`. -/
def lossySpec (job : JobRow) : JobSpec :=
  { attrPath := job.attrPath
    drvPath := job.drvPath
    system := some job.system
    error := none
    isCached := false
    requiredSystemFeatures := []
    imageFormat := none
    sbomRuntimeRoots := [] }

/-- `load_jobs_for_resume`: the Jobs that are still queued. -/
def loadJobsForResume (row : EvalRow) : Persisted :=
  row.listByEval.filterMap fun (jobId, job) =>
    if job.status = .queued then some (job.specJson.getD (lossySpec job), jobId) else none

/-! ## The parties -/

/-- Where `main` stands. -/
inductive MainPc
  | down
  | listEvaluating
  | resetting (ids : List EvalId)
  | sendingReset (id : EvalId) (ids : List EvalId)
  | listQueued
  | sendingQueued (ids : List EvalId)
  | listBuilding
  | requeueing (ids : List EvalId)
  | sendingBuilding (id : EvalId) (ids : List EvalId)
  | serving
deriving DecidableEq, Repr

/-- Where the worker stands in `process`. The three states of `persist_job` lie between the
    `INSERT`, the `spec_json` and the verdict of an eval error. -/
inductive WorkerPc
  | idle
  | picked (e : EvalId)
  | evaluating (e : EvalId)
  | persisting (e : EvalId) (todo : List JobSpec) (persisted : Persisted)
  | describing (e : EvalId) (spec : JobSpec) (jobId : JobId) (todo : List JobSpec)
      (persisted : Persisted)
  | concluding (e : EvalId) (spec : JobSpec) (jobId : JobId) (todo : List JobSpec)
      (persisted : Persisted)
  | loading (e : EvalId)
  | walking (e : EvalId) (persisted : Persisted)
deriving DecidableEq, Repr

namespace WorkerPc

/-- The evaluation `process` was called for. -/
def evalId : WorkerPc → Option EvalId
  | idle => none
  | picked e | evaluating e | persisting e _ _ | describing e _ _ _ _ | concluding e _ _ _ _
  | loading e | walking e _ => some e

end WorkerPc

/-- The database, `main` and the worker. -/
structure World where
  evals : HashMap EvalId EvalRow
  main : MainPc
  /-- Sent and not received. -/
  channel : List EvalId
  /-- Everything sent since boot. -/
  sent : List EvalId
  worker : WorkerPc
  /-- The cancel token `process` registered has fired. -/
  cancel : Bool
  phases : List (EvalId × Phase)

namespace World

/-- No daemon, and the given database. -/
def down (evals : HashMap EvalId EvalRow) : World :=
  { evals := evals
    main := .down
    channel := []
    sent := []
    worker := .idle
    cancel := false
    phases := [] }

/-- `list_evaluating_ids`, `list_queued_ids`, `list_building_ids` -/
def idsWith (w : World) (status : EvalStatus) : List EvalId :=
  ((w.evals.entries.filter fun e => e.2.status = status).map Sigma.fst).reverse

/-- The evaluation is put into the queue. -/
def send (w : World) (e : EvalId) : World :=
  { w with channel := w.channel ++ [e], sent := w.sent ++ [e] }

/-- One statement on the rows of `e`. -/
def update (w : World) (e : EvalId) (f : EvalRow → EvalRow) : World :=
  { w with evals := w.evals.modify e f }

end World

/-- What happens to the daemon. -/
inductive Action
  | boot
  | recover
  | submit (e : EvalId) (repoId : RepoId)
  | supersede (e : EvalId)
  | fire
  | receive
  | read
  | abandon
  | fail
  | evaluated (jobs : List JobSpec)
  | createRow (jobId : JobId)
  | describe
  | conclude
  | persisted
  | load
  | spawn (walk : ClosureWalk)
  | phase (i : ℕ) (act : PhaseAct)
  | crash

namespace World

/-- The next statement of the recovery passes. -/
def recover (w : World) : Option World :=
  match w.main with
  | .listEvaluating => some { w with main := .resetting (w.idsWith .evaluating) }
  | .resetting [] => some { w with main := .listQueued }
  | .resetting (e :: ids) =>
    some { w.update e (·.setStatus .queued) with main := .sendingReset e ids }
  | .sendingReset e ids => some { w.send e with main := .resetting ids }
  | .listQueued => some { w with main := .sendingQueued (w.idsWith .queued) }
  | .sendingQueued [] => some { w with main := .listBuilding }
  | .sendingQueued (e :: ids) => some { w.send e with main := .sendingQueued ids }
  | .listBuilding => some { w with main := .requeueing (w.idsWith .building) }
  | .requeueing [] => some { w with main := .serving }
  | .requeueing (e :: ids) =>
    some { w.update e (·.requeueInterrupted) with main := .sendingBuilding e ids }
  | .sendingBuilding e ids => some { w.send e with main := .requeueing ids }
  | .down | .serving => none

/-- `process` up to the first await that depends on the status it reads. -/
def read (w : World) (e : EvalId) : World :=
  match w.evals.lookup e with
  | none => { w with worker := .idle }
  | some row =>
    if row.status = .cancelled ∨ w.cancel = true then { w with worker := .idle }
    else if row.status = .building then { w with worker := .loading e }
    else { w.update e (·.start .evaluating) with worker := .evaluating e }

/-- The actions of `main`, the worker and the webhooks. -/
def act (w : World) : Action → Option World
  | .boot =>
    match w.main with
    | .down =>
      some { w with
        evals := w.evals.mapValues (·.markRunningInterrupted)
        main := .listEvaluating }
    | _ => none
  | .recover => w.recover
  | .submit e repoId =>
    if w.main = .serving ∧ w.evals.lookup e = none then
      some ({ w with evals := w.evals.insert e (.create repoId) }.send e)
    else none
  | .supersede e => if w.main = .serving then some (w.update e (·.finish .cancelled)) else none
  | .fire =>
    match w.worker.evalId.bind w.evals.lookup with
    | some row =>
      if w.main = .serving ∧ row.status.isTerminal = true then some { w with cancel := true }
      else none
    | none => none
  | .receive =>
    match w.worker, w.channel with
    | .idle, e :: channel =>
      some { w with channel := channel, worker := .picked e, cancel := false }
    | _, _ => none
  | .read =>
    match w.worker with
    | .picked e => some (w.read e)
    | _ => none
  | .abandon =>
    match w.worker with
    | .evaluating e =>
      if w.cancel then some { w.update e (·.finish .cancelled) with worker := .idle } else none
    | _ => none
  | .fail =>
    match w.worker.evalId with
    | some e => some { w.update e (·.failWithReason) with worker := .idle }
    | none => none
  | .evaluated jobs =>
    match w.worker with
    | .evaluating e => some { w.update e (·.markBuilding) with worker := .persisting e jobs [] }
    | _ => none
  | .createRow jobId =>
    match w.worker with
    | .persisting e (spec :: todo) persisted =>
      match w.evals.lookup e with
      | some row =>
        if row.NewId jobId then
          some { w.update e (·.createJob jobId spec.attrPath spec.drvPath (systemColumn spec)) with
            worker := .describing e spec jobId todo persisted }
        else none
      | none => none
    | _ => none
  | .describe =>
    match w.worker with
    | .describing e spec jobId todo persisted =>
      some { w.update e (·.setSpecJson jobId spec) with
        worker := .concluding e spec jobId todo persisted }
    | _ => none
  | .conclude =>
    match w.worker with
    | .concluding e spec jobId todo persisted =>
      some { w.update e (fun row => if spec.error.isSome then row.finishJob jobId .failure else row) with
        worker := .persisting e todo (persisted ++ [(spec, jobId)]) }
    | _ => none
  | .persisted =>
    match w.worker with
    | .persisting e [] persisted => some { w with worker := .walking e persisted }
    | _ => none
  | .load =>
    match w.worker with
    | .loading e =>
      match w.evals.lookup e with
      | some row => some { w with worker := .walking e (loadJobsForResume row) }
      | none => none
    | _ => none
  | .crash => if w.main = .down then none else some (down w.evals)
  | .spawn _ | .phase .. => none

/-- Spawn the build phase with a loaded strategy; the worker is free again. -/
def spawned (w : World) (e : EvalId) (persisted : Persisted) (s : DagStrategy) : World :=
  { w with
    worker := .idle
    phases := w.phases ++ [(e, Phase.start persisted s w.cancel)] }

/-- Phase `i`, of `e`, has acted. -/
def stepped (w : World) (i : ℕ) (e : EvalId) (row : EvalRow) (p : Phase) : World :=
  { w with
    evals := w.evals.modify e fun _ => row
    phases := w.phases.set i (e, p) }

/-- A webhook reaches a phase only once `main` serves. -/
def Reaches (w : World) : PhaseAct → Prop
  | .supersede | .fire => w.main = .serving
  | _ => True

instance (w : World) (a : PhaseAct) : Decidable (w.Reaches a) := by
  unfold Reaches
  split <;> infer_instance

end World

/-- `w` may become `w'` by this action. -/
inductive Does (w : World) : Action → World → Prop
  | act {a : Action} {w' : World} : w.act a = some w' → Does w a w'
  | spawn {e : EvalId} {persisted : Persisted} {row : EvalRow} {s : DagStrategy}
      (walk : ClosureWalk) :
      w.worker = .walking e persisted → w.evals.lookup e = some row → walk.Keyed →
      Enqueued none (scheduleItems walk row.repoId e persisted) s →
      Does w (.spawn walk) (w.spawned e persisted s)
  | phase {i : ℕ} {e : EvalId} {p p' : Phase} {row row' : EvalRow} {a : PhaseAct} :
      w.phases[i]? = some (e, p) → w.evals.lookup e = some row → w.Reaches a →
      PhaseStep e row p a row' p' → Does w (.phase i a) (w.stepped i e row' p')

namespace World

theorem lookup_update (w : World) (e e' : EvalId) (f : EvalRow → EvalRow) :
    (w.update e f).evals.lookup e' =
      if e' = e then (w.evals.lookup e).map f else w.evals.lookup e' :=
  HashMap.lookup_modify e e' f w.evals

/-- Statements do not delete evaluations. -/
theorem isSome_lookup_update (w : World) (e : EvalId) (f : EvalRow → EvalRow) (e' : EvalId) :
    ((w.update e f).evals.lookup e').isSome = (w.evals.lookup e').isSome := by
  rw [lookup_update]
  split
  · rename_i h
    rw [Option.isSome_map, h]
  · rfl

/-- A phase that acts stays a phase of its evaluation. -/
theorem map_fst_stepped {w : World} {i : ℕ} {e : EvalId} {p : Phase}
    (hi : w.phases[i]? = some (e, p)) (row : EvalRow) (p' : Phase) :
    (w.stepped i e row p').phases.map Prod.fst = w.phases.map Prod.fst := by
  unfold stepped
  rw [List.map_set]
  refine List.ext_getElem? fun k => ?_
  rw [List.getElem?_set]
  split
  · rename_i hk
    subst hk
    rw [List.getElem?_map, hi]
    simp [List.length_map, (List.getElem?_eq_some_iff.mp hi).1]
  · rfl

end World

/-! ## What an action can do

One case for each action and each branch it takes, with what the branch was taken on. Every
invariant of the daemon is a case analysis over this. -/

/-- What an action comes to. -/
inductive Acts (w : World) : Action → World → Prop
  | boot : w.main = .down →
      Acts w .boot { w with
        evals := w.evals.mapValues (·.markRunningInterrupted)
        main := .listEvaluating }
  | recover {w' : World} : w.recover = some w' → Acts w .recover w'
  | submit {e : EvalId} {repoId : RepoId} : w.main = .serving → w.evals.lookup e = none →
      Acts w (.submit e repoId) ({ w with evals := w.evals.insert e (.create repoId) }.send e)
  | supersede {e : EvalId} : w.main = .serving →
      Acts w (.supersede e) (w.update e (·.finish .cancelled))
  | fire {e : EvalId} {row : EvalRow} : w.worker.evalId = some e → w.evals.lookup e = some row →
      w.main = .serving → row.status.isTerminal = true → Acts w .fire { w with cancel := true }
  | receive {e : EvalId} {channel : List EvalId} : w.worker = .idle → w.channel = e :: channel →
      Acts w .receive { w with channel := channel, worker := .picked e, cancel := false }
  | dropped {e : EvalId} : w.worker = .picked e →
      (∀ row, w.evals.lookup e = some row → row.status = .cancelled ∨ w.cancel = true) →
      Acts w .read { w with worker := .idle }
  | resumed {e : EvalId} {row : EvalRow} : w.worker = .picked e → w.evals.lookup e = some row →
      row.status = .building → w.cancel = false → Acts w .read { w with worker := .loading e }
  | started {e : EvalId} {row : EvalRow} : w.worker = .picked e → w.evals.lookup e = some row →
      row.status ≠ .building → row.status ≠ .cancelled → w.cancel = false →
      Acts w .read { w.update e (·.start .evaluating) with worker := .evaluating e }
  | abandon {e : EvalId} : w.worker = .evaluating e → w.cancel = true →
      Acts w .abandon { w.update e (·.finish .cancelled) with worker := .idle }
  | fail {e : EvalId} : w.worker.evalId = some e →
      Acts w .fail { w.update e (·.failWithReason) with worker := .idle }
  | evaluated {e : EvalId} (jobs : List JobSpec) : w.worker = .evaluating e →
      Acts w (.evaluated jobs) { w.update e (·.markBuilding) with worker := .persisting e jobs [] }
  | createRow {e : EvalId} {spec : JobSpec} {todo : List JobSpec} {persisted : Persisted}
      {row : EvalRow} {jobId : JobId} : w.worker = .persisting e (spec :: todo) persisted →
      w.evals.lookup e = some row → row.NewId jobId →
      Acts w (.createRow jobId)
        { w.update e (·.createJob jobId spec.attrPath spec.drvPath (systemColumn spec)) with
          worker := .describing e spec jobId todo persisted }
  | describe {e : EvalId} {spec : JobSpec} {jobId : JobId} {todo : List JobSpec}
      {persisted : Persisted} : w.worker = .describing e spec jobId todo persisted →
      Acts w .describe { w.update e (·.setSpecJson jobId spec) with
        worker := .concluding e spec jobId todo persisted }
  | conclude {e : EvalId} {spec : JobSpec} {jobId : JobId} {todo : List JobSpec}
      {persisted : Persisted} : w.worker = .concluding e spec jobId todo persisted →
      Acts w .conclude
        { w.update e (fun row => if spec.error.isSome then row.finishJob jobId .failure else row) with
          worker := .persisting e todo (persisted ++ [(spec, jobId)]) }
  | persisted {e : EvalId} {persisted : Persisted} : w.worker = .persisting e [] persisted →
      Acts w .persisted { w with worker := .walking e persisted }
  | load {e : EvalId} {row : EvalRow} : w.worker = .loading e → w.evals.lookup e = some row →
      Acts w .load { w with worker := .walking e (loadJobsForResume row) }
  | spawn {e : EvalId} {persisted : Persisted} {row : EvalRow} {s : DagStrategy}
      {walk : ClosureWalk} : w.worker = .walking e persisted → w.evals.lookup e = some row →
      walk.Keyed → Enqueued none (scheduleItems walk row.repoId e persisted) s →
      Acts w (.spawn walk) (w.spawned e persisted s)
  | phase {i : ℕ} {e : EvalId} {p p' : Phase} {row row' : EvalRow} {a : PhaseAct} :
      w.phases[i]? = some (e, p) → w.evals.lookup e = some row → w.Reaches a →
      PhaseStep e row p a row' p' → Acts w (.phase i a) (w.stepped i e row' p')
  | crash : w.main ≠ .down → Acts w .crash (World.down w.evals)

theorem World.read_acts {w : World} {e : EvalId} (hw : w.worker = .picked e) :
    Acts w .read (w.read e) := by
  unfold World.read
  split
  · rename_i hl
    exact .dropped hw fun row hr => absurd (hl.symm.trans hr) (by simp)
  · rename_i row hl
    split
    · rename_i hc
      refine .dropped hw fun row' hr => ?_
      rw [hl, Option.some.injEq] at hr
      exact hr ▸ hc
    · rename_i hc
      rw [not_or, Bool.not_eq_true] at hc
      split
      · rename_i hb
        exact .resumed hw hl hb hc.2
      · rename_i hb
        exact .started hw hl hb hc.1 hc.2

theorem World.act_acts {w w' : World} {a : Action} (h : w.act a = some w') : Acts w a w' := by
  cases a with
  | recover => exact .recover h
  | spawn walk => exact absurd h (by simp [World.act])
  | phase i a => exact absurd h (by simp [World.act])
  | read =>
    simp only [World.act] at h
    split at h
    · rename_i e hw
      obtain rfl := Option.some.inj h
      exact World.read_acts hw
    · exact absurd h (by simp)
  | fire =>
    simp only [World.act] at h
    split at h
    · rename_i row hrow
      obtain ⟨e, he, hl⟩ := Option.bind_eq_some_iff.mp hrow
      split at h
      · rename_i hc
        obtain rfl := Option.some.inj h
        exact .fire he hl hc.1 hc.2
      · exact absurd h (by simp)
    · exact absurd h (by simp)
  | createRow j =>
    simp only [World.act] at h
    split at h
    · rename_i e spec todo persisted hw
      split at h
      · rename_i row hl
        split at h
        · rename_i hnew
          obtain rfl := Option.some.inj h
          exact .createRow hw hl hnew
        · exact absurd h (by simp)
      · exact absurd h (by simp)
    · exact absurd h (by simp)
  | load =>
    simp only [World.act] at h
    split at h
    · rename_i e hw
      split at h
      · rename_i row hl
        obtain rfl := Option.some.inj h
        exact .load hw hl
      · exact absurd h (by simp)
    · exact absurd h (by simp)
  | abandon =>
    simp only [World.act] at h
    split at h
    · rename_i e hw
      split at h
      · rename_i hc
        obtain rfl := Option.some.inj h
        exact .abandon hw hc
      · exact absurd h (by simp)
    · exact absurd h (by simp)
  | receive =>
    simp only [World.act] at h
    split at h
    · rename_i e channel hw hc
      obtain rfl := Option.some.inj h
      exact .receive hw hc
    · exact absurd h (by simp)
  | boot =>
    simp only [World.act] at h
    split at h
    · rename_i hm
      obtain rfl := Option.some.inj h
      exact .boot hm
    · exact absurd h (by simp)
  | submit e repoId =>
    simp only [World.act] at h
    split at h
    · rename_i hm
      obtain rfl := Option.some.inj h
      exact .submit hm.1 hm.2
    · exact absurd h (by simp)
  | supersede e =>
    simp only [World.act] at h
    split at h
    · rename_i hm
      obtain rfl := Option.some.inj h
      exact .supersede hm
    · exact absurd h (by simp)
  | fail =>
    simp only [World.act] at h
    split at h
    · rename_i e hw
      obtain rfl := Option.some.inj h
      exact .fail hw
    · exact absurd h (by simp)
  | evaluated jobs =>
    simp only [World.act] at h
    split at h
    · rename_i e hw
      obtain rfl := Option.some.inj h
      exact .evaluated jobs hw
    · exact absurd h (by simp)
  | describe =>
    simp only [World.act] at h
    split at h
    · rename_i hw
      obtain rfl := Option.some.inj h
      exact .describe hw
    · exact absurd h (by simp)
  | conclude =>
    simp only [World.act] at h
    split at h
    · rename_i hw
      obtain rfl := Option.some.inj h
      exact .conclude hw
    · exact absurd h (by simp)
  | persisted =>
    simp only [World.act] at h
    split at h
    · rename_i hw
      obtain rfl := Option.some.inj h
      exact .persisted hw
    · exact absurd h (by simp)
  | crash =>
    simp only [World.act] at h
    split at h
    · exact absurd h (by simp)
    · rename_i hm
      obtain rfl := Option.some.inj h
      exact .crash hm

theorem Does.acts {w w' : World} {a : Action} (h : Does w a w') : Acts w a w' := by
  cases h with
  | act h => exact World.act_acts h
  | spawn walk hw hl hk henq => exact .spawn hw hl hk henq
  | phase hi hl hr hs => exact .phase hi hl hr hs

/-! ## Rows are kept -/

/-- Every evaluation keeps its Job rows. -/
def World.Keeps (w w' : World) : Prop :=
  ∀ e row, w.evals.lookup e = some row → ∃ row', w'.evals.lookup e = some row' ∧
    row.specs.map Prod.fst ⊆ row'.specs.map Prod.fst

theorem World.Keeps.same {w w' : World} (h : w'.evals = w.evals) : w.Keeps w' :=
  fun _ row hl => ⟨row, h ▸ hl, fun _ hj => hj⟩

theorem World.Keeps.update {w w' : World} {e : EvalId} {f : EvalRow → EvalRow}
    (h : w'.evals = (w.update e f).evals)
    (hf : ∀ row, w.evals.lookup e = some row →
      row.specs.map Prod.fst ⊆ (f row).specs.map Prod.fst) : w.Keeps w' := by
  intro e' row hl
  rw [h, World.lookup_update]
  split
  · rename_i heq
    subst heq
    exact ⟨f row, by rw [hl]; rfl, hf row hl⟩
  · exact ⟨row, hl, fun _ hj => hj⟩

/-- What the passes of `main` write. -/
theorem World.recover_rows {w w' : World} (h : w.recover = some w') :
    w'.worker = w.worker ∧ w'.cancel = w.cancel ∧ w'.phases = w.phases ∧
      (w'.evals = w.evals ∨
        (∃ e ids, w.main = .resetting (e :: ids) ∧
          w'.evals = (w.update e (·.setStatus .queued)).evals) ∨
        ∃ e ids, w.main = .requeueing (e :: ids) ∧
          w'.evals = (w.update e (·.requeueInterrupted)).evals) := by
  unfold World.recover at h
  split at h <;> rename_i hm <;> cases h
  case h_3.refl => exact ⟨rfl, rfl, rfl, Or.inr (Or.inl ⟨_, _, hm, rfl⟩)⟩
  case h_10.refl => exact ⟨rfl, rfl, rfl, Or.inr (Or.inr ⟨_, _, hm, rfl⟩)⟩
  all_goals exact ⟨rfl, rfl, rfl, Or.inl rfl⟩

/-- No statement deletes a Job row. -/
theorem Acts.keeps {w w' : World} {a : Action} (h : Acts w a w') : w.Keeps w' := by
  have hsub : ∀ {row row' : EvalRow}, row'.specs = row.specs →
      row.specs.map Prod.fst ⊆ row'.specs.map Prod.fst := fun heq => heq ▸ List.Subset.refl _
  cases h with
  | boot hm =>
    intro e row hl
    refine ⟨row.markRunningInterrupted, ?_, hsub (EvalRow.specs_updateJobs row _)⟩
    exact (HashMap.lookup_mapValues _ e w.evals).trans (by rw [hl]; rfl)
  | recover hr =>
    obtain ⟨-, -, -, h | ⟨e, -, -, h⟩ | ⟨e, -, -, h⟩⟩ := World.recover_rows hr
    · exact .same h
    · exact .update h fun row _ => List.Subset.refl _
    · exact .update h fun row _ => hsub (EvalRow.specs_updateJobs row _)
  | @submit e repoId hm hnone =>
    intro e' row hl
    refine ⟨row, ?_, List.Subset.refl _⟩
    have hne : e' ≠ e := by
      rintro rfl
      exact absurd (hnone.symm.trans hl) (by simp)
    exact (HashMap.lookup_insert_eq e e' _ w.evals).trans (by rw [if_neg hne, hl])
  | supersede | started | abandon | fail | evaluated =>
    exact .update rfl fun row _ => hsub (EvalRow.specs_guardedStatus row _)
  | @createRow e spec todo persisted row jobId hw hl hnew =>
    refine .update (e := e)
      (f := fun row => row.createJob jobId spec.attrPath spec.drvPath (systemColumn spec)) rfl
      fun row' hl' => ?_
    rw [hl, Option.some.injEq] at hl'
    subst hl'
    rw [EvalRow.specs_createJob hnew]
    exact List.map_subset _ (List.subset_append_left _ _)
  | @describe e spec jobId _ _ hw =>
    refine .update (e := e) (f := fun row => row.setSpecJson jobId spec) rfl fun row _ j hj => ?_
    rw [EvalRow.mem_specs_fst, EvalRow.jobStatus_setSpecJson]
    exact EvalRow.mem_specs_fst.mp hj
  | @conclude e spec jobId _ _ hw =>
    refine .update (e := e)
      (f := fun row => if spec.error.isSome then row.finishJob jobId .failure else row) rfl
      fun row _ => ?_
    split
    · exact hsub (EvalRow.specs_updateJob row _ _)
    · exact List.Subset.refl _
  | @phase i e p p' row row' b hi hl _ hs =>
    obtain ⟨s, -, hact⟩ := hs.acts
    refine .update rfl fun row₀ hl₀ => ?_
    rw [hl, Option.some.injEq] at hl₀
    exact hsub (hl₀ ▸ hact.specs)
  | fire | receive | dropped | resumed | persisted | load | spawn | crash => exact .same rfl

/-! ## What the worker hands over -/

/-- The ids of the Jobs the worker has created, or read back. -/
def WorkerPc.handed : WorkerPc → List JobId
  | persisting _ _ persisted | walking _ persisted => persisted.map Prod.snd
  | describing _ _ jobId _ persisted | concluding _ _ jobId _ persisted =>
    persisted.map Prod.snd ++ [jobId]
  | idle | picked _ | evaluating _ | loading _ => []

/-- They are distinct, and they have rows. -/
structure Handed (w : World) : Prop where
  nodup : w.worker.handed.Nodup
  rows : ∀ j ∈ w.worker.handed, ∃ e row, w.worker.evalId = some e ∧ w.evals.lookup e = some row ∧
    j ∈ row.specs.map Prod.fst

/-- The worker has not handed over anything new. -/
theorem Handed.keeps {w w' : World} (h : Handed w) (hk : w.Keeps w')
    (hw : w'.worker.handed = [] ∨ (w'.worker.handed = w.worker.handed ∧
      w'.worker.evalId = w.worker.evalId)) : Handed w' := by
  rcases hw with hw | ⟨hw, he⟩
  · exact ⟨by simp [hw], by simp [hw]⟩
  · refine ⟨hw ▸ h.nodup, fun j hj => ?_⟩
    obtain ⟨e, row, hev, hl, hrow⟩ := h.rows j (hw ▸ hj)
    obtain ⟨row', hl', hsub⟩ := hk e row hl
    exact ⟨e, row', he.trans hev, hl', hsub hrow⟩

theorem nodup_loadJobsForResume (row : EvalRow) :
    ((loadJobsForResume row).map Prod.snd).Nodup ∧
      (loadJobsForResume row).map Prod.snd ⊆ row.specs.map Prod.fst := by
  have hsub : ((loadJobsForResume row).map Prod.snd).Sublist (row.specs.map Prod.fst) := by
    have heq : (loadJobsForResume row).map Prod.snd =
        row.listByEval.filterMap fun x => if x.2.status = .queued then some x.1 else none := by
      rw [loadJobsForResume, List.map_filterMap]
      refine List.filterMap_congr fun x _ => ?_
      by_cases hq : x.2.status = .queued <;> simp [hq]
    have hfst : row.specs.map Prod.fst = row.listByEval.map Prod.fst := by
      simp [EvalRow.specs, Function.comp_def]
    rw [heq, hfst]
    induction row.listByEval with
    | nil => exact .slnil
    | cons x l ih =>
      by_cases hq : x.2.status = .queued
      · simpa [hq] using ih
      · simpa [hq] using ih.cons x.1
  exact ⟨hsub.nodup row.nodup_specs, hsub.subset⟩

theorem Handed.step {w w' : World} {a : Action} (h : Handed w) (hd : Acts w a w') : Handed w' := by
  have hk := hd.keeps
  cases hd with
  | boot | submit | supersede | fire => exact h.keeps hk (Or.inr ⟨rfl, rfl⟩)
  | recover hr =>
    obtain ⟨hw, -⟩ := World.recover_rows hr
    exact h.keeps hk (Or.inr (by rw [hw]; exact ⟨rfl, rfl⟩))
  | receive | dropped | resumed | started | abandon | fail | evaluated | spawn | crash =>
    exact h.keeps hk (Or.inl rfl)
  | describe hw | persisted hw => exact h.keeps hk (Or.inr (by rw [hw]; exact ⟨rfl, rfl⟩))
  | conclude hw =>
    refine h.keeps hk (Or.inr ?_)
    rw [hw]
    exact ⟨by simp [WorkerPc.handed], rfl⟩
  | @createRow e spec todo persisted row jobId hw hl hnew =>
    have hrow : ∀ j ∈ persisted.map Prod.snd, j ∈ row.specs.map Prod.fst := by
      intro j hj
      obtain ⟨e', row', he', hl', hj'⟩ := h.rows j (by rw [hw]; exact hj)
      rw [hw] at he'
      obtain rfl : e = e' := Option.some.inj he'
      rw [hl, Option.some.injEq] at hl'
      exact hl' ▸ hj'
    have hfresh : jobId ∉ row.specs.map Prod.fst := by
      rw [EvalRow.mem_specs_fst, EvalRow.jobStatus, hnew.lookup]
      simp
    refine ⟨List.nodup_append.mpr ⟨?_, by simp, ?_⟩, fun j hj => ?_⟩
    · have := h.nodup
      rwa [hw] at this
    · rintro j hj j' hj' rfl
      exact hfresh (List.mem_singleton.mp hj' ▸ hrow j hj)
    · refine ⟨e, _, rfl, (World.lookup_update _ _ _ _).trans (by rw [if_pos rfl, hl]; rfl), ?_⟩
      rw [EvalRow.specs_createJob hnew, List.map_append, List.mem_append]
      rcases List.mem_append.mp hj with hj | hj
      · exact Or.inl (hrow j hj)
      · exact Or.inr (by simpa using hj)
  | @load e row hw hl =>
    obtain ⟨hnodup, hsub⟩ := nodup_loadJobsForResume row
    exact ⟨hnodup, fun j hj => ⟨e, row, rfl, hl, hsub hj⟩⟩
  | phase => exact h.keeps hk (Or.inr ⟨rfl, rfl⟩)

/-! ## Runs -/

/-- A run whose every action satisfies `ok` in the world before it. -/
inductive Run (ok : World → Action → Prop) (w₀ : World) : World → Prop
  | refl : Run ok w₀ w₀
  | step {w w' : World} {a : Action} : Run ok w₀ w → ok w a → Does w a w' → Run ok w₀ w'

theorem Run.trans {ok : World → Action → Prop} {w₀ w₁ w₂ : World} (h : Run ok w₀ w₁)
    (h' : Run ok w₁ w₂) : Run ok w₀ w₂ := by
  induction h' with
  | refl => exact h
  | step _ hok hd ih => exact .step ih hok hd

theorem Run.mono {ok ok' : World → Action → Prop} (himp : ∀ w a, ok w a → ok' w a)
    {w₀ w : World} (h : Run ok w₀ w) : Run ok' w₀ w := by
  induction h with
  | refl => exact .refl
  | step _ hok hd ih => exact .step ih (himp _ _ hok) hd

/-! ## Concrete runs -/

namespace World

/-- One action with every hash map in the order it is stored. -/
def exec (w : World) : Action → Option World
  | .spawn walk =>
    match w.worker with
    | .walking e persisted =>
      match w.evals.lookup e with
      | some row =>
        if walk.Keyed then
          some (w.spawned e persisted
            (Sched.DagStrategy.load none (scheduleItems walk row.repoId e persisted)))
        else none
      | none => none
    | _ => none
  | .phase i a =>
    match w.phases[i]? with
    | some (e, p) =>
      match w.evals.lookup e with
      | some row =>
        if w.Reaches a then (p.act e row a).map fun r => w.stepped i e r.1 r.2 else none
      | none => none
    | none => none
  | a => w.act a

theorem exec_does {w w' : World} {a : Action} (h : w.exec a = some w') : Does w a w' := by
  cases a with
  | spawn walk =>
    simp only [exec] at h
    split at h
    · rename_i e persisted hw
      split at h
      · rename_i row hl
        split at h
        · rename_i hk
          obtain rfl := Option.some.inj h
          exact .spawn walk hw hl hk (enqueued_load _ _)
        · exact absurd h (by simp)
      · exact absurd h (by simp)
    · exact absurd h (by simp)
  | phase i a =>
    simp only [exec] at h
    split at h
    · rename_i e p hi
      split at h
      · rename_i row hl
        split at h
        · rename_i hr
          obtain ⟨r, hact, rfl⟩ := Option.map_eq_some_iff.mp h
          exact .phase hi hl hr ⟨p.session.strategy, .refl _, hact⟩
        · exact absurd h (by simp)
      · exact absurd h (by simp)
    · exact absurd h (by simp)
  | boot | recover | submit | supersede | fire | receive | read | abandon | fail | evaluated
  | createRow | describe | conclude | persisted | load | crash => exact .act h

/-- A script of actions, each of which satisfies `ok` where it is taken. -/
def script (ok : World → Action → Prop) [∀ w a, Decidable (ok w a)] (w : World) :
    List Action → Option World
  | [] => some w
  | a :: as => if ok w a then (w.exec a).bind fun w' => script ok w' as else none

end World

theorem Run.of_script {ok : World → Action → Prop} [∀ w a, Decidable (ok w a)] :
    ∀ {as : List Action} {w w' : World}, w.script ok as = some w' → Run ok w w'
  | [], w, w', h => by
    obtain rfl := Option.some.inj h
    exact .refl
  | a :: as, w, w', h => by
    simp only [World.script] at h
    split at h
    · rename_i hok
      obtain ⟨w₁, hex, hrest⟩ := Option.bind_eq_some_iff.mp h
      exact (Run.step .refl hok (World.exec_does hex)).trans (Run.of_script hrest)
    · exact absurd h (by simp)

/-- Nothing is asked of a step. -/
def AnyStep (_ : World) (_ : Action) : Prop := True

instance (w : World) (a : Action) : Decidable (AnyStep w a) := isTrue trivial

/-- Nothing is known of the closures. -/
def noWalk : ClosureWalk := { heads := [], derivations := ∅ }

/-- Evaluation 1 has been submitted and not been looked at. -/
def queuedAtBoot : HashMap EvalId EvalRow := AList.insert ⟨1⟩ (.create ⟨1⟩) ∅

/-- A boot in which `main` is through with its passes before the worker starts. -/
def bootUp (passes : ℕ) : List Action := .boot :: List.replicate passes .recover

/-- Evaluation 1 has two Jobs that do not depend on each other. -/
def evaluateTwo : List Action :=
  [.receive, .read, .evaluated [specOf "a", specOf "b"], .createRow ⟨1⟩, .describe, .conclude,
    .createRow ⟨2⟩, .describe, .conclude, .persisted, .spawn noWalk]

/-- The worker takes an evaluation up again. -/
def resume : List Action := [.receive, .read, .load, .spawn noWalk]

/-- The loop spawns `n` tasks. -/
def spawnTasks (n : ℕ) : List PhaseAct := .look :: (List.replicate (n + 1) .dispatch ++ [.check])

/-- The pool builds; the loop joins, counts, and looks again. -/
def buildAndJoin (token : DispatchToken) (built : Bool) : List PhaseAct :=
  [.build token .arm, .build token .dispatch, .build token (.verdict built), .pollCancel,
    .join token, .handle, .handle, .look, .dispatch, .check]

/-- The first phase does this. -/
def phaseScript (acts : List PhaseAct) : List Action := acts.map (.phase 0)

end Argunix.Daemon
