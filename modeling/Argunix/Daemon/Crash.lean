import Argunix.Daemon.Mail
import Argunix.Daemon.Resume
import Argunix.Daemon.Cancelled

/-!
# Does a crash lose a Job?

The row of an evaluation goes to `building` before the first of its Job rows is written, and a
resume trusts what it finds. So there is a window, from `mark_building` to the end of the persist
loop, in which a crash loses Jobs for good. Outside it none is lost: what was persisted is what the
next life of the daemon is handed (`Whole.run`), a phase that leaves its loop has closed every row
it knows of (`Left`), and what a crash interrupts is requeued.

An evaluation that is `done` therefore has one row for each spec of its result, and no row is
queued or running. **It may have interrupted rows**: where no builder matches, `build_one` gives up
on a Job with that status, and the evaluation is done all the same.

`CrashSafe` states what is left out: the window, tasks that die, and boot passes that hand the
evaluation over twice. `Place` says where the evaluation is (with the worker, in a phase, or
nowhere), and what holds of its rows there; an action moves it from place to place. Before its
result comes in it has no rows (`Unborn`).
-/

set_option autoImplicit false

namespace Argunix.Daemon

open Argunix.Lib Argunix.Sched Argunix.Sched.DagStrategy Argunix.Eval Argunix.Store

/-! ## One row for each spec -/

/-- The rows of eval errors are closed for good. -/
def ErrorsFinal (row : EvalRow) (persisted : Persisted) : Prop :=
  ∀ q ∈ persisted, q.1.error.isSome = true → ¬ OpenRow row q.2

/-- One row for each spec of the result, in its order. -/
def Complete (jobs : List JobSpec) (row : EvalRow) : Prop :=
  ∃ persisted, Whole row persisted ∧ persisted.map Prod.fst = jobs ∧ ErrorsFinal row persisted

/-- No row is running. -/
def Calm (row : EvalRow) : Prop := ∀ j, row.jobStatus j ≠ some .running

section Rows

variable {jobs : List JobSpec} {row row' : EvalRow} {persisted : Persisted}

theorem ErrorsFinal.mono (h : ErrorsFinal row persisted)
    (hopen : ∀ j, OpenRow row' j → OpenRow row j) : ErrorsFinal row' persisted :=
  fun q hq herr ho => h q hq herr (hopen _ ho)

theorem Complete.mono (h : Complete jobs row) (hspecs : row'.specs = row.specs)
    (hopen : ∀ j, OpenRow row' j → OpenRow row j) : Complete jobs row' := by
  obtain ⟨persisted, hwhole, hjobs, herrors⟩ := h
  exact ⟨persisted, hspecs.trans hwhole, hjobs, herrors.mono hopen⟩

theorem Complete.phase (h : Complete jobs row) {e : EvalId} {p p' : Phase} {a : PhaseAct}
    (hact : PhaseActs e row p a row' p') : Complete jobs row' :=
  h.mono hact.specs fun _ ho => hact.openRow ho

theorem Complete.markRunningInterrupted (h : Complete jobs row) :
    Complete jobs row.markRunningInterrupted :=
  h.mono (EvalRow.specs_updateJobs row _) fun _ ho => OpenRow.of_updateJobs OpenRow.of_interrupt ho

theorem Complete.requeueInterrupted (h : Complete jobs row) :
    Complete jobs row.requeueInterrupted :=
  h.mono (EvalRow.specs_updateJobs row _) fun _ ho => OpenRow.of_updateJobs OpenRow.of_requeue ho

theorem calm_markRunningInterrupted (row : EvalRow) : Calm row.markRunningInterrupted := by
  intro j hj
  rw [EvalRow.markRunningInterrupted, EvalRow.jobStatus_updateJobs] at hj
  obtain ⟨s, -, hs⟩ := Option.map_eq_some_iff.mp hj
  split at hs
  · exact absurd hs (by simp)
  · rename_i hne
    exact hne hs

theorem Calm.requeueInterrupted (h : Calm row) : Calm row.requeueInterrupted := by
  intro j hj
  rw [EvalRow.requeueInterrupted, EvalRow.jobStatus_updateJobs] at hj
  obtain ⟨s, hrow, hs⟩ := Option.map_eq_some_iff.mp hj
  split at hs
  · exact absurd hs (by simp)
  · exact h j (hs ▸ hrow)

theorem ClosedRow.markRunningInterrupted {j : JobId} (h : ClosedRow row j) :
    ClosedRow row.markRunningInterrupted j := by
  refine h.congr ?_
  rw [EvalRow.markRunningInterrupted, EvalRow.jobStatus_updateJobs]
  cases hs : row.jobStatus j with
  | none => rfl
  | some s =>
    have hne : s ≠ .running := fun heq => h.2 (by rw [hs, heq])
    rw [Option.map_some, if_neg hne]

theorem Whole.ids (h : Whole row persisted) : row.specs.map Prod.fst = persisted.map Prod.snd := by
  unfold Whole at h
  rw [h]
  simp [described, Function.comp_def]

theorem Whole.nodup (h : Whole row persisted) : (persisted.map Prod.snd).Nodup :=
  h.ids ▸ row.nodup_specs

/-- A row that is open has a Job without an eval error. -/
theorem Whole.exists_of_open (h : Whole row persisted) (herrors : ErrorsFinal row persisted)
    {j : JobId} (hopen : OpenRow row j) : ∃ q ∈ persisted, q.2 = j ∧ q.1.error = none := by
  have hmem : j ∈ row.specs.map Prod.fst := by
    obtain ⟨s, hs, -⟩ := hopen
    rw [EvalRow.mem_specs_fst, hs]
    rfl
  rw [h.ids] at hmem
  obtain ⟨q, hq, rfl⟩ := List.mem_map.mp hmem
  refine ⟨q, hq, rfl, ?_⟩
  by_contra herr
  exact herrors q hq (Option.isSome_iff_ne_none.mpr herr) hopen

/-- A queued or running row, in the spelling of the theorems above. -/
theorem openRow_of_mem {x : (_ : JobId) × JobRow} (hx : x ∈ row.jobs.entries)
    (hopen : x.2.status = .queued ∨ x.2.status = .running) :
    row.jobStatus x.1 = some x.2.status ∧ OpenRow row x.1 := by
  have hs : row.jobStatus x.1 = some x.2.status := by
    rw [EvalRow.jobStatus, HashMap.mem_entries_iff.mp hx]
    rfl
  refine ⟨hs, x.2.status, hs, ?_⟩
  rcases hopen with h | h <;> rw [h] <;> rfl

/-- `nix-eval-jobs` gives a derivation or an error. -/
def DerivationOrError (jobs : List JobSpec) : Prop :=
  ∀ spec ∈ jobs, spec.error = none → spec.drvPath.isSome = true

/-- The first phase is handed every row. -/
theorem Whole.allHanded (h : Whole row persisted) (herrors : ErrorsFinal row persisted)
    (hjobs : DerivationOrError (persisted.map Prod.fst)) : AllHanded row persisted := by
  intro x hx hopen
  obtain ⟨q, hq, hj, hnone⟩ := h.exists_of_open herrors (openRow_of_mem hx hopen).2
  exact ⟨q, hq, hj, hjobs q.1 (List.mem_map_of_mem hq) hnone, hnone⟩

/-- **A resumed phase is handed every row that is open.** -/
theorem Complete.allHanded (h : Complete jobs row) (hcalm : Calm row)
    (hjobs : DerivationOrError jobs) : AllHanded row (loadJobsForResume row) := by
  obtain ⟨persisted, hwhole, rfl, herrors⟩ := h
  intro x hx hopen
  obtain ⟨hs, ho⟩ := openRow_of_mem hx hopen
  obtain ⟨q, hq, hj, hnone⟩ := hwhole.exists_of_open herrors ho
  have hqueued : x.2.status = .queued :=
    hopen.resolve_right fun hrun => hcalm x.1 (by rw [hs, hrun])
  refine ⟨q, ?_, hj, hjobs q.1 (List.mem_map_of_mem hq) hnone, hnone⟩
  rw [loadJobsForResume_eq hwhole]
  exact List.mem_filter.mpr ⟨hq, by simp [hj, hs, hqueued]⟩

end Rows

/-! ## Where the evaluation is -/

/-- With the worker: what holds of its rows at each point of `process`. -/
def AtWorker (jobs : List JobSpec) (row : EvalRow) : WorkerPc → Prop
  | .idle | .evaluating _ => False
  | .picked _ | .loading _ => Complete jobs row ∧ Calm row
  | .persisting _ todo persisted =>
    row.specs = described persisted ∧ persisted.map Prod.fst ++ todo = jobs ∧
      ErrorsFinal row persisted
  | .describing _ spec jobId todo persisted =>
    row.specs = described persisted ++ [(jobId, none)] ∧
      persisted.map Prod.fst ++ spec :: todo = jobs ∧ ErrorsFinal row persisted
  | .concluding _ spec jobId todo persisted =>
    row.specs = described persisted ++ [(jobId, some spec)] ∧
      persisted.map Prod.fst ++ spec :: todo = jobs ∧ ErrorsFinal row persisted
  | .walking _ persisted =>
    Complete jobs row ∧ (persisted.map Prod.snd).Nodup ∧ AllHanded row persisted

/-- In a phase: at work with its token not fired, or out of the loop with every row closed. -/
inductive InPhase (e : EvalId) (row : EvalRow) (p : Phase) : Prop
  | working (items : List ScheduleItem) : (items.map (·.jobId)).Nodup →
      (∀ item ∈ items, item.evalId = e) → row.status = .building → p.cancel = false →
      Working items row p → InPhase e row p
  | left : row.status = .building ∨ row.status = .done → Left row p → InPhase e row p

/-- **The three places of an evaluation** whose result has come in. A crash leaves it `away`. -/
inductive Place (e : EvalId) (jobs : List JobSpec) (w : World) (row : EvalRow) : Prop
  | worker : w.worker.evalId = some e → row.status = .building → w.cancel = false →
      AtWorker jobs row w.worker → Place e jobs w row
  | phase (p : Phase) : (e, p) ∈ w.phases → Complete jobs row → InPhase e row p → Place e jobs w row
  | away : w.worker.evalId ≠ some e → (∀ p, (e, p) ∉ w.phases) → Complete jobs row →
      w.main = .down ∨ Calm row →
      row.status = .building ∨ (row.status = .done ∧ ∀ j, ClosedRow row j) → Place e jobs w row

/-- Neither sent nor listed twice since boot. -/
def Once (e : EvalId) (w : World) : Prop := (w.sent ++ w.main.toSend).count e ≤ 1

instance (e : EvalId) (w : World) : Decidable (Once e w) :=
  inferInstanceAs (Decidable (_ ≤ _))

theorem Once.sent {e : EvalId} {w : World} (h : Once e w) : w.sent.count e ≤ 1 := by
  unfold Once at h
  rw [List.count_append] at h
  omega

theorem Once.not_listed {e : EvalId} {w : World} (h : Once e w) (hsent : e ∈ w.sent) :
    e ∉ w.main.toSend := by
  intro hlist
  unfold Once at h
  rw [List.count_append] at h
  have hpos := List.count_pos_iff.mpr hsent
  have hpos' := List.count_pos_iff.mpr hlist
  omega

namespace Place

variable {e e' : EvalId} {jobs : List JobSpec} {w w' : World} {row row' : EvalRow}

theorem status (h : Place e jobs w row) : row.status = .building ∨ row.status = .done := by
  cases h with
  | worker _ hst => exact Or.inl hst
  | phase p _ _ hin =>
    cases hin with
    | working _ _ _ hst => exact Or.inl hst
    | left hst => exact hst
  | away _ _ _ _ hst => exact hst.imp_right And.left

/-- Nothing that concerns the evaluation has changed. -/
theorem frame (h : Place e jobs w row)
    (hworker : (w'.worker = w.worker ∧ w'.cancel = w.cancel) ∨
      (w.worker.evalId ≠ some e ∧ w'.worker.evalId ≠ some e))
    (hphases : ∀ p, (e, p) ∈ w'.phases ↔ (e, p) ∈ w.phases)
    (hmain : w.main = .down → w'.main = .down ∨ Calm row) : Place e jobs w' row := by
  cases h with
  | worker hw hst hc hat =>
    rcases hworker with ⟨hsame, hcancel⟩ | ⟨hne, -⟩
    · exact .worker (hsame ▸ hw) hst (hcancel.trans hc) (hsame ▸ hat)
    · exact absurd hw hne
  | phase p hp hcomplete hin => exact .phase p ((hphases p).mpr hp) hcomplete hin
  | away hw hp hcomplete hcalm hst =>
    refine .away ?_ (fun p hp' => hp p ((hphases p).mp hp')) hcomplete ?_ hst
    · rcases hworker with ⟨hsame, -⟩ | ⟨-, hne⟩
      · rwa [hsame]
      · exact hne
    · exact hcalm.elim hmain Or.inr

/-- Sent once, with the worker it is in no other place. -/
theorem at_worker (h : Place e jobs w row) (hmail : Mail e w) (honce : Once e w)
    (hw : w.worker.evalId = some e) :
    row.status = .building ∧ w.cancel = false ∧ AtWorker jobs row w.worker := by
  cases h with
  | worker _ hst hc hat => exact ⟨hst, hc, hat⟩
  | phase p hp =>
    exact absurd (List.mem_map.mpr ⟨_, hp, rfl⟩) (hmail.alone hw honce.sent)
  | away hne => exact absurd hw hne

theorem in_phase (h : Place e jobs w row) (hmail : Mail e w) (honce : Once e w) {p : Phase}
    (hp : (e, p) ∈ w.phases) : Complete jobs row ∧ InPhase e row p := by
  cases h with
  | worker hw => exact absurd (List.mem_map.mpr ⟨_, hp, rfl⟩) (hmail.alone hw honce.sent)
  | phase p' hp' hcomplete hin =>
    obtain rfl := hmail.one_phase honce.sent hp hp'
    exact ⟨hcomplete, hin⟩
  | away _ hnone => exact absurd hp (hnone p)

theorem nowhere (h : Place e jobs w row) (hw : w.worker.evalId ≠ some e)
    (hp : e ∉ w.phases.map Prod.fst) :
    Complete jobs row ∧ (w.main = .down ∨ Calm row) ∧
      (row.status = .building ∨ (row.status = .done ∧ ∀ j, ClosedRow row j)) := by
  cases h with
  | worker hw' => exact absurd hw' hw
  | phase p hp' => exact absurd (List.mem_map.mpr ⟨_, hp', rfl⟩) hp
  | away _ _ hcomplete hcalm hst => exact ⟨hcomplete, hcalm, hst⟩

/-- An evaluation that is done has no open row. -/
theorem closed (h : Place e jobs w row) (hdone : row.status = .done) :
    Complete jobs row ∧ ∀ j, ClosedRow row j := by
  cases h with
  | worker _ hst => exact absurd (hst.symm.trans hdone) (by simp)
  | phase p _ hcomplete hin =>
    cases hin with
    | working _ _ _ hst => exact absurd (hst.symm.trans hdone) (by simp)
    | left _ hleft => exact ⟨hcomplete, hleft.closed⟩
  | away _ _ hcomplete _ hst =>
    rcases hst with hst | ⟨-, hclosed⟩
    · exact absurd (hst.symm.trans hdone) (by simp)
    · exact ⟨hcomplete, hclosed⟩

end Place

/-! ## `process`, statement by statement -/

namespace AtWorker

variable {e : EvalId} {jobs todo : List JobSpec} {row : EvalRow} {persisted : Persisted}
  {spec : JobSpec} {jobId : JobId}

theorem create (h : AtWorker jobs row (.persisting e (spec :: todo) persisted))
    (hnew : row.NewId jobId) :
    AtWorker jobs (row.createJob jobId spec.attrPath spec.drvPath (systemColumn spec))
      (.describing e spec jobId todo persisted) := by
  obtain ⟨hspecs, hjobs, herrors⟩ := h
  refine ⟨by rw [EvalRow.specs_createJob hnew, hspecs], hjobs, fun q hq herr ho => ?_⟩
  refine herrors q hq herr ?_
  obtain ⟨s, hs, hopen⟩ := ho
  rw [EvalRow.jobStatus_createJob] at hs
  split at hs
  · -- the new id is none of those handed out before
    rename_i heq
    have hmem : q.2 ∈ row.specs.map Prod.fst := by
      rw [hspecs]
      exact List.mem_map.mpr ⟨(q.2, some q.1), List.mem_map.mpr ⟨q, hq, rfl⟩, rfl⟩
    rw [EvalRow.mem_specs_fst, heq, EvalRow.jobStatus, hnew.lookup] at hmem
    exact absurd hmem (by simp)
  · exact ⟨s, hs, hopen⟩

theorem describe (h : AtWorker jobs row (.describing e spec jobId todo persisted)) :
    AtWorker jobs (row.setSpecJson jobId spec) (.concluding e spec jobId todo persisted) := by
  obtain ⟨hspecs, hjobs, herrors⟩ := h
  refine ⟨?_, hjobs, herrors.mono fun j ho => ?_⟩
  · rw [EvalRow.specs_setSpecJson, hspecs]
    exact described_describe (hspecs ▸ row.nodup_specs) spec
  · unfold OpenRow at ho
    rwa [EvalRow.jobStatus_setSpecJson] at ho

theorem conclude (h : AtWorker jobs row (.concluding e spec jobId todo persisted)) :
    AtWorker jobs (if spec.error.isSome then row.finishJob jobId .failure else row)
      (.persisting e todo (persisted ++ [(spec, jobId)])) := by
  obtain ⟨hspecs, hjobs, herrors⟩ := h
  refine ⟨?_, ?_, fun q hq herr => ?_⟩
  · rw [described_concat, ← hspecs]
    split
    · exact EvalRow.specs_updateJob row _ _
    · rfl
  · rw [← hjobs]
    simp
  · rcases List.mem_append.mp hq with hq | hq
    · split
      · exact fun ho => herrors q hq herr ho.of_finishJob
      · exact herrors q hq herr
    · obtain rfl := List.mem_singleton.mp hq
      rw [if_pos herr]
      exact not_openRow_finishJob rfl row jobId

/-- The window is over: every row is there. -/
theorem complete (h : AtWorker jobs row (.persisting e [] persisted)) :
    Whole row persisted ∧ persisted.map Prod.fst = jobs ∧ ErrorsFinal row persisted := by
  obtain ⟨hspecs, hjobs, herrors⟩ := h
  rw [List.append_nil] at hjobs
  exact ⟨hspecs, hjobs, herrors⟩

theorem persist (h : AtWorker jobs row (.persisting e [] persisted))
    (hjobs : DerivationOrError jobs) : AtWorker jobs row (.walking e persisted) := by
  obtain ⟨hwhole, rfl, herrors⟩ := h.complete
  exact ⟨⟨persisted, hwhole, rfl, herrors⟩, hwhole.nodup, hwhole.allHanded herrors hjobs⟩

theorem load (h : AtWorker jobs row (.loading e)) (hjobs : DerivationOrError jobs) :
    AtWorker jobs row (.walking e (loadJobsForResume row)) :=
  ⟨h.1, (nodup_loadJobsForResume row).1, h.1.allHanded h.2 hjobs⟩

/-- Out of the window a crash finds every row. -/
theorem of_through {pc : WorkerPc} (h : AtWorker jobs row pc) (hpc : pc.evalId = some e)
    (hthrough : pc.through e) : Complete jobs row := by
  cases pc with
  | idle | evaluating => exact absurd h id
  | picked | loading => exact h.1
  | walking => exact h.1
  | persisting e' todo persisted =>
    obtain rfl := hthrough (Option.some.inj hpc)
    exact ⟨persisted, h.complete⟩
  | describing | concluding => exact absurd (Option.some.inj hpc) hthrough

end AtWorker

/-! ## One action -/

/-- A crash does not hit the persist loop of the evaluation, and none of its tasks dies. -/
def SafeAct (e : EvalId) (w : World) : Action → Prop
  | .evaluated jobs => w.worker = .evaluating e → DerivationOrError jobs
  | .crash => w.worker.through e
  | .phase i (.build _ b) => (w.phases[i]?).map Prod.fst = some e → b ≠ .fail
  | _ => True

/-- The condition on the steps of a run. -/
def CrashSafe (e : EvalId) (w : World) (a : Action) : Prop := Once e w ∧ SafeAct e w a

/-- The evaluation is given up, or it is in one of its places. -/
def Stays (e : EvalId) (jobs : List JobSpec) (w : World) : Prop :=
  ∃ row, w.evals.lookup e = some row ∧ (Gone row ∨ Place e jobs w row)

namespace Place

variable {e : EvalId} {jobs : List JobSpec} {w w' : World} {row row' : EvalRow}

theorem stays (h : Place e jobs w row) (hl : w.evals.lookup e = some row)
    (hrow : w'.evals.lookup e = w.evals.lookup e)
    (hworker : (w'.worker = w.worker ∧ w'.cancel = w.cancel) ∨
      (w.worker.evalId ≠ some e ∧ w'.worker.evalId ≠ some e))
    (hphases : ∀ p, (e, p) ∈ w'.phases ↔ (e, p) ∈ w.phases)
    (hmain : w.main = .down → w'.main = .down) : Stays e jobs w' :=
  ⟨row, hrow.trans hl, Or.inr (h.frame hworker hphases fun hm => Or.inl (hmain hm))⟩

theorem boot (h : Place e jobs w row) (hl : w.evals.lookup e = some row) (hmail : Mail e w)
    (hm : w.main = .down) :
    Stays e jobs { w with
      evals := w.evals.mapValues (·.markRunningInterrupted)
      main := .listEvaluating } := by
  obtain ⟨hw, hp, -⟩ := hmail.down hm
  have hidle : w.worker.evalId ≠ some e := by simp [hw, WorkerPc.evalId]
  obtain ⟨hcomplete, -, hst⟩ := h.nowhere hidle (by simp [hp])
  refine ⟨row.markRunningInterrupted,
    (HashMap.lookup_mapValues _ e w.evals).trans (by rw [hl]; rfl), Or.inr ?_⟩
  exact .away hidle (by simp [hp]) hcomplete.markRunningInterrupted
    (Or.inr (calm_markRunningInterrupted row))
    (hst.imp_right fun hst => ⟨hst.1, fun j => (hst.2 j).markRunningInterrupted⟩)

/-- The third pass reopens what a crash interrupted, before the evaluation is anywhere. -/
theorem recover (h : Place e jobs w row) (hl : w.evals.lookup e = some row) (hmail : Mail e w)
    (honce : Once e w) (hlate : e ∈ w.main.toSend → w.main.toResume.isSome = true)
    (hwaits : row.status = .done → e ∈ w.main.toSend → e ∈ w.sent) (hr : w.recover = some w') :
    Stays e jobs w' := by
  obtain ⟨hw, hc, hp, hrows⟩ := World.recover_rows hr
  have hup : w.main ≠ .down := by
    intro hm
    rw [World.recover, hm] at hr
    exact absurd hr (by simp)
  have hsame : w'.evals.lookup e = w.evals.lookup e → Stays e jobs w' := fun hrow =>
    h.stays hl hrow (Or.inl ⟨hw, hc⟩) (fun p => by rw [hp]) fun hm => absurd hm hup
  rcases hrows with hrows | ⟨e', ids, hm, hrows⟩ | ⟨e', ids, hm, hrows⟩
  · exact hsame (by rw [hrows])
  · by_cases heq : e = e'
    · -- it is not listed by the first pass
      have := hlate (by rw [hm, heq]; exact List.mem_cons_self)
      rw [hm] at this
      exact absurd this (by simp [MainPc.toResume])
    · exact hsame (by rw [hrows, World.lookup_update, if_neg heq])
  · by_cases heq : e = e'
    · subst heq
      have hlisted : e ∈ w.main.toSend := by rw [hm]; exact List.mem_cons_self
      have hunsent : e ∉ w.sent := fun hsent => honce.not_listed hsent hlisted
      obtain ⟨hnw, hnp⟩ := hmail.nowhere hunsent
      obtain ⟨hcomplete, hcalm, hst⟩ := h.nowhere hnw hnp
      refine ⟨row.requeueInterrupted, by rw [hrows, World.lookup_update, if_pos rfl, hl]; rfl,
        Or.inr (.away (by rwa [hw]) (fun p hp' => hnp ?_) hcomplete.requeueInterrupted
          (Or.inr (hcalm.resolve_left hup).requeueInterrupted) (Or.inl ?_))⟩
      · exact List.mem_map.mpr ⟨_, hp ▸ hp', rfl⟩
      · exact hst.resolve_right fun hdone => hunsent (hwaits hdone.1 hlisted)
    · exact hsame (by rw [hrows, World.lookup_update, if_neg heq])

/-- The evaluation is given up, unless it is done. -/
theorem give_up (h : Place e jobs w row)
    (hworker : w'.worker = w.worker ∧ w'.cancel = w.cancel) (hphases : w'.phases = w.phases)
    (hmain : w'.main = w.main) (hrow : w'.evals.lookup e = some (row.finish .cancelled)) :
    Stays e jobs w' := by
  refine ⟨_, hrow, ?_⟩
  rcases h.status with hst | hst
  · exact Or.inl (.of_open (by rw [hst]; rfl) (Or.inl rfl))
  · rw [EvalRow.finish, EvalRow.guardedStatus_of_terminal (by rw [hst]; rfl)]
    exact Or.inr (h.frame (Or.inl hworker) (fun p => by rw [hphases])
      fun hm => Or.inl (hmain.trans hm))

/-- A crash forgets the place. -/
theorem crash (h : Place e jobs w row) (hl : w.evals.lookup e = some row)
    (hthrough : w.worker.through e) : Stays e jobs (World.down w.evals) := by
  have haway : Complete jobs row →
      row.status = .building ∨ (row.status = .done ∧ ∀ j, ClosedRow row j) →
      Stays e jobs (World.down w.evals) := fun hcomplete hst =>
    ⟨row, hl, Or.inr (.away (by simp [World.down, WorkerPc.evalId]) (by simp [World.down]) hcomplete
      (Or.inl rfl) hst)⟩
  cases h with
  | worker hw hst _ hat => exact haway (hat.of_through hw hthrough) (Or.inl hst)
  | phase p _ hcomplete hin =>
    cases hin with
    | working _ _ _ hst => exact haway hcomplete (Or.inl hst)
    | left hst hleft => exact haway hcomplete (hst.imp_right fun hdone => ⟨hdone, hleft.closed⟩)
  | away _ _ hcomplete _ hst => exact haway hcomplete hst

end Place

/-- **One action of the phase of the evaluation.** -/
theorem InPhase.step {e : EvalId} {row row' : EvalRow} {p p' : Phase} {b : PhaseAct}
    (h : InPhase e row p) (hok : ∀ token a, b = .build token a → a ≠ .fail)
    (hs : PhaseStep e row p b row' p') : Gone row' ∨ InPhase e row' p' := by
  obtain ⟨s, -, hact⟩ := hs.acts
  cases h with
  | working items hnd hev hst hc hwork =>
    have hopen : row.status.isTerminal = false := by rw [hst]; rfl
    have hcancelAct : p.CancelAct b := by
      cases b with
      | check | pollCancel => exact fun hfired => absurd (hc.symm.trans hfired) (by simp)
      | build token a => exact hok token a rfl
      | _ => trivial
    rcases hact.status with hsame | rfl | ⟨status, hpc, -⟩
    · have hbuilding := hsame.trans hst
      rcases hwork.step hnd hev hcancelAct hs with hwork' | ⟨-, hleft⟩ | ⟨hfired, -⟩
      · exact Or.inr (.working items hnd hev hbuilding ((hact.cancel_eq hopen).trans hc) hwork')
      · exact Or.inr (.left (Or.inl hbuilding) hleft)
      · exact absurd (hc.symm.trans hfired) (by simp)
    · exact Or.inl (.of_open hopen (Or.inl rfl))
    · -- the loop has not been left
      have hstay := hwork.staying
      change p.pc = .finishing status at hpc
      rw [hpc] at hstay
      exact absurd hstay (by simp [LoopPc.leaving])
  | left hst hleft =>
    have hleft' := hleft.step hs
    have hdone : ∀ status, row.status = .done → (row.guardedStatus status).status = .done := by
      intro status hst
      rw [EvalRow.guardedStatus_of_terminal (by rw [hst]; rfl), hst]
    rcases hact.status with hsame | rfl | ⟨status, hpc, rfl⟩
    · exact Or.inr (.left (by rwa [hsame]) hleft')
    · rcases hst with hst | hst
      · exact Or.inl (.of_open (by rw [hst]; rfl) (Or.inl rfl))
      · exact Or.inr (.left (Or.inr (hdone _ hst)) hleft')
    · have hpcs := hleft.pc
      change p.pc = .finishing status at hpc
      rw [hpc] at hpcs
      obtain rfl : status = .done := by simpa using hpcs
      refine Or.inr (.left (Or.inr ?_) hleft')
      rcases hst with hst | hst
      · rw [EvalRow.finish, EvalRow.status_guardedStatus, hst]
        rfl
      · exact hdone _ hst

/-- The phase of another evaluation has acted. -/
theorem World.mem_stepped {w : World} {i : ℕ} {e e' : EvalId} {p p' : Phase}
    (hi : w.phases[i]? = some (e', p)) (hne : e ≠ e') (row : EvalRow) (q : Phase) :
    (e, q) ∈ (w.stepped i e' row p').phases ↔ (e, q) ∈ w.phases := by
  show (e, q) ∈ w.phases.set i (e', p') ↔ _
  simp only [List.mem_iff_getElem?]
  refine exists_congr fun k => ?_
  rw [List.getElem?_set]
  by_cases hk : i = k
  · subst hk
    rw [if_pos rfl, hi]
    have hlt := (List.getElem?_eq_some_iff.mp hi).1
    simp only [if_pos hlt, Option.some.injEq, Prod.mk.injEq]
    exact ⟨fun h => absurd h.1.symm hne, fun h => absurd h.1.symm hne⟩
  · rw [if_neg hk]

theorem World.mem_stepped_self {w : World} {i : ℕ} {e : EvalId} {p : Phase}
    (hi : w.phases[i]? = some (e, p)) (row : EvalRow) (p' : Phase) :
    (e, p') ∈ (w.stepped i e row p').phases := by
  refine List.mem_iff_getElem?.mpr ⟨i, ?_⟩
  show (w.phases.set i (e, p'))[i]? = _
  rw [List.getElem?_set, if_pos rfl, if_pos (List.getElem?_eq_some_iff.mp hi).1]

/-! ## What `process` does to its evaluation, and to the others -/

/-- A statement of `process`, or the token it registered. -/
def Action.ofProcess : Action → Bool
  | fire | read | abandon | fail | evaluated _ | createRow _ | describe | conclude | persisted
  | load => true
  | boot | recover | submit .. | supersede _ | receive | spawn _ | phase .. | crash => false

theorem Acts.elsewhere {w w' : World} {a : Action} (hd : Acts w a w') (ha : a.ofProcess = true)
    {e : EvalId} (hw : w.worker.evalId ≠ some e) :
    w'.evals.lookup e = w.evals.lookup e ∧ w'.worker.evalId ≠ some e ∧ w'.phases = w.phases ∧
      w'.main = w.main := by
  have hframe : ∀ {e' : EvalId} (f : EvalRow → EvalRow), e' ≠ e →
      (w.update e' f).evals.lookup e = w.evals.lookup e := fun f hne => by
    rw [World.lookup_update, if_neg hne.symm]
  cases hd with
  | boot | recover | submit | supersede | receive | spawn | phase | crash =>
    exact absurd ha (by simp [Action.ofProcess])
  | fire => exact ⟨rfl, hw, rfl, rfl⟩
  | dropped => exact ⟨rfl, by simp [WorkerPc.evalId], rfl, rfl⟩
  | resumed hw' | persisted hw' | load hw' =>
    rw [hw'] at hw
    exact ⟨rfl, hw, rfl, rfl⟩
  | started hw' | evaluated _ hw' | createRow hw' | describe hw' | conclude hw' =>
    rw [hw'] at hw
    exact ⟨hframe _ fun heq => hw (congrArg some heq), hw, rfl, rfl⟩
  | abandon hw' =>
    rw [hw'] at hw
    exact ⟨hframe _ fun heq => hw (congrArg some heq), by simp [WorkerPc.evalId], rfl, rfl⟩
  | fail hw' =>
    rw [hw'] at hw
    exact ⟨hframe _ fun heq => hw (congrArg some heq), by simp [WorkerPc.evalId], rfl, rfl⟩

/-- **One statement of `process` on the evaluation.** -/
theorem AtWorker.process {e : EvalId} {jobs : List JobSpec} {w w' : World} {row : EvalRow}
    {a : Action} (hat : AtWorker jobs row w.worker) (hl : w.evals.lookup e = some row)
    (hev : w.worker.evalId = some e) (hst : row.status = .building) (hc : w.cancel = false)
    (hjobs : DerivationOrError jobs) (hd : Acts w a w') (ha : a.ofProcess = true) :
    Stays e jobs w' := by
  have hgoes : ∀ {w'' : World} {row' : EvalRow}, w''.evals.lookup e = some row' →
      w''.worker.evalId = some e → row'.status = .building → w''.cancel = false →
      AtWorker jobs row' w''.worker → Stays e jobs w'' := fun hl' hw hst hc hat =>
    ⟨_, hl', Or.inr (.worker hw hst hc hat)⟩
  have hupdated : ∀ (f : EvalRow → EvalRow),
      (w.update e f).evals.lookup e = some (f row) := fun f => by
    rw [World.lookup_update, if_pos rfl, hl]
    rfl
  cases hd with
  | boot | recover | submit | supersede | receive | spawn | phase | crash =>
    exact absurd ha (by simp [Action.ofProcess])
  | fire hw hl' _ hterm =>
    -- the token fires after a terminal status
    obtain rfl := Option.some.inj (hw.symm.trans hev)
    rw [hl, Option.some.injEq] at hl'
    rw [← hl', hst] at hterm
    exact absurd hterm (by decide)
  | dropped hw hcause =>
    rw [hw] at hev
    obtain rfl := Option.some.inj hev
    rcases hcause row hl with hcause | hcause
    · exact absurd (hst.symm.trans hcause) (by simp)
    · exact absurd (hc.symm.trans hcause) (by simp)
  | resumed hw =>
    rw [hw] at hev hat
    exact hgoes hl hev hst hc hat
  | started hw hl' hnot =>
    rw [hw] at hev
    obtain rfl := Option.some.inj hev
    rw [hl, Option.some.injEq] at hl'
    exact absurd (hl' ▸ hst) hnot
  | abandon hw | evaluated _ hw =>
    rw [hw] at hat
    exact absurd hat id
  | fail hw =>
    obtain rfl := Option.some.inj (hw.symm.trans hev)
    exact ⟨_, hupdated _, Or.inl (.of_open (by rw [hst]; rfl) (Or.inr rfl))⟩
  | createRow hw hl' hnew =>
    rw [hw] at hev hat
    obtain rfl := Option.some.inj hev
    rw [hl, Option.some.injEq] at hl'
    exact hgoes (hupdated _) rfl hst hc (hat.create (hl' ▸ hnew))
  | describe hw =>
    rw [hw] at hev hat
    obtain rfl := Option.some.inj hev
    exact hgoes (hupdated _) rfl hst hc hat.describe
  | conclude hw =>
    rw [hw] at hev hat
    obtain rfl := Option.some.inj hev
    refine hgoes (hupdated _) rfl ?_ hc hat.conclude
    split <;> exact hst
  | persisted hw =>
    rw [hw] at hev hat
    exact hgoes hl hev hst hc (hat.persist hjobs)
  | load hw hl' =>
    rw [hw] at hev hat
    obtain rfl := Option.some.inj hev
    rw [hl, Option.some.injEq] at hl'
    exact hgoes hl rfl hst hc (hl' ▸ hat.load hjobs)

/-! ## From the result on -/

/-- The invariant of an evaluation whose result has come in. -/
structure Kept (e : EvalId) (jobs : List JobSpec) (w : World) : Prop where
  mail : Mail e w
  /-- Only the third pass lists it. -/
  late : e ∈ w.main.toSend → w.main.toResume.isSome = true
  /-- Done, it is not handed to the worker again. -/
  waits : ∀ row, w.evals.lookup e = some row → row.status = .done →
    e ∉ w.channel ∧ (e ∈ w.main.toSend → e ∈ w.sent)
  stays : Stays e jobs w

namespace Kept

variable {e : EvalId} {jobs : List JobSpec} {w w' : World} {a : Action}

/-- The worker takes it: the last crash is over, and its rows are calm. -/
theorem receive (h : Kept e jobs w) {row : EvalRow} (hl : w.evals.lookup e = some row)
    (hplace : Place e jobs w row) (honce : Once e w) (hw : w.worker = .idle)
    (hc : e ∈ w.channel) :
    row.status = .building ∧ Complete jobs row ∧ Calm row := by
  have hidle : w.worker.evalId ≠ some e := by simp [hw, WorkerPc.evalId]
  obtain ⟨hcomplete, hcalm, hst⟩ := hplace.nowhere hidle (h.mail.waiting hc honce.sent)
  have hup : w.main ≠ .down := by
    intro hm
    rw [(h.mail.down hm).2.2] at hc
    exact absurd hc (by simp)
  refine ⟨hst.resolve_right fun hdone => ?_, hcomplete, hcalm.resolve_left hup⟩
  exact (h.waits row hl hdone.1).1 hc

theorem step_stays (h : Kept e jobs w) (hjobs : DerivationOrError jobs) (hok : CrashSafe e w a)
    (hd : Acts w a w') : Stays e jobs w' := by
  obtain ⟨row, hl, hgone | hplace⟩ := h.stays
  · obtain ⟨row', hl', hgone'⟩ := hd.gone hl hgone h.late
    exact ⟨row', hl', Or.inl hgone'⟩
  obtain ⟨honce, hsafe⟩ := hok
  cases ha : a.ofProcess with
  | true =>
    by_cases hev : w.worker.evalId = some e
    · obtain ⟨hst, hc, hat⟩ := hplace.at_worker h.mail honce hev
      exact hat.process hl hev hst hc hjobs hd ha
    · obtain ⟨hrow, hw', hp, hm⟩ := hd.elsewhere ha hev
      exact hplace.stays hl hrow (Or.inr ⟨hev, hw'⟩) (fun p => by rw [hp]) fun hdown =>
        hm.trans hdown
  | false =>
    cases hd with
    | boot hm => exact hplace.boot hl h.mail hm
    | recover hr =>
      exact hplace.recover hl h.mail honce h.late (fun hdone => (h.waits row hl hdone).2) hr
    | @submit e' repoId hm hnone =>
      have hne : e ≠ e' := by
        rintro rfl
        exact absurd (hnone.symm.trans hl) (by simp)
      exact hplace.stays hl ((HashMap.lookup_insert_eq e' e _ w.evals).trans (if_neg hne))
        (Or.inl ⟨rfl, rfl⟩) (fun _ => Iff.rfl) id
    | @supersede e' hm =>
      by_cases heq : e = e'
      · subst heq
        refine hplace.give_up ⟨rfl, rfl⟩ rfl rfl ?_
        rw [World.lookup_update, if_pos rfl, hl]
        rfl
      · exact hplace.stays hl (by rw [World.lookup_update, if_neg heq]) (Or.inl ⟨rfl, rfl⟩)
          (fun _ => Iff.rfl) id
    | @receive e' channel hw hc =>
      by_cases heq : e = e'
      · subst heq
        obtain ⟨hst, hrow⟩ := h.receive hl hplace honce hw (by rw [hc]; exact List.mem_cons_self)
        exact ⟨row, hl, Or.inr (.worker rfl hst rfl hrow)⟩
      · refine hplace.stays hl rfl (Or.inr ⟨by simp [hw, WorkerPc.evalId], ?_⟩)
          (fun _ => Iff.rfl) id
        simpa [WorkerPc.evalId] using Ne.symm heq
    | @spawn e' persisted row₀ s walk hw hl' hk henq =>
      by_cases heq : e = e'
      · subst heq
        obtain ⟨hst, hc, hat⟩ := hplace.at_worker h.mail honce (by rw [hw]; rfl)
        rw [hw] at hat
        obtain ⟨hcomplete, hids, hrows⟩ := hat
        refine ⟨row, hl, Or.inr (.phase _ (List.mem_append_right _ (List.mem_singleton.mpr rfl))
          hcomplete ?_)⟩
        exact .working _ (nodup_scheduleItems walk row₀.repoId e hids)
          (fun _ hi => evalId_scheduleItems hi) hst hc (.start hk henq hids hrows _)
      · refine hplace.stays hl rfl (Or.inr ⟨?_, by simp [World.spawned, WorkerPc.evalId]⟩)
          (fun p => ?_) id
        · simpa [hw, WorkerPc.evalId] using Ne.symm heq
        · simp [World.spawned, heq]
    | @phase i e' p p' row₀ row' b hi hl' _ hs =>
      have hrow : (w.stepped i e' row' p').evals.lookup e =
          if e = e' then some row' else w.evals.lookup e := by
        refine (w.lookup_update e' e fun _ => row').trans ?_
        rw [hl']
        rfl
      by_cases heq : e = e'
      · subst heq
        rw [hl, Option.some.injEq] at hl'
        subst hl'
        obtain ⟨hcomplete, hin⟩ := hplace.in_phase h.mail honce (List.mem_of_getElem? hi)
        have hstep := hin.step (fun token a hb => ?_) hs
        · obtain ⟨s, -, hact⟩ := hs.acts
          refine ⟨row', hrow.trans (if_pos rfl), hstep.imp_right fun hin' => ?_⟩
          exact .phase p' (World.mem_stepped_self hi row' p') (hcomplete.phase hact) hin'
        · subst hb
          exact hsafe (by rw [hi]; rfl)
      · exact hplace.stays hl (hrow.trans (if_neg heq)) (Or.inl ⟨rfl, rfl⟩)
          (World.mem_stepped hi heq row') id
    | crash => exact hplace.crash hl hsafe
    | fire | dropped | resumed | started | abandon | fail | evaluated | createRow | describe
    | conclude | persisted | load => exact absurd ha (by simp [Action.ofProcess])

/-- What is done was done before, or it has a phase. -/
theorem done_of_acts (h : Kept e jobs w) (hd : Acts w a w') {row row' : EvalRow}
    (hl : w.evals.lookup e = some row) (hl' : w'.evals.lookup e = some row')
    (hdone : row'.status = .done) : row.status = .done ∨ e ∈ w.phases.map Prod.fst := by
  obtain ⟨row'', hl'', hst⟩ := hd.evalStatus hl
  obtain rfl := Option.some.inj (hl'.symm.trans hl'')
  rcases hst with hst | ⟨ids, hm⟩ | ⟨-, hphase⟩
  · exact Or.inl (hst ▸ hdone)
  · have := h.late (by rw [hm]; exact List.mem_cons_self)
    rw [hm] at this
    exact absurd this (by simp [MainPc.toResume])
  · exact Or.inr (hphase hdone)

theorem status (h : Kept e jobs w) {row : EvalRow} (hl : w.evals.lookup e = some row) :
    row.status ≠ .evaluating ∧ row.status ≠ .queued := by
  obtain ⟨row', hl', hrow⟩ := h.stays
  obtain rfl := Option.some.inj (hl.symm.trans hl')
  rcases hrow with (hst | hst) | hplace
  · rw [hst]
    exact ⟨by simp, by simp⟩
  · rw [hst]
    exact ⟨by simp, by simp⟩
  · rcases hplace.status with hst | hst <;> rw [hst] <;> exact ⟨by simp, by simp⟩

/-- **The invariant is kept** by every action that meets the condition. -/
theorem step (h : Kept e jobs w) (hjobs : DerivationOrError jobs) (hok : CrashSafe e w a)
    (hd : Acts w a w') : Kept e jobs w' := by
  refine ⟨h.mail.step hd, fun hlist => ?_, fun row' hl' hdone => ?_, h.step_stays hjobs hok hd⟩
  · rcases hd.toSend hlist with ⟨hlist, hlate⟩ | ⟨row, hl, hst | hst | ⟨-, hlate⟩⟩
    · exact hlate (h.late hlist)
    · exact absurd hst (h.status hl).1
    · exact absurd hst (h.status hl).2
    · exact hlate
  · obtain ⟨row, hl, -⟩ := h.stays
    -- it is neither in the channel nor listed
    have hfree : e ∉ w.channel ∧ e ∉ w.main.toSend := by
      rcases h.done_of_acts hd hl hl' hdone with hwas | hphase
      · obtain ⟨hc, hlist⟩ := h.waits row hl hwas
        exact ⟨hc, fun hlisted => hok.1.not_listed (hlist hlisted) hlisted⟩
      · exact ⟨fun hc => h.mail.waiting hc hok.1.sent hphase,
          hok.1.not_listed (h.mail.sent_of_phase hphase)⟩
    refine ⟨fun hc => ?_, fun hlist => ?_⟩
    · rcases hd.channel hc with hc | hlist | hnone
      · exact hfree.1 hc
      · exact hfree.2 hlist
      · exact absurd (hnone.symm.trans hl) (by simp)
    · rcases hd.toSend hlist with ⟨hlist, -⟩ | ⟨row₀, hl₀, hst⟩
      · exact absurd hlist hfree.2
      · obtain rfl := Option.some.inj (hl.symm.trans hl₀)
        have hnot : row.status ≠ .done := by
          rcases hst with hst | hst | ⟨hst, -⟩ <;> rw [hst] <;> simp
        have hphase := (h.done_of_acts hd hl hl' hdone).resolve_left hnot
        have hup : w'.main ≠ .down := by
          intro hm
          rw [hm] at hlist
          exact absurd hlist (by simp [MainPc.toSend])
        exact hd.sent hup (h.mail.sent_of_phase hphase)

/-- **Done, it has one closed row for each spec of its result.** -/
theorem done (h : Kept e jobs w) {row : EvalRow} (hl : w.evals.lookup e = some row)
    (hdone : row.status = .done) :
    row.specs.map Prod.snd = jobs.map some ∧
      ∀ j s, row.jobStatus j = some s → s.isTerminal = true ∨ s = .interrupted := by
  obtain ⟨row', hl', hrow⟩ := h.stays
  obtain rfl := Option.some.inj (hl.symm.trans hl')
  have hplace : Place e jobs w row := by
    refine hrow.resolve_left fun hgone => ?_
    unfold Gone at hgone
    rw [hdone] at hgone
    exact absurd hgone (by simp)
  obtain ⟨⟨persisted, hwhole, rfl, -⟩, hclosed⟩ := hplace.closed hdone
  refine ⟨?_, fun j s hs => ?_⟩
  · unfold Whole at hwhole
    rw [hwhole]
    simp [described, Function.comp_def]
  · obtain ⟨hq, hr⟩ := hclosed j
    rw [hs] at hq hr
    cases s with
    | queued => exact absurd rfl hq
    | running => exact absurd rfl hr
    | interrupted => exact Or.inr rfl
    | success | cached | failure | cancelled | skippedNoBuilder => exact Or.inl rfl

end Kept

/-! ## Up to the result -/

/-- No rows, and a status from before the build. -/
def Bare (row : EvalRow) : Prop :=
  row.specs = [] ∧ row.status ≠ .building ∧ row.status ≠ .done

theorem Bare.guardedStatus {row : EvalRow} (h : Bare row) {status : EvalStatus}
    (hb : status ≠ .building) (hd : status ≠ .done) : Bare (row.guardedStatus status) := by
  refine ⟨(EvalRow.specs_guardedStatus row status).trans h.1, ?_⟩
  rw [EvalRow.status_guardedStatus]
  split
  · exact h.2
  · exact ⟨hb, hd⟩

theorem Bare.gone {row : EvalRow} (h : Bare row) (hterm : row.status.isTerminal = true) :
    Gone row := by
  obtain ⟨-, -, hnot⟩ := h
  cases hst : row.status with
  | cancelled => exact Or.inl hst
  | evaluationFailed => exact Or.inr hst
  | done => exact absurd hst hnot
  | queued | evaluating | building =>
    rw [hst] at hterm
    exact absurd hterm (by decide)

theorem World.forall_lookup_update {w w' : World} {e e' : EvalId} {f : EvalRow → EvalRow}
    {P : EvalRow → Prop} (h : w'.evals = (w.update e' f).evals)
    (hP : ∀ row, w.evals.lookup e = some row → P row) (hf : ∀ row, P row → P (f row)) :
    ∀ row, w'.evals.lookup e = some row → P row := by
  intro row hl
  rw [h, World.lookup_update] at hl
  split at hl
  · rename_i heq
    obtain ⟨old, hold, rfl⟩ := Option.map_eq_some_iff.mp hl
    exact hf old (hP old (heq ▸ hold))
  · exact hP row hl

/-- The evaluation has not been submitted, or its result is to come. -/
structure Unborn (e : EvalId) (w : World) : Prop where
  phases : ∀ p, (e, p) ∉ w.phases
  worker : w.worker.evalId = some e → w.worker = .picked e ∨ w.worker = .evaluating e
  present : w.worker = .evaluating e → ∃ row, w.evals.lookup e = some row
  bare : ∀ row, w.evals.lookup e = some row → Bare row
  /-- The token has fired after a terminal status. -/
  fired : w.worker.evalId = some e → w.cancel = true →
    ∃ row, w.evals.lookup e = some row ∧ Gone row

namespace Unborn

variable {e : EvalId} {w w' : World} {a : Action}

theorem start {evals : HashMap EvalId EvalRow} (hnew : evals.lookup e = none) :
    Unborn e (World.down evals) :=
  ⟨by simp [World.down], by simp [World.down, WorkerPc.evalId], by simp [World.down],
    fun _ hl => absurd (hnew.symm.trans hl) (by simp), by simp [World.down]⟩

/-- The worker is elsewhere. -/
theorem leaves (h : Unborn e w) (hw : w'.worker.evalId ≠ some e) (hp : w'.phases = w.phases)
    (hbare : ∀ row, w'.evals.lookup e = some row → Bare row) : Unborn e w' :=
  ⟨hp ▸ h.phases, fun heq => absurd heq hw, fun heq => absurd (congrArg WorkerPc.evalId heq) hw,
    hbare, fun heq => absurd heq hw⟩

/-- The worker is where it was. -/
theorem waits (h : Unborn e w) (hmail : Mail e w) (honce : Once e w) (hd : Acts w a w')
    (hw : w'.worker = w.worker ∧ w'.cancel = w.cancel) (hp : ∀ p, (e, p) ∉ w'.phases)
    (hbare : ∀ row, w'.evals.lookup e = some row → Bare row) : Unborn e w' := by
  refine ⟨hp, by rw [hw.1]; exact h.worker, fun heq => ?_, hbare, fun hev hc => ?_⟩
  · obtain ⟨row, hl⟩ := h.present (hw.1 ▸ heq)
    obtain ⟨row', hl', -⟩ := hd.adds hl
    exact ⟨row', hl'⟩
  · rw [hw.1] at hev
    obtain ⟨row, hl, hgone⟩ := h.fired hev (hw.2 ▸ hc)
    exact hd.gone hl hgone fun hlist =>
      absurd hlist (honce.not_listed (hmail.sent_of_worker hev))

theorem step (h : Unborn e w) (hmail : Mail e w) (honce : Once e w) (hd : Acts w a w')
    (hnone : ∀ jobs, a = .evaluated jobs → w.worker ≠ .evaluating e) : Unborn e w' := by
  have hd₀ := hd
  -- what `process` does past the result is done to other evaluations
  have hpast : ∀ pc : WorkerPc, w.worker = pc → (∀ e', pc ≠ .picked e') →
      (∀ e', pc ≠ .evaluating e') → pc.evalId ≠ some e := by
    rintro pc rfl hpicked hevaluating hev
    exact (h.worker hev).elim (hpicked e) (hevaluating e)
  cases hd with
  | boot hm =>
    refine h.waits hmail honce hd₀ ⟨rfl, rfl⟩ h.phases fun row hl => ?_
    have hl := (HashMap.lookup_mapValues _ e w.evals).symm.trans hl
    obtain ⟨old, hold, rfl⟩ := Option.map_eq_some_iff.mp hl
    exact ⟨(EvalRow.specs_updateJobs old _).trans (h.bare old hold).1, (h.bare old hold).2⟩
  | recover hr =>
    obtain ⟨hw, hc, hp, hrows⟩ := World.recover_rows hr
    refine h.waits hmail honce hd₀ ⟨hw, hc⟩ (hp ▸ h.phases) ?_
    rcases hrows with hrows | ⟨e', -, -, hrows⟩ | ⟨e', -, -, hrows⟩
    · exact hrows ▸ h.bare
    · exact World.forall_lookup_update hrows h.bare fun row hb => ⟨hb.1, by simp [EvalRow.setStatus]⟩
    · exact World.forall_lookup_update hrows h.bare fun row hb =>
        ⟨(EvalRow.specs_updateJobs row _).trans hb.1, hb.2⟩
  | @submit e' repoId hm hnone =>
    refine h.waits hmail honce hd₀ ⟨rfl, rfl⟩ h.phases fun row hl => ?_
    have hl := (HashMap.lookup_insert_eq e' e _ w.evals).symm.trans hl
    split at hl
    · obtain rfl := Option.some.inj hl
      exact ⟨rfl, by simp [EvalRow.create]⟩
    · exact h.bare row hl
  | supersede =>
    exact h.waits hmail honce hd₀ ⟨rfl, rfl⟩ h.phases (World.forall_lookup_update (f := (·.finish .cancelled)) rfl
      h.bare fun row hb => hb.guardedStatus (by simp) (by simp))
  | fire hw hl _ hterm =>
    refine ⟨h.phases, h.worker, h.present, h.bare, fun hev _ => ?_⟩
    obtain rfl := Option.some.inj (hw.symm.trans hev)
    exact ⟨_, hl, (h.bare _ hl).gone hterm⟩
  | receive hw =>
    refine ⟨h.phases, fun hev => ?_, fun heq => absurd heq (by simp), h.bare, by simp⟩
    rw [Option.some.inj hev]
    exact Or.inl rfl
  | dropped => exact h.leaves (by simp [WorkerPc.evalId]) rfl h.bare
  | resumed hw hl hst =>
    refine h.leaves (fun hev => ?_) rfl h.bare
    rw [Option.some.inj hev] at hl
    exact (h.bare _ hl).2.1 hst
  | @started e' row hw hl _ _ hc =>
    refine ⟨h.phases, fun hev => ?_, fun heq => ?_, World.forall_lookup_update
      (f := (·.start .evaluating)) rfl h.bare fun row hb => hb.guardedStatus (by simp) (by simp),
      fun _ hfired => absurd (hc.symm.trans hfired) (by simp)⟩
    · rw [Option.some.inj hev]
      exact Or.inr rfl
    · obtain rfl : e' = e := by simpa using heq
      obtain ⟨row', hl', -⟩ := hd₀.adds hl
      exact ⟨row', hl'⟩
  | abandon =>
    exact h.leaves (by simp [WorkerPc.evalId]) rfl (World.forall_lookup_update
      (f := (·.finish .cancelled)) rfl h.bare fun row hb => hb.guardedStatus (by simp) (by simp))
  | fail =>
    exact h.leaves (by simp [WorkerPc.evalId]) rfl (World.forall_lookup_update
      (f := (·.failWithReason)) rfl h.bare fun row hb => hb.guardedStatus (by simp) (by simp))
  | evaluated jobs hw =>
    have hne : w.worker.evalId ≠ some e := by
      rw [hw]
      intro hev
      exact hnone jobs rfl (by rw [hw, Option.some.inj hev])
    obtain ⟨hrow, hne', hp, -⟩ := hd₀.elsewhere rfl hne
    exact h.leaves hne' hp fun row hl => h.bare row (hrow ▸ hl)
  | createRow hw | describe hw | conclude hw | persisted hw | load hw =>
    have hne : w.worker.evalId ≠ some e := hw ▸ hpast _ hw (by simp) (by simp)
    obtain ⟨hrow, hne', hp, -⟩ := hd₀.elsewhere rfl hne
    exact h.leaves hne' hp fun row hl => h.bare row (hrow ▸ hl)
  | spawn hw =>
    have hne := hpast _ hw (by simp) (by simp)
    refine ⟨fun p hp => ?_, by simp [World.spawned, WorkerPc.evalId], by simp [World.spawned],
      h.bare, by simp [World.spawned, WorkerPc.evalId]⟩
    rcases List.mem_append.mp hp with hp | hp
    · exact h.phases p hp
    · exact hne (congrArg some (congrArg Prod.fst (List.mem_singleton.mp hp)).symm)
  | @phase i e' p p' row₀ row' b hi hl' _ hs =>
    have hne : e ≠ e' := by
      rintro rfl
      exact h.phases p (List.mem_of_getElem? hi)
    refine h.waits hmail honce hd₀ ⟨rfl, rfl⟩ (fun q hq => h.phases q ((World.mem_stepped hi hne row' q).mp hq))
      fun row hl => h.bare row ?_
    exact ((w.lookup_update e' e fun _ => row').trans (if_neg hne)).symm.trans hl
  | crash =>
    exact ⟨by simp [World.down], by simp [World.down, WorkerPc.evalId], by simp [World.down],
      h.bare, by simp [World.down]⟩

/-- **The result comes in.** -/
theorem evaluated (h : Unborn e w) (hmail : Mail e w) (honce : Once e w) {jobs : List JobSpec}
    (hw : w.worker = .evaluating e) (hd : Acts w (.evaluated jobs) w') : Kept e jobs w' := by
  have hsent := hmail.sent_of_worker (by rw [hw]; rfl)
  have hunlisted := honce.not_listed hsent
  obtain ⟨row, hl⟩ := h.present hw
  obtain ⟨hspecs, -, hnot⟩ := h.bare row hl
  have hmail' := hmail.step hd
  cases hd with
  | @evaluated e' _ hw' =>
    obtain rfl : e = e' := by simpa [hw] using hw'
    have hl' : (w.update e (·.markBuilding)).evals.lookup e = some row.markBuilding := by
      rw [World.lookup_update, if_pos rfl, hl]
      rfl
    have hbuilding : Gone row.markBuilding ∨
        (row.status.isTerminal = false ∧ row.markBuilding.status = .building) := by
      cases ht : row.status.isTerminal with
      | true =>
        rw [EvalRow.markBuilding, EvalRow.guardedStatus_of_terminal ht]
        exact Or.inl ((h.bare row hl).gone ht)
      | false =>
        rw [EvalRow.markBuilding, EvalRow.status_guardedStatus, ht]
        exact Or.inr ⟨rfl, rfl⟩
    refine ⟨hmail', fun hlist => absurd hlist hunlisted, fun row' hrow hdone => ?_, ?_⟩
    · obtain rfl := Option.some.inj (hl'.symm.trans hrow)
      rcases hbuilding with hgone | ⟨-, hst⟩
      · unfold Gone at hgone
        rw [hdone] at hgone
        exact absurd hgone (by simp)
      · exact absurd (hst.symm.trans hdone) (by simp)
    · refine ⟨row.markBuilding, hl', hbuilding.imp_right fun hopen => ?_⟩
      obtain ⟨hopen, hst⟩ := hopen
      refine .worker rfl hst ?_ ⟨?_, rfl, fun q hq => absurd hq (by simp)⟩
      · show w.cancel = false
        by_contra hc
        obtain ⟨row', hrow, hgone⟩ := h.fired (by rw [hw]; rfl) (by simpa using hc)
        obtain rfl := Option.some.inj (hl.symm.trans hrow)
        exact absurd (hopen.symm.trans hgone.terminal) (by simp)
      · exact (EvalRow.specs_guardedStatus row _).trans hspecs

end Unborn

/-! ## Every run -/

/-- In a run from before the evaluation was submitted, its result is to come or kept. -/
theorem Run.unborn_or_kept {evals : HashMap EvalId EvalRow} {e : EvalId} {w : World}
    (hnew : evals.lookup e = none) (hr : Run (CrashSafe e) (World.down evals) w) :
    Mail e w ∧ (Unborn e w ∨ ∃ jobs, DerivationOrError jobs ∧ Kept e jobs w) := by
  induction hr with
  | refl => exact ⟨.start evals e, Or.inl (.start hnew)⟩
  | @step w w' a _ hok hd ih =>
    obtain ⟨hmail, hcase⟩ := ih
    refine ⟨hmail.step hd.acts, ?_⟩
    rcases hcase with h | ⟨jobs, hjobs, h⟩
    · by_cases hres : ∃ jobs, a = .evaluated jobs ∧ w.worker = .evaluating e
      · obtain ⟨jobs, rfl, hw⟩ := hres
        exact Or.inr ⟨jobs, hok.2 hw, h.evaluated hmail hok.1 hw hd.acts⟩
      · exact Or.inl (h.step hmail hok.1 hd.acts fun jobs ha hw => hres ⟨jobs, ha, hw⟩)
    · exact Or.inr ⟨jobs, hjobs, h.step hjobs hok hd.acts⟩

theorem Kept.run {e : EvalId} {jobs : List JobSpec} {w₀ w : World} (h : Kept e jobs w₀)
    (hjobs : DerivationOrError jobs) (hr : Run (CrashSafe e) w₀ w) : Kept e jobs w := by
  induction hr with
  | refl => exact h
  | step _ hok hd ih => exact ih.step hjobs hok hd.acts

/-- The worker is not evaluating what has a result, unless it was given up. -/
theorem Kept.gone_of_evaluating {e : EvalId} {jobs : List JobSpec} {w : World} (h : Kept e jobs w)
    (honce : Once e w) (hw : w.worker = .evaluating e) :
    ∃ row, w.evals.lookup e = some row ∧ Gone row := by
  obtain ⟨row, hl, hgone | hplace⟩ := h.stays
  · exact ⟨row, hl, hgone⟩
  · obtain ⟨-, -, hat⟩ := hplace.at_worker h.mail honce (by rw [hw]; rfl)
    rw [hw] at hat
    exact absurd hat id

/-- **A crash loses no Job**: an evaluation that is done has exactly one row for each spec of its
    result, and every row is terminal or interrupted, in every run of the daemon with any number
    of crashes and recoveries whose steps meet the condition. -/
theorem resume_loses_no_job (evals : HashMap EvalId EvalRow) (e : EvalId) (jobs : List JobSpec)
    (w₁ w₂ w : World) (row : EvalRow) (hnew : evals.lookup e = none)
    (hrun : Run (CrashSafe e) (World.down evals) w₁) (hw : w₁.worker = .evaluating e)
    (hok : CrashSafe e w₁ (.evaluated jobs)) (hd : Does w₁ (.evaluated jobs) w₂)
    (hrest : Run (CrashSafe e) w₂ w) (hl : w.evals.lookup e = some row)
    (hdone : row.status = .done) :
    row.specs.map Prod.snd = jobs.map some ∧
      ∀ j s, row.jobStatus j = some s → s.isTerminal = true ∨ s = .interrupted := by
  obtain ⟨hmail, hcase⟩ := Run.unborn_or_kept hnew hrun
  have hjobs : DerivationOrError jobs := hok.2 hw
  have hkept : Kept e jobs w₂ := by
    rcases hcase with h | ⟨jobs', hjobs', h⟩
    · exact h.evaluated hmail hok.1 hw hd.acts
    · -- a second result comes in for nothing
      obtain ⟨row₁, hl₁, hgone⟩ := h.gone_of_evaluating hok.1 hw
      obtain ⟨row₂, hl₂, hgone₂⟩ := hd.acts.gone hl₁ hgone h.late
      have h₂ := h.step hjobs' hok hd.acts
      exact ⟨h₂.mail, h₂.late, h₂.waits, row₂, hl₂, Or.inl hgone₂⟩
  exact (hkept.run hjobs hrest).done hl hdone

/-! ## Two crashes, and what a crash in the window does -/

instance (e : EvalId) (pc : WorkerPc) : Decidable (pc.through e) := by
  unfold WorkerPc.through
  split <;> infer_instance

instance (jobs : List JobSpec) : Decidable (DerivationOrError jobs) :=
  inferInstanceAs (Decidable (∀ spec ∈ jobs, _))

instance (e : EvalId) (w : World) (a : Action) : Decidable (SafeAct e w a) := by
  induction a using Action.casesOn with
  | evaluated jobs =>
    exact inferInstanceAs (Decidable (w.worker = .evaluating e → DerivationOrError jobs))
  | crash => exact inferInstanceAs (Decidable (w.worker.through e))
  | phase i act =>
    induction act using PhaseAct.casesOn with
    | build _ b =>
      exact inferInstanceAs (Decidable ((w.phases[i]?).map Prod.fst = some e → b ≠ .fail))
    | _ => exact isTrue trivial
  | _ => exact isTrue trivial

instance (e : EvalId) (w : World) (a : Action) : Decidable (CrashSafe e w a) :=
  inferInstanceAs (Decidable (_ ∧ _))

/-- A script, cut at one of its actions. -/
theorem World.script_cut {ok : World → Action → Prop} [∀ w a, Decidable (ok w a)] {a : Action}
    {bs : List Action} {w' : World} : ∀ {as : List Action} {w : World},
    w.script ok (as ++ a :: bs) = some w' → ∃ w₁ w₂, w.script ok as = some w₁ ∧ ok w₁ a ∧
      w₁.exec a = some w₂ ∧ w₂.script ok bs = some w'
  | [], w, h => by
    simp only [List.nil_append, World.script] at h
    split at h
    · rename_i hok
      obtain ⟨w₂, hexec, hrest⟩ := Option.bind_eq_some_iff.mp h
      exact ⟨w, w₂, rfl, hok, hexec, hrest⟩
    · exact absurd h (by simp)
  | b :: as, w, h => by
    simp only [List.cons_append, World.script] at h
    split at h
    · rename_i hok
      obtain ⟨w₀, hexec, hrest⟩ := Option.bind_eq_some_iff.mp h
      obtain ⟨w₁, w₂, hfirst, hcut⟩ := World.script_cut hrest
      refine ⟨w₁, w₂, ?_, hcut⟩
      simp only [World.script]
      rw [if_pos hok, hexec]
      exact hfirst
    · exact absurd h (by simp)

/-- Evaluation 1 is pushed, and the worker evaluates it. -/
def pushOne : List Action := bootUp 6 ++ [Action.submit ⟨1⟩ ⟨1⟩, .receive, .read]

/-- One derivation, one eval error, one more derivation. -/
def threeJobs : List JobSpec := [specOf "a", { specOf "b" with error := some "e" }, specOf "c"]

def persistThree : List Action :=
  [.createRow ⟨1⟩, .describe, .conclude, .createRow ⟨2⟩, .describe, .conclude, .createRow ⟨3⟩,
    .describe, .conclude, .persisted]

/-- The daemon crashes before the build phase, then with one Job built and one running. -/
def crashTwice : List Action :=
  persistThree ++ Action.crash :: bootUp 8 ++ resume ++
    phaseScript (spawnTasks 2 ++ buildAndJoin ⟨0⟩ true ++
      [PhaseAct.build ⟨1⟩ .arm, .build ⟨1⟩ .dispatch]) ++
    Action.crash :: bootUp 8 ++ resume ++
    phaseScript (spawnTasks 1 ++ buildAndJoin ⟨0⟩ true ++ [PhaseAct.finish])

theorem pushOne_evaluating :
    ((World.down ∅).script (CrashSafe ⟨1⟩) pushOne).map (·.worker) = some (.evaluating ⟨1⟩) := by
  rfl

theorem pushOne_anyStep :
    ((World.down ∅).script AnyStep pushOne).map (·.worker) = some (.evaluating ⟨1⟩) := by
  rfl

theorem crashTwice_done :
    ((World.down ∅).script (CrashSafe ⟨1⟩) (pushOne ++ .evaluated threeJobs :: crashTwice)).map
        (fun w => (w.evals.lookup ⟨1⟩).map fun row => (row.status,
          [row.jobStatus ⟨1⟩, row.jobStatus ⟨2⟩, row.jobStatus ⟨3⟩]))
      = some (some (.done, [some .success, some .failure, some .success])) := by
  rfl

theorem resume_loses_no_job_crashTwice : ∃ w row, Run (CrashSafe ⟨1⟩) (World.down ∅) w ∧
    w.evals.lookup ⟨1⟩ = some row ∧ row.status = .done ∧
      row.specs.map Prod.snd = threeJobs.map some ∧
      ∀ j s, row.jobStatus j = some s → s.isTerminal = true ∨ s = .interrupted := by
  obtain ⟨w, hscript, hw⟩ := Option.map_eq_some_iff.mp crashTwice_done
  obtain ⟨row, hl, hrow⟩ := Option.map_eq_some_iff.mp hw
  obtain ⟨hdone, -⟩ := Prod.mk.inj hrow
  obtain ⟨w₁, w₂, hfirst, hok, hexec, hrest⟩ := World.script_cut hscript
  have hev : w₁.worker = .evaluating ⟨1⟩ := by
    have := pushOne_evaluating
    rw [hfirst] at this
    exact Option.some.inj this
  have hlost := resume_loses_no_job ∅ ⟨1⟩ threeJobs w₁ w₂ w row rfl (.of_script hfirst) hev hok
    (World.exec_does hexec) (.of_script hrest) hl hdone
  exact ⟨w, row, .of_script hscript, hl, hdone, hlost⟩

/-- No builder matches the first Job: `build_one` gives it up as interrupted. -/
def noBuilderForOne : List Action :=
  persistThree ++ Action.spawn noWalk :: phaseScript (spawnTasks 3 ++
    [PhaseAct.build ⟨0⟩ .arm, .build ⟨0⟩ .noBuilder, .pollCancel, .join ⟨0⟩, .handle, .handle,
      .look, .dispatch, .check] ++
    [PhaseAct.build ⟨1⟩ .evalError, .pollCancel, .join ⟨1⟩, .handle, .handle, .look, .dispatch,
      .check] ++
    buildAndJoin ⟨2⟩ true ++ [PhaseAct.finish])

/-- The daemon crashes right after `mark_building`. -/
def crashInWindow : List Action :=
  Action.crash :: bootUp 8 ++ resume ++ phaseScript (spawnTasks 0 ++ [PhaseAct.finish])

theorem noBuilderForOne_done :
    ((World.down ∅).script (CrashSafe ⟨1⟩) (pushOne ++ .evaluated threeJobs :: noBuilderForOne)).map
        (fun w => (w.evals.lookup ⟨1⟩).map fun row => (row.status, row.jobStatus ⟨1⟩))
      = some (some (.done, some .interrupted)) := by
  rfl

theorem crashInWindow_done :
    ((World.down ∅).script AnyStep (pushOne ++ .evaluated threeJobs :: crashInWindow)).map
        (fun w => (w.evals.lookup ⟨1⟩).map fun row => (row.status, row.specs.length))
      = some (some (.done, 0)) := by
  rfl

/-- Both parts of "every spec has exactly one row, and a terminal one" fail: the second where no
    builder matches, the first where a crash falls into the window. -/
theorem not_resume_loses_no_job :
    (¬ ∀ (evals : HashMap EvalId EvalRow) (e : EvalId) (jobs : List JobSpec) (w₁ w₂ w : World)
      (row : EvalRow), evals.lookup e = none → Run (CrashSafe e) (World.down evals) w₁ →
      w₁.worker = .evaluating e → CrashSafe e w₁ (.evaluated jobs) →
      Does w₁ (.evaluated jobs) w₂ → Run (CrashSafe e) w₂ w → w.evals.lookup e = some row →
      row.status = .done → ∀ j s, row.jobStatus j = some s → s.isTerminal = true) ∧
    ¬ ∀ (evals : HashMap EvalId EvalRow) (e : EvalId) (jobs : List JobSpec) (w₁ w₂ w : World)
      (row : EvalRow), evals.lookup e = none → Run AnyStep (World.down evals) w₁ →
      w₁.worker = .evaluating e → DerivationOrError jobs → Does w₁ (.evaluated jobs) w₂ →
      Run AnyStep w₂ w → w.evals.lookup e = some row → row.status = .done →
        row.specs.map Prod.snd = jobs.map some := by
  constructor
  · intro h
    obtain ⟨w, hscript, hw⟩ := Option.map_eq_some_iff.mp noBuilderForOne_done
    obtain ⟨row, hl, hrow⟩ := Option.map_eq_some_iff.mp hw
    obtain ⟨hdone, hjob⟩ := Prod.mk.inj hrow
    obtain ⟨w₁, w₂, hfirst, hok, hexec, hrest⟩ := World.script_cut hscript
    have hev : w₁.worker = .evaluating ⟨1⟩ := by
      have := pushOne_evaluating
      rw [hfirst] at this
      exact Option.some.inj this
    have hterm := h ∅ ⟨1⟩ threeJobs w₁ w₂ w row rfl (.of_script hfirst) hev hok
      (World.exec_does hexec) (.of_script hrest) hl hdone ⟨1⟩ .interrupted hjob
    exact absurd hterm (by decide)
  · intro h
    obtain ⟨w, hscript, hw⟩ := Option.map_eq_some_iff.mp crashInWindow_done
    obtain ⟨row, hl, hrow⟩ := Option.map_eq_some_iff.mp hw
    obtain ⟨hdone, hlen⟩ := Prod.mk.inj hrow
    obtain ⟨w₁, w₂, hfirst, -, hexec, hrest⟩ := World.script_cut hscript
    have hev : w₁.worker = .evaluating ⟨1⟩ := by
      have := pushOne_anyStep
      rw [hfirst] at this
      exact Option.some.inj this
    have hspecs := h ∅ ⟨1⟩ threeJobs w₁ w₂ w row rfl (.of_script hfirst) hev (by decide)
      (World.exec_does hexec) (.of_script hrest) hl hdone
    have hthree := congrArg List.length hspecs
    rw [List.length_map, hlen] at hthree
    exact absurd hthree (by decide)

end Argunix.Daemon
