import Argunix.Daemon.Tick
import Argunix.Lib.Runs

/-!
# `argunix-daemon`: the retention task beside the others

Between two calls of a tick webhooks insert evaluations, the worker finishes them and plants
gcroots, a reload prunes repositories, and the process can die. `GcWorld` has the tick as one actor
among these.

Three things come out of it. An evaluation that is listed has every log directory and every gcroot
that was ever made for it, since the row goes before the directories and no id is given out twice
(`kept_of_run`). A row that goes was of a repository that the configuration does not name, or its
evaluation was over and then too old or over the cap when it was picked, and it is still over when
it goes (`reason_of_run`). But a directory whose row went without it, as in a crash between the two,
is found by no later tick, for ticks look for rows (`orphan_of_run`).
-/

set_option autoImplicit false

namespace Argunix.Daemon.Gc

open Argunix.Lib

/-! ## Pruning -/

/-- `prune_orphan_state` -/
inductive Prune
  | deleting (config : Config) (orphans todo : List RepoRow)
  /-- The directory of the logs is removed first, then that of the gcroots. -/
  | removing (todo : List RepoRow) (logsRemoved : Bool)

/-- The repositories that are configured. -/
def Config.keep (config : Config) : List (String × String) :=
  config.repos.map fun repo => (repo.forge, repo.slug)

/-- The repositories that `prune_repos_not_in` finds. -/
def orphans (s : State) (config : Config) : List RepoRow :=
  s.repos.filter fun r => (r.forge, r.slug) ∉ config.keep

/-- `DELETE FROM repos`, with what the foreign key takes along. -/
def State.deleteRepo (s : State) (id : RepoId) : State :=
  { s.filterEvals fun r => r.repoId ≠ id with repos := s.repos.filter fun r => r.id ≠ id }

/-- A failed `DELETE` ends it, and then no directory is removed. -/
def Prune.step (s : State) (p : Prune) (a : Answer) : State × Option Prune :=
  match p with
  | .deleting _ orphans [] => (s, some (.removing orphans false))
  | .deleting config orphans (r :: todo) =>
    if a.ok then (s.deleteRepo r.id, some (.deleting config orphans todo)) else (s, none)
  | .removing [] _ => (s, none)
  | .removing (r :: todo) false =>
    ({ s with logs := if a.ok then s.logs.filter fun d => d.1 ≠ r.id else s.logs },
      some (.removing (r :: todo) true))
  | .removing (r :: todo) true =>
    ({ s with roots := removeDirs (fun d => d.repoId = r.id) a s.roots },
      some (.removing todo false))

/-! ## The statements of the store -/

namespace State

/-- `UPDATE evaluations SET .. WHERE id = ?` -/
def updateEval (s : State) (id : EvalId) (f : EvalRecord → EvalRecord) (hf : ∀ r, (f r).id = r.id) :
    State :=
  { s with
    evals := s.evals.map fun r => if r.id = id then f r else r
    unique := by
      have hid : (s.evals.map fun r => if r.id = id then f r else r).map (·.id) =
          s.evals.map (·.id) := by
        rw [List.map_map]
        refine List.map_congr_left fun r _ => ?_
        show (if r.id = id then f r else r).id = r.id
        split
        · exact hf r
        · rfl
      rw [hid]
      exact s.unique }

end State

/-- The guarded updates of `EvalStore`: the first verdict stays. -/
def EvalRecord.start (status : EvalStatus) (h : status.isTerminal = false) (r : EvalRecord) :
    EvalRecord :=
  if r.status.isTerminal then r
  else { r with status := status, finished := fun ht => by rw [h] at ht; cases ht }

/-- The first terminal status stays. -/
def EvalRecord.finish (status : EvalStatus) (finishedAt : ℤ) (r : EvalRecord) : EvalRecord :=
  if r.status.isTerminal then r
  else { r with status := status, finishedAt := some finishedAt, finished := fun _ => rfl }

/-- `set_status`, which is not guarded, as boot recovery uses it. -/
def EvalRecord.requeue (r : EvalRecord) : EvalRecord :=
  { r with status := .queued, finished := fun ht => by cases ht }

section Records

variable (status : EvalStatus) (h : status.isTerminal = false) (finishedAt : ℤ) (r : EvalRecord)

theorem EvalRecord.id_start : (r.start status h).id = r.id := by
  unfold start
  split <;> rfl

theorem EvalRecord.repoId_start : (r.start status h).repoId = r.repoId := by
  unfold start
  split <;> rfl

theorem EvalRecord.id_finish : (r.finish status finishedAt).id = r.id := by
  unfold finish
  split <;> rfl

theorem EvalRecord.repoId_finish : (r.finish status finishedAt).repoId = r.repoId := by
  unfold finish
  split <;> rfl

theorem EvalRecord.id_requeue : r.requeue.id = r.id := rfl

/-- The first verdict stays. -/
theorem EvalRecord.start_of_isTerminal (hr : r.status.isTerminal = true) : r.start status h = r :=
  if_pos hr

theorem EvalRecord.finish_of_isTerminal (hr : r.status.isTerminal = true) :
    r.finish status finishedAt = r := if_pos hr

end Records

/-! ## The daemon -/

/-- The rows and the directories, with everybody who is at work on them. -/
structure GcWorld where
  state : State
  /-- None while the task sleeps. -/
  gc : Option Tick
  prunes : List Prune
  booting : Bool
  /-- `sqlite_sequence`: no id is given out twice, also after its row is gone. -/
  nextRepo : ℤ
  nextEval : ℤ
  /-- What was ever made on disk. No step reads these two. -/
  written : List (RepoId × EvalId)
  planted : List RootDir

/-- Who acts: webhooks, workers, the retention task, reloads, and the process itself. -/
inductive GcAct
  | upsert (forge slug : String)
  | create (repoId : RepoId)
  | start (id : EvalId) (status : EvalStatus)
  | finish (id : EvalId) (status : EvalStatus) (finishedAt : ℤ)
  /-- Boot recovery. -/
  | requeue (id : EvalId)
  | writeLog (dir : RepoId × EvalId)
  | plantRoot (dir : RootDir)
  | wake (config : Config) (now : ℤ)
  | gc (a : Answer)
  | prune (config : Config)
  | pruneCall (i : ℕ) (a : Answer)
  | crash
  | booted

namespace GcWorld

/-- One of the acts. -/
def act (w : GcWorld) : GcAct → Option GcWorld
  | .upsert forge slug =>
    if w.state.repos.any fun r => r.forge = forge ∧ r.slug = slug then some w
    else some { w with
      state := { w.state with repos := w.state.repos ++ [⟨⟨w.nextRepo⟩, forge, slug⟩] }
      nextRepo := w.nextRepo + 1 }
  | .create repoId =>
    if h : (∃ row ∈ w.state.repos, row.id = repoId) ∧
        (⟨w.nextEval⟩ : EvalId) ∉ w.state.evals.map (·.id) then
      some { w with
        state := { w.state with
          evals := w.state.evals ++ [⟨⟨w.nextEval⟩, repoId, .queued, none, fun ht => by cases ht⟩]
          unique := by
            rw [List.map_append, List.map_singleton, ← List.concat_eq_append]
            exact w.state.unique.concat h.2 }
        nextEval := w.nextEval + 1 }
    else none
  | .start id status =>
    if h : status.isTerminal = false then
      some { w with
        state := w.state.updateEval id (.start status h) (EvalRecord.id_start status h) }
    else none
  | .finish id status finishedAt =>
    some { w with
      state := w.state.updateEval id (.finish status finishedAt)
        (EvalRecord.id_finish status finishedAt) }
  | .requeue id =>
    if w.booting then
      some { w with state := w.state.updateEval id .requeue EvalRecord.id_requeue }
    else none
  | .writeLog dir =>
    if dir.2.get < w.nextEval then
      some { w with
        state := { w.state with logs := w.state.logs ++ [dir] }
        written := w.written ++ [dir] }
    else none
  | .plantRoot dir =>
    if dir.evalId.get < w.nextEval then
      some { w with
        state := { w.state with roots := w.state.roots ++ [dir] }
        planted := w.planted ++ [dir] }
    else none
  | .wake config now =>
    if w.gc.isNone ∧ w.booting = false then
      some { w with gc := some ⟨config, now, .find config.repos⟩ }
    else none
  | .gc a => w.gc.map fun t =>
    { w with state := (t.step w.state a).1, gc := (t.step w.state a).2 }
  | .prune config =>
    some { w with
      prunes := w.prunes ++ [.deleting config (orphans w.state config) (orphans w.state config)] }
  | .pruneCall i a => w.prunes[i]?.map fun p =>
    { w with
      state := (p.step w.state a).1
      prunes := match (p.step w.state a).2 with
        | none => w.prunes.eraseIdx i
        | some p' => w.prunes.set i p' }
  | .crash => some { w with gc := none, prunes := [], booting := true }
  | .booted => if w.booting then some { w with booting := false } else none

/-- An empty database and empty directories. -/
def fresh : GcWorld where
  state := ⟨[], [], List.nodup_nil, [], []⟩
  gc := none
  prunes := []
  booting := true
  nextRepo := 1
  nextEval := 1
  written := []
  planted := []

end GcWorld

/-! ## What the statements and the prunes leave -/

section Calls

variable {s : State} {a : Answer}

theorem mem_updateEval {id : EvalId} {f : EvalRecord → EvalRecord} (hf : ∀ r, (f r).id = r.id)
    {r' : EvalRecord} (h : r' ∈ (s.updateEval id f hf).evals) :
    ∃ r ∈ s.evals, r' = r ∨ r' = f r := by
  obtain ⟨r, hr, rfl⟩ := List.mem_map.mp h
  by_cases hid : r.id = id
  · exact ⟨r, hr, .inr (if_pos hid)⟩
  · exact ⟨r, hr, .inl (if_neg hid)⟩

theorem State.NoEval.of_updateEval {id x : EvalId} {f : EvalRecord → EvalRecord}
    (hf : ∀ r, (f r).id = r.id) (h : (s.updateEval id f hf).NoEval x) : s.NoEval x := by
  intro r hr hx
  refine h _ (List.mem_map_of_mem hr) ?_
  split
  · exact (hf r).trans hx
  · exact hx

/-- Neither the repository nor an evaluation of it has a row. -/
structure State.NoRepo (s : State) (id : RepoId) : Prop where
  repos : ∀ r ∈ s.repos, r.id ≠ id
  evals : ∀ r ∈ s.evals, r.repoId ≠ id

theorem State.noRepo_deleteRepo (s : State) (id : RepoId) : (s.deleteRepo id).NoRepo id where
  repos _ hr := of_decide_eq_true (List.mem_filter.mp hr).2
  evals _ hr := of_decide_eq_true (mem_filterEvals.mp hr).2

/-- The repositories that a prune has deleted. -/
def Prune.Deleted (p : Prune) (r : RepoRow) : Prop :=
  match p with
  | .deleting _ orphans todo => r ∈ orphans ∧ r ∉ todo
  | .removing todo _ => r ∈ todo

/-- The repositories that a prune goes through. -/
def Prune.named (p : Prune) : List RepoRow :=
  match p with
  | .deleting _ orphans todo => orphans ++ todo
  | .removing todo _ => todo

/-- As long as it deletes rows: the configuration does not name the repository. -/
def Prune.Orphan (p : Prune) (r : RepoRow) : Prop :=
  match p with
  | .deleting config _ _ => (r.forge, r.slug) ∉ config.keep
  | .removing _ _ => True

theorem Prune.named_of_deleted (p : Prune) {r : RepoRow} (h : p.Deleted r) : r ∈ p.named := by
  cases p with
  | deleting config orphans todo => exact List.mem_append_left todo h.1
  | removing todo _ => exact h

/-- **A call of `prune_orphan_state` spares what has a row**, if what it has deleted is gone. -/
theorem Prune.spares {p : Prune} (h : ∀ r, p.Deleted r → s.NoRepo r.id) :
    Spares s (p.step s a).1 := by
  cases p with
  | deleting config orphans todo =>
    cases todo with
    | nil => exact Spares.refl s
    | cons r todo =>
      simp only [Prune.step]
      split
      · exact ⟨fun x hx => (mem_filterEvals.mp hx).1, fun x hx => (List.mem_filter.mp hx).1,
          fun _ _ h => h, fun _ _ _ h _ => h⟩
      · exact Spares.refl s
  | removing todo logsRemoved =>
    cases todo with
    | nil => exact Spares.refl s
    | cons r todo =>
      have hgone := h r List.mem_cons_self
      cases logsRemoved with
      | false =>
        refine ⟨fun _ h => h, fun _ h => h, fun x hx hlog => ?_, fun _ _ _ h _ => h⟩
        show (x.repoId, x.id) ∈ if a.ok then s.logs.filter fun d => d.1 ≠ r.id else s.logs
        split
        · exact List.mem_filter.mpr ⟨hlog, decide_eq_true (hgone.evals x hx)⟩
        · exact hlog
      | true =>
        refine ⟨fun _ h => h, fun _ h => h, fun _ _ h => h, fun x hx d hd hrow => ?_⟩
        refine mem_removeDirs hd fun heq => ?_
        exact hgone.evals x hx ((Prod.mk.inj hrow).1.symm.trans heq)

/-- What a prune has deleted after a call was deleted before, or is by now. -/
theorem Prune.deleted_step {p p' : Prune} (h : (p.step s a).2 = some p') {r : RepoRow}
    (hr : p'.Deleted r) : p.Deleted r ∨ (p.step s a).1.NoRepo r.id := by
  cases p with
  | deleting config orphans todo =>
    cases todo with
    | nil =>
      obtain rfl := Option.some.inj h
      exact .inl ⟨hr, List.not_mem_nil⟩
    | cons x todo =>
      by_cases ha : a.ok = true
      · simp only [Prune.step, ha, if_true] at h ⊢
        obtain rfl := Option.some.inj h
        by_cases hx : r = x
        · rw [hx]
          exact .inr (s.noRepo_deleteRepo x.id)
        · exact .inl ⟨hr.1, fun hmem => (List.mem_cons.mp hmem).elim hx hr.2⟩
      · simp only [Prune.step, ha, Bool.false_eq_true, if_false, reduceCtorEq] at h
  | removing todo logsRemoved =>
    cases todo with
    | nil => cases h
    | cons x todo =>
      cases logsRemoved <;> obtain rfl := Option.some.inj h
      · exact .inl hr
      · exact .inl (List.mem_cons_of_mem x hr)

/-- A prune goes through what it went through before. -/
theorem Prune.named_step {p p' : Prune} (h : (p.step s a).2 = some p')
    {r : RepoRow} (hr : r ∈ p'.named) : r ∈ p.named ∧ (p.Orphan r → p'.Orphan r) := by
  cases p with
  | deleting config orphans todo =>
    cases todo with
    | nil =>
      obtain rfl := Option.some.inj h
      exact ⟨List.mem_append_left [] hr, fun _ => trivial⟩
    | cons x todo =>
      by_cases ha : a.ok = true
      · simp only [Prune.step, ha, if_true] at h
        obtain rfl := Option.some.inj h
        refine ⟨?_, id⟩
        exact (List.mem_append.mp hr).elim (List.mem_append_left _) fun hr =>
          List.mem_append_right _ (List.mem_cons_of_mem x hr)
      · simp only [Prune.step, ha, Bool.false_eq_true, if_false, reduceCtorEq] at h
  | removing todo logsRemoved =>
    cases todo with
    | nil => cases h
    | cons x todo =>
      cases logsRemoved <;> obtain rfl := Option.some.inj h
      · exact ⟨hr, id⟩
      · exact ⟨List.mem_cons_of_mem x hr, id⟩

theorem Prune.mem_evals_step {p : Prune} {r : EvalRecord} (hr : r ∈ s.evals)
    (h : ∀ config orphans x todo, p = .deleting config orphans (x :: todo) → x.id ≠ r.repoId) :
    r ∈ (p.step s a).1.evals := by
  cases p with
  | deleting config orphans todo =>
    cases todo with
    | nil => exact hr
    | cons x todo =>
      simp only [Prune.step]
      split
      · exact mem_filterEvals.mpr ⟨hr, decide_eq_true (h config orphans x todo rfl).symm⟩
      · exact hr
  | removing todo logsRemoved =>
    cases todo with
    | nil => exact hr
    | cons x todo => cases logsRemoved <;> exact hr

theorem Prune.mem_roots_step {p : Prune} {d : RootDir} (hd : d ∈ s.roots)
    (h : ∀ r ∈ p.named, r.id ≠ d.repoId) : d ∈ (p.step s a).1.roots := by
  cases p with
  | deleting config orphans todo =>
    cases todo with
    | nil => exact hd
    | cons x todo =>
      simp only [Prune.step]
      split <;> exact hd
  | removing todo logsRemoved =>
    cases todo with
    | nil => exact hd
    | cons x todo =>
      cases logsRemoved with
      | false => exact hd
      | true => exact mem_removeDirs hd fun heq => h x List.mem_cons_self heq.symm

end Calls

/-! ## What any action may do to the rows -/

namespace GcWorld

/-- A row is as it was, or was changed while it was not over, or is new. Boot recovery may change
    any. -/
structure Moves (w w' : GcWorld) : Prop where
  evals : ∀ r' ∈ w'.state.evals, r' ∈ w.state.evals ∨
    (∃ r ∈ w.state.evals, r.id = r'.id ∧ r.repoId = r'.repoId ∧
      (r.status.isTerminal = false ∨ w.booting = true)) ∨
    (r'.id.get = w.nextEval ∧ w.nextEval < w'.nextEval ∧
      ∃ row ∈ w.state.repos, row.id = r'.repoId)
  repos : ∃ x : RepoRow, x.id.get = w.nextRepo ∧ ∀ r' ∈ w'.state.repos,
    r' ∈ w.state.repos ∨ (r' = x ∧ w.nextRepo < w'.nextRepo)
  nextEval : w.nextEval ≤ w'.nextEval
  nextRepo : w.nextRepo ≤ w'.nextRepo

/-- **An evaluation that has a row has every directory that was ever made for it.** -/
structure Kept (w : GcWorld) : Prop where
  logs : ∀ r ∈ w.state.evals, (r.repoId, r.id) ∈ w.written → (r.repoId, r.id) ∈ w.state.logs
  roots : ∀ r ∈ w.state.evals, ∀ d ∈ w.planted, (d.repoId, d.evalId) = (r.repoId, r.id) →
    d ∈ w.state.roots

/-- What a prune has found of a repository, and what has come of that. -/
structure Found (w : GcWorld) (p : Prune) (r : RepoRow) : Prop where
  known : r.id.get < w.nextRepo
  row : ∀ x ∈ w.state.repos, x.id = r.id → x = r
  orphan : p.Orphan r
  gone : p.Deleted r → w.state.NoRepo r.id

/-- What was deleted stays deleted, and ids in use were given out. -/
structure Sound (w : GcWorld) : Prop where
  repos : ∀ r ∈ w.state.repos, r.id.get < w.nextRepo
  unique : ∀ x ∈ w.state.repos, ∀ y ∈ w.state.repos, x.id = y.id → x = y
  evals : ∀ r ∈ w.state.evals, r.id.get < w.nextEval
  written : ∀ x ∈ w.written, x.2.get < w.nextEval
  planted : ∀ d ∈ w.planted, d.evalId.get < w.nextEval
  /-- There is no tick before the recovery is through. -/
  awake : w.gc.isSome = true → w.booting = false
  fits : ∀ t ∈ w.gc, t.Fits w.nextRepo w.nextEval w.state
  pruned : ∀ p ∈ w.prunes, ∀ r ∈ p.named, w.Found p r

variable {w w' : GcWorld}

theorem Moves.of_eq (hevals : w'.state.evals = w.state.evals)
    (hrepos : w'.state.repos = w.state.repos) (heval : w'.nextEval = w.nextEval)
    (hrepo : w'.nextRepo = w.nextRepo) : Moves w w' where
  evals _ hr := .inl (hevals ▸ hr)
  repos := ⟨⟨⟨w.nextRepo⟩, "", ""⟩, rfl, fun _ hr => .inl (hrepos ▸ hr)⟩
  nextEval := heval.ge
  nextRepo := hrepo.ge

theorem Moves.of_spares {s : State} {gc : Option Tick} {prunes : List Prune}
    (h : Spares w.state s) : Moves w { w with state := s, gc := gc, prunes := prunes } where
  evals _ hr := .inl (h.evals hr)
  repos := ⟨⟨⟨w.nextRepo⟩, "", ""⟩, rfl, fun _ hr => .inl (h.repos hr)⟩
  nextEval := le_rfl
  nextRepo := le_rfl

/-- A guarded update, or any update at boot. -/
theorem Moves.of_updateEval {id : EvalId} {f : EvalRecord → EvalRecord}
    {hf : ∀ r, (f r).id = r.id} (hrepo : ∀ r, (f r).repoId = r.repoId)
    (hguard : ∀ r, r.status.isTerminal = true → f r = r ∨ w.booting = true) :
    Moves w { w with state := w.state.updateEval id f hf } where
  evals r' hr' := by
    obtain ⟨r, hr, rfl | rfl⟩ := mem_updateEval hf hr'
    · exact .inl hr
    · cases hover : r.status.isTerminal with
      | false => exact .inr (.inl ⟨r, hr, (hf r).symm, (hrepo r).symm, .inl hover⟩)
      | true =>
        rcases hguard r hover with heq | hboot
        · exact .inl (heq.symm ▸ hr)
        · exact .inr (.inl ⟨r, hr, (hf r).symm, (hrepo r).symm, .inr hboot⟩)
  repos := ⟨⟨⟨w.nextRepo⟩, "", ""⟩, rfl, fun _ hr => .inl hr⟩
  nextEval := le_rfl
  nextRepo := le_rfl

/-! ## What stays -/

theorem Moves.names {id : RepoId} {repo : Repo} (h : Moves w w')
    (hn : w.state.Names w.nextRepo id repo) : w'.state.Names w'.nextRepo id repo := by
  obtain ⟨x, hx, hrepos⟩ := h.repos
  refine ⟨lt_of_lt_of_le hn.1 h.nextRepo, fun row hrow hid => ?_⟩
  rcases hrepos row hrow with hrow | ⟨rfl, -⟩
  · exact hn.2 row hrow hid
  · exact absurd (hid ▸ hx) hn.1.ne

/-- A pick is not disturbed by the others. -/
theorem Moves.picked {t : Tick} {loop : Loop} {e : EvalRecord} (h : Moves w w')
    (hawake : w.booting = false) (he : t.Picked w.nextRepo w.nextEval w.state loop e) :
    t.Picked w'.nextRepo w'.nextEval w'.state loop e where
  known := lt_of_lt_of_le he.known h.nextEval
  terminal := he.terminal
  due := he.due.mono fun _ _ => h.names
  same r' hr' hid := by
    rcases h.evals r' hr' with hr | ⟨r, hr, hr', -, hchange⟩ | ⟨hnew, -⟩
    · exact he.same r' hr hid
    · -- the row that was changed would be the pick, which is over
      obtain rfl := he.same r hr (hr'.trans hid)
      rcases hchange with hopen | hboot
      · exact absurd he.terminal (hopen ▸ Bool.false_ne_true)
      · exact absurd hboot (hawake ▸ Bool.false_ne_true)
    · exact absurd (hid ▸ hnew) he.known.ne

theorem Moves.noEval {id : EvalId} (h : Moves w w') (hid : id.get < w.nextEval)
    (hno : w.state.NoEval id) : w'.state.NoEval id := by
  intro r' hr' heq
  rcases h.evals r' hr' with hr | ⟨r, hr, hr', -⟩ | ⟨hnew, -⟩
  · exact hno r' hr heq
  · exact hno r hr (hr'.trans heq)
  · exact hid.ne (heq ▸ hnew)

theorem Moves.noRepo {id : RepoId} (h : Moves w w') (hid : id.get < w.nextRepo)
    (hno : w.state.NoRepo id) : w'.state.NoRepo id where
  repos r' hr' heq := by
    obtain ⟨x, hx, hrepos⟩ := h.repos
    rcases hrepos r' hr' with hr | ⟨rfl, -⟩
    · exact hno.repos r' hr heq
    · exact hid.ne (heq ▸ hx)
  evals r' hr' heq := by
    rcases h.evals r' hr' with hr | ⟨r, hr, -, hr', -⟩ | ⟨-, -, row, hrow, hr'⟩
    · exact hno.evals r' hr heq
    · exact hno.evals r hr (hr'.trans heq)
    · exact hno.repos row hrow (hr'.trans heq)

theorem Moves.found {p : Prune} {r : RepoRow} (h : Moves w w') (hr : w.Found p r) :
    w'.Found p r where
  known := lt_of_lt_of_le hr.known h.nextRepo
  row x hx hid := by
    obtain ⟨y, hy, hrepos⟩ := h.repos
    rcases hrepos x hx with hx | ⟨rfl, -⟩
    · exact hr.row x hx hid
    · exact absurd (hid ▸ hy) hr.known.ne
  orphan := hr.orphan
  gone hd := h.noRepo hr.known (hr.gone hd)

theorem Moves.fits {t : Tick} (h : Moves w w') (hawake : w.booting = false)
    (ht : t.Fits w.nextRepo w.nextEval w.state) : t.Fits w'.nextRepo w'.nextEval w'.state := by
  cases hpc : t.pc with
  | deleting evals call loop =>
    simp only [Tick.Fits, hpc] at ht ⊢
    refine ⟨ht.1, fun e he => h.picked hawake (ht.2.1 e he), fun hcall e he => ?_⟩
    exact h.noEval (ht.2.1 e (List.mem_of_mem_head? he)).known (ht.2.2 hcall e he)
  | measure => simp only [Tick.Fits, hpc]
  | listOlder repo repoId cutoff todo =>
    simp only [Tick.Fits, hpc] at ht ⊢
    exact ⟨h.names ht.1, ht.2⟩
  | _ => simpa only [Tick.Fits, hpc] using ht

/-- What was made is there, if nothing was removed. -/
theorem Kept.of_moves (h : w.Kept) (hs : w.Sound) (hm : Moves w w')
    (hlogs : w.state.logs ⊆ w'.state.logs) (hroots : w.state.roots ⊆ w'.state.roots)
    (hwritten : ∀ x ∈ w'.written, x ∈ w.written ∨ x ∈ w'.state.logs)
    (hplanted : ∀ d ∈ w'.planted, d ∈ w.planted ∨ d ∈ w'.state.roots) : w'.Kept where
  logs r' hr' hx := by
    rcases hwritten _ hx with hx | hx
    · refine hlogs ?_
      rcases hm.evals r' hr' with hr | ⟨r, hr, hid, hrepo, -⟩ | ⟨hnew, -⟩
      · exact h.logs r' hr hx
      · rw [← hid, ← hrepo] at hx ⊢
        exact h.logs r hr hx
      · exact absurd hnew (hs.written _ hx).ne
    · exact hx
  roots r' hr' d hd hrow := by
    rcases hplanted d hd with hd | hd
    · refine hroots ?_
      rcases hm.evals r' hr' with hr | ⟨r, hr, hid, hrepo, -⟩ | ⟨hnew, -⟩
      · exact h.roots r' hr d hd hrow
      · rw [← hid, ← hrepo] at hrow
        exact h.roots r hr d hd hrow
      · have hold := hs.planted d hd
        rw [(Prod.mk.inj hrow).2, hnew] at hold
        exact absurd hold (lt_irrefl _)
    · exact hd

theorem Kept.of_spares {s : State} {gc : Option Tick} {prunes : List Prune} (h : w.Kept)
    (hs : Spares w.state s) : Kept { w with state := s, gc := gc, prunes := prunes } where
  logs r hr hx := hs.logs r hr (h.logs r (hs.evals hr) hx)
  roots r hr d hd hrow := hs.roots r hr d (h.roots r (hs.evals hr) d hd hrow) hrow

theorem Sound.of_moves (h : w.Sound) (hm : Moves w w')
    (hwritten : ∀ x ∈ w'.written, x ∈ w.written ∨ x.2.get < w.nextEval)
    (hplanted : ∀ d ∈ w'.planted, d ∈ w.planted ∨ d.evalId.get < w.nextEval)
    (hawake : w'.gc.isSome = true → w'.booting = false)
    (hgc : ∀ t ∈ w'.gc, t ∈ w.gc ∨ t.Fits w'.nextRepo w'.nextEval w'.state)
    (hprunes : ∀ p ∈ w'.prunes, p ∈ w.prunes ∨ ∀ r ∈ p.named, w'.Found p r) : w'.Sound where
  repos r' hr' := by
    obtain ⟨x, hx, hrepos⟩ := hm.repos
    rcases hrepos r' hr' with hr | ⟨rfl, hlt⟩
    · exact lt_of_lt_of_le (h.repos r' hr) hm.nextRepo
    · exact hx ▸ hlt
  unique y hy z hz hid := by
    obtain ⟨x, hx, hrepos⟩ := hm.repos
    rcases hrepos y hy with hy | ⟨rfl, -⟩
    · rcases hrepos z hz with hz | ⟨rfl, -⟩
      · exact h.unique y hy z hz hid
      · exact absurd (hid ▸ hx) (h.repos y hy).ne
    · rcases hrepos z hz with hz | ⟨rfl, -⟩
      · exact absurd (hid ▸ hx) (h.repos z hz).ne
      · rfl
  evals r' hr' := by
    rcases hm.evals r' hr' with hr | ⟨r, hr, hid, -⟩ | ⟨hnew, hlt, -⟩
    · exact lt_of_lt_of_le (h.evals r' hr) hm.nextEval
    · exact hid ▸ lt_of_lt_of_le (h.evals r hr) hm.nextEval
    · exact hnew ▸ hlt
  written x hx := lt_of_lt_of_le ((hwritten x hx).elim (h.written x) id) hm.nextEval
  planted d hd := lt_of_lt_of_le ((hplanted d hd).elim (h.planted d) id) hm.nextEval
  awake := hawake
  fits t ht := by
    rcases hgc t ht with hold | hfits
    · exact hm.fits (h.awake (Option.isSome_iff_exists.mpr ⟨t, hold⟩)) (h.fits t hold)
    · exact hfits
  pruned p hp r hr := by
    rcases hprunes p hp with hold | hnew
    · exact hm.found (h.pruned p hold r hr)
    · exact hnew r hr

/-! ## Every action -/

theorem moves_act {a : GcAct} (hs : w.Sound) (h : w.act a = some w') : Moves w w' := by
  cases a with
  | upsert forge slug =>
    simp only [act] at h
    split at h
    · obtain rfl := Option.some.inj h
      exact .of_eq rfl rfl rfl rfl
    · obtain rfl := Option.some.inj h
      refine ⟨fun _ hr => .inl hr, ⟨⟨⟨w.nextRepo⟩, forge, slug⟩, rfl, fun r hr => ?_⟩, le_rfl,
        (Int.lt_succ _).le⟩
      exact (List.mem_append.mp hr).imp_right fun hr => ⟨List.mem_singleton.mp hr, Int.lt_succ _⟩
  | create repoId =>
    simp only [act] at h
    split at h
    · rename_i hrow
      obtain rfl := Option.some.inj h
      refine ⟨fun r hr => ?_, ⟨⟨⟨w.nextRepo⟩, "", ""⟩, rfl, fun _ hr => .inl hr⟩,
        (Int.lt_succ _).le, le_rfl⟩
      rcases List.mem_append.mp hr with hr | hr
      · exact .inl hr
      · rw [List.mem_singleton.mp hr]
        exact .inr (.inr ⟨rfl, Int.lt_succ _, hrow.1⟩)
    · cases h
  | start id status =>
    simp only [act] at h
    split at h
    · rename_i hstatus
      obtain rfl := Option.some.inj h
      exact .of_updateEval (fun r => r.repoId_start status hstatus) fun r hr =>
        .inl (r.start_of_isTerminal status hstatus hr)
    · cases h
  | finish id status finishedAt =>
    obtain rfl := Option.some.inj h
    exact .of_updateEval (fun r => r.repoId_finish status finishedAt) fun r hr =>
      .inl (r.finish_of_isTerminal status finishedAt hr)
  | requeue id =>
    simp only [act] at h
    split at h
    · rename_i hboot
      obtain rfl := Option.some.inj h
      exact .of_updateEval (fun _ => rfl) fun _ _ => .inr hboot
    · cases h
  | gc a =>
    obtain ⟨t, ht, rfl⟩ := Option.map_eq_some_iff.mp h
    exact .of_spares (Tick.spares_step (hs.fits t ht))
  | pruneCall i a =>
    obtain ⟨p, hp, rfl⟩ := Option.map_eq_some_iff.mp h
    exact .of_spares (Prune.spares fun r hr =>
      (hs.pruned p (List.mem_of_getElem? hp) r (p.named_of_deleted hr)).gone hr)
  | prune _ | crash =>
    obtain rfl := Option.some.inj h
    exact .of_eq rfl rfl rfl rfl
  | writeLog _ | plantRoot _ | wake _ _ | booted =>
    simp only [act] at h
    split at h
    · obtain rfl := Option.some.inj h
      exact .of_eq rfl rfl rfl rfl
    · cases h

/-- The actions of others than the retention task and a prune remove nothing. -/
theorem kept_act {a : GcAct} (hs : w.Sound) (hk : w.Kept) (h : w.act a = some w') : w'.Kept := by
  have hmoves := moves_act hs h
  cases a with
  | gc a =>
    obtain ⟨t, ht, rfl⟩ := Option.map_eq_some_iff.mp h
    exact hk.of_spares (Tick.spares_step (hs.fits t ht))
  | pruneCall i a =>
    obtain ⟨p, hp, rfl⟩ := Option.map_eq_some_iff.mp h
    exact hk.of_spares (Prune.spares fun r hr =>
      (hs.pruned p (List.mem_of_getElem? hp) r (p.named_of_deleted hr)).gone hr)
  | writeLog dir =>
    simp only [act] at h
    split at h
    · obtain rfl := Option.some.inj h
      refine hk.of_moves hs hmoves (List.subset_append_left _ _) (fun _ hd => hd) (fun x hx => ?_)
        fun _ hd => .inl hd
      exact (List.mem_append.mp hx).imp_right fun hx => List.mem_append_right _ hx
    · cases h
  | plantRoot dir =>
    simp only [act] at h
    split at h
    · obtain rfl := Option.some.inj h
      refine hk.of_moves hs hmoves (fun _ hx => hx) (List.subset_append_left _ _)
        (fun _ hx => .inl hx) fun d hd => ?_
      exact (List.mem_append.mp hd).imp_right fun hd => List.mem_append_right _ hd
    · cases h
  | upsert forge slug =>
    simp only [act] at h
    split at h <;> obtain rfl := Option.some.inj h <;>
      exact hk.of_moves hs hmoves (fun _ hx => hx) (fun _ hd => hd) (fun _ hx => .inl hx)
        fun _ hd => .inl hd
  | finish _ _ _ | prune _ | crash =>
    obtain rfl := Option.some.inj h
    exact hk.of_moves hs hmoves (fun _ hx => hx) (fun _ hd => hd) (fun _ hx => .inl hx)
      fun _ hd => .inl hd
  | create _ | start _ _ | requeue _ | wake _ _ | booted =>
    simp only [act] at h
    split at h
    · obtain rfl := Option.some.inj h
      exact hk.of_moves hs hmoves (fun _ hx => hx) (fun _ hd => hd) (fun _ hx => .inl hx)
        fun _ hd => .inl hd
    · cases h

end GcWorld

namespace GcWorld

variable {w w' : GcWorld}

theorem sound_act {a : GcAct} (hs : w.Sound) (h : w.act a = some w') : w'.Sound := by
  have hm := moves_act hs h
  cases a with
  | gc a =>
    obtain ⟨t, ht, rfl⟩ := Option.map_eq_some_iff.mp h
    refine hs.of_moves hm (fun _ hx => .inl hx) (fun _ hd => .inl hd)
      (fun _ => hs.awake (Option.isSome_iff_exists.mpr ⟨t, ht⟩)) (fun t' ht' => .inr ?_)
      fun _ hp => .inl hp
    exact Tick.fits_step (hs.fits t ht) hs.repos hs.unique hs.evals ht'
  | pruneCall i a =>
    obtain ⟨p, hp, rfl⟩ := Option.map_eq_some_iff.mp h
    have hold := hs.pruned p (List.mem_of_getElem? hp)
    refine hs.of_moves hm (fun _ hx => .inl hx) (fun _ hd => .inl hd) hs.awake
      (fun _ ht => .inl ?_) fun q hq => ?_
    · exact ht
    · simp only at hq
      split at hq
      · exact .inl (List.mem_of_mem_eraseIdx hq)
      · rename_i p' hp'
        rcases List.mem_or_eq_of_mem_set hq with hq | rfl
        · exact .inl hq
        · refine .inr fun r hr => ?_
          obtain ⟨hnamed, horphan⟩ := Prune.named_step hp' hr
          have hfound := hm.found (hold r hnamed)
          refine ⟨hfound.known, hfound.row, horphan hfound.orphan, fun hd => ?_⟩
          exact (Prune.deleted_step hp' hd).elim hfound.gone id
  | prune config =>
    obtain rfl := Option.some.inj h
    refine hs.of_moves hm (fun _ hx => .inl hx) (fun _ hd => .inl hd) hs.awake
      (fun _ ht => .inl ht) fun p hp => ?_
    rcases List.mem_append.mp hp with hp | hp
    · exact .inl hp
    · rw [List.mem_singleton.mp hp]
      refine .inr fun r hr => ?_
      have hr : r ∈ orphans w.state config := (List.mem_append.mp hr).elim id id
      obtain ⟨hrow, hkeep⟩ := List.mem_filter.mp hr
      have horphan : (r.forge, r.slug) ∉ config.keep := of_decide_eq_true hkeep
      exact ⟨hs.repos r hrow, fun x hx => hs.unique x hx r hrow, horphan,
        fun hd => absurd hd.1 hd.2⟩
  | wake config now =>
    simp only [act] at h
    split at h
    · rename_i hquiet
      obtain rfl := Option.some.inj h
      refine hs.of_moves hm (fun _ hx => .inl hx) (fun _ hd => .inl hd) (fun _ => hquiet.2)
        (fun t ht => .inr ?_) fun _ hp => .inl hp
      obtain rfl := Option.some.inj ht
      exact fun _ hr => hr
    · cases h
  | crash =>
    obtain rfl := Option.some.inj h
    exact hs.of_moves hm (fun _ hx => .inl hx) (fun _ hd => .inl hd) (fun h => by cases h)
      (fun t ht => by cases ht) fun p hp => absurd hp List.not_mem_nil
  | writeLog dir =>
    simp only [act] at h
    split at h
    · rename_i hdir
      obtain rfl := Option.some.inj h
      refine hs.of_moves hm (fun x hx => ?_) (fun _ hd => .inl hd) hs.awake (fun _ ht => .inl ht)
        fun _ hp => .inl hp
      refine (List.mem_append.mp hx).imp_right fun hx => ?_
      rw [List.mem_singleton.mp hx]
      exact hdir
    · cases h
  | plantRoot dir =>
    simp only [act] at h
    split at h
    · rename_i hdir
      obtain rfl := Option.some.inj h
      refine hs.of_moves hm (fun _ hx => .inl hx) (fun d hd => ?_) hs.awake (fun _ ht => .inl ht)
        fun _ hp => .inl hp
      refine (List.mem_append.mp hd).imp_right fun hd => ?_
      rw [List.mem_singleton.mp hd]
      exact hdir
    · cases h
  | booted =>
    simp only [act] at h
    split at h
    · obtain rfl := Option.some.inj h
      exact hs.of_moves hm (fun _ hx => .inl hx) (fun _ hd => .inl hd) (fun _ => rfl)
        (fun _ ht => .inl ht) fun _ hp => .inl hp
    · cases h
  | upsert forge slug =>
    simp only [act] at h
    split at h <;> obtain rfl := Option.some.inj h
    · exact hs
    · exact hs.of_moves hm (fun _ hx => .inl hx) (fun _ hd => .inl hd) hs.awake
        (fun _ ht => .inl ht) fun _ hp => .inl hp
  | finish id status finishedAt =>
    obtain rfl := Option.some.inj h
    exact hs.of_moves hm (fun _ hx => .inl hx) (fun _ hd => .inl hd) hs.awake
      (fun _ ht => .inl ht) fun _ hp => .inl hp
  | create _ | start _ _ | requeue _ =>
    simp only [act] at h
    split at h
    · obtain rfl := Option.some.inj h
      exact hs.of_moves hm (fun _ hx => .inl hx) (fun _ hd => .inl hd) hs.awake
        (fun _ ht => .inl ht) fun _ hp => .inl hp
    · cases h

theorem sound_fresh : fresh.Sound where
  repos _ h := absurd h List.not_mem_nil
  unique _ h := absurd h List.not_mem_nil
  evals _ h := absurd h List.not_mem_nil
  written _ h := absurd h List.not_mem_nil
  planted _ h := absurd h List.not_mem_nil
  awake h := by cases h
  fits _ h := by cases h
  pruned _ h := absurd h List.not_mem_nil

theorem kept_fresh : fresh.Kept where
  logs _ h := absurd h List.not_mem_nil
  roots _ h := absurd h List.not_mem_nil

theorem always_sound (h : Runs act Always fresh w) : w.Sound :=
  h.invariant sound_fresh fun hs _ hact => sound_act hs hact

end GcWorld

open GcWorld in
/-- **In every state of a run, what is listed has all that was made for it.** -/
theorem kept_of_run {w : GcWorld} (h : Runs act Always fresh w) : w.Kept := by
  have hboth : w.Sound ∧ w.Kept :=
    h.invariant (And.intro sound_fresh kept_fresh) fun hw _ hact =>
      And.intro (sound_act hw.1 hact) (kept_act hw.1 hw.2 hact)
  exact hboth.2

/-! ## Why a row goes -/

namespace GcWorld

/-- What an action can delete the row for. -/
inductive Reason (w : GcWorld) (a : GcAct) (r : EvalRecord) : Prop
  /-- It is a call of a prune. The repository of the row is the next one that the prune deletes, and
      its configuration does not name it. -/
  | orphan (i : ℕ) (ans : Answer) (ha : a = .pruneCall i ans)
      (config : Config) (orphans todo : List RepoRow) (row : RepoRow)
      (hp : w.prunes[i]? = some (.deleting config orphans (row :: todo))) (hid : row.id = r.repoId)
      (hrow : ∀ x ∈ w.state.repos, x.id = row.id → x = row)
      (hkeep : (row.forge, row.slug) ∉ config.keep)
  /-- It is a call of the tick, and the row is the next one that the age pass deletes. The
      evaluation is over, and past the age that the configuration has for its repository. -/
  | age (ans : Answer) (ha : a = .gc ans) (t : Tick) (ht : t ∈ w.gc) (es : List EvalRecord)
      (call : Call) (repo : Repo) (cutoff : ℤ) (todo : List Repo)
      (hpc : t.pc = .deleting (r :: es) call (.age repo cutoff todo))
      (hnames : ∀ row ∈ w.state.repos, row.id = r.repoId →
        row.forge = repo.forge ∧ row.slug = repo.slug)
      (hcutoff : t.config.HasCutoff t.now repo cutoff) (hover : r.status.isTerminal = true)
      (hage : r.finishedAt.any (· ≤ cutoff) = true)
  /-- It is a call of the tick, and the row is the next one that the size pass deletes. The
      evaluation is over, and what the pass has measured last is more than the cap. -/
  | size (ans : Answer) (ha : a = .gc ans) (t : Tick) (ht : t ∈ w.gc) (es : List EvalRecord)
      (call : Call) (deleted cap currentBytes : ℕ)
      (hpc : t.pc = .deleting (r :: es) call (.size deleted cap currentBytes))
      (hcap : t.config.HasCap cap) (hbytes : cap < currentBytes)
      (hover : r.status.isTerminal = true)

variable {w w' : GcWorld} {r : EvalRecord}

theorem reason_of_tick {t : Tick} {a : Answer} (hs : w.Sound) (ht : t ∈ w.gc)
    (hr : r ∈ w.state.evals) (hgone : (t.step w.state a).1.NoEval r.id) :
    w.Reason (.gc a) r := by
  have hfits := hs.fits t ht
  by_cases hpc : ∃ e es call loop, t.pc = .deleting (e :: es) call loop
  · obtain ⟨e, es, call, loop, hpc⟩ := hpc
    rw [Tick.step_deleting_fst hpc] at hgone
    simp only [Tick.Fits, hpc] at hfits
    have hpick := hfits.2.1 e List.mem_cons_self
    have hid : r.id = e.id := by
      by_contra hid
      exact hgone r (mem_evals_deleteCall hr hid) rfl
    -- it is what was picked, and it is as it was picked
    obtain rfl := hpick.same r hr hid
    have hdue := hpick.due
    cases loop with
    | age repo cutoff todo =>
      exact .age a rfl t ht es call repo cutoff todo hpc hdue.1.2 hdue.2.1 hpick.terminal hdue.2.2
    | size deleted cap currentBytes =>
      exact .size a rfl t ht es call deleted cap currentBytes hpc hdue.1 hdue.2 hpick.terminal
  · rw [Tick.step_reads fun e es call loop heq => hpc ⟨e, es, call, loop, heq⟩] at hgone
    exact absurd rfl (hgone r hr)

/-- No other action deletes a row. -/
theorem reason_of_act {a : GcAct} (hs : w.Sound) (h : w.act a = some w')
    (hr : r ∈ w.state.evals) (hgone : w'.state.NoEval r.id) : w.Reason a r := by
  cases a with
  | gc a =>
    obtain ⟨t, ht, rfl⟩ := Option.map_eq_some_iff.mp h
    exact reason_of_tick hs ht hr hgone
  | pruneCall i a =>
    obtain ⟨p, hp, rfl⟩ := Option.map_eq_some_iff.mp h
    have hmem := List.mem_of_getElem? hp
    by_contra hnone
    refine hgone r (Prune.mem_evals_step hr fun config orphans x todo heq hid => hnone ?_) rfl
    have hfound := hs.pruned p hmem x (heq ▸ List.mem_append_right _ List.mem_cons_self)
    rw [heq] at hp hfound
    exact .orphan i a rfl config orphans todo x hp hid hfound.row hfound.orphan
  | create _ =>
    simp only [act] at h
    split at h
    · obtain rfl := Option.some.inj h
      exact absurd rfl (hgone r (List.mem_append_left _ hr))
    · cases h
  | upsert _ _ =>
    simp only [act] at h
    split at h <;> obtain rfl := Option.some.inj h <;> exact absurd rfl (hgone r hr)
  | start _ status =>
    simp only [act] at h
    split at h
    · rename_i hstatus
      obtain rfl := Option.some.inj h
      exact absurd rfl (hgone.of_updateEval (EvalRecord.id_start status hstatus) r hr)
    · cases h
  | finish _ status finishedAt =>
    obtain rfl := Option.some.inj h
    exact absurd rfl (hgone.of_updateEval (EvalRecord.id_finish status finishedAt) r hr)
  | requeue _ =>
    simp only [act] at h
    split at h
    · obtain rfl := Option.some.inj h
      exact absurd rfl (hgone.of_updateEval EvalRecord.id_requeue r hr)
    · cases h
  | prune _ | crash =>
    obtain rfl := Option.some.inj h
    exact absurd rfl (hgone r hr)
  | writeLog _ | plantRoot _ | wake _ _ | booted =>
    simp only [act] at h
    split at h
    · obtain rfl := Option.some.inj h
      exact absurd rfl (hgone r hr)
    · cases h

end GcWorld

open GcWorld in
/-- **A row goes for a reason** that the action has which takes it, whatever was done to it after it
    was picked. -/
theorem reason_of_run {w w' : GcWorld} {a : GcAct} {r : EvalRecord}
    (h : Runs act Always fresh w) (ha : w.act a = some w') (hr : r ∈ w.state.evals)
    (hgone : w'.state.NoEval r.id) : w.Reason a r := reason_of_act (always_sound h) ha hr hgone

/-! ## What no tick finds -/

namespace GcWorld

/-- A gcroot directory whose row is gone, and that nobody is about to remove. -/
structure Orphaned (d : RootDir) (w : GcWorld) : Prop where
  root : d ∈ w.state.roots
  noEval : w.state.NoEval d.evalId
  known : d.evalId.get < w.nextEval
  unpicked : ∀ t ∈ w.gc, ∀ e ∈ t.pending, e.id ≠ d.evalId
  unpruned : ∀ p ∈ w.prunes, ∀ r ∈ p.named, r.id ≠ d.repoId

/-- Its repository stays in the configuration. -/
def StaysNamed (d : RootDir) (w : GcWorld) : GcAct → Prop
  | .prune config => ∀ r ∈ w.state.repos, r.id = d.repoId → (r.forge, r.slug) ∈ config.keep
  | _ => True

variable {w w' : GcWorld} {d : RootDir}

/-- What others do to it, as long as the lists of the tick and of the prunes do not grow. -/
theorem Orphaned.of_moves (h : w.Orphaned d) (hm : Moves w w') (hroot : d ∈ w'.state.roots)
    (hgc : ∀ t' ∈ w'.gc, ∀ e ∈ t'.pending, (∃ t ∈ w.gc, e ∈ t.pending) ∨ e ∈ w.state.evals)
    (hprunes : ∀ p' ∈ w'.prunes, ∀ r ∈ p'.named, (∃ p ∈ w.prunes, r ∈ p.named) ∨ r.id ≠ d.repoId) :
    w'.Orphaned d where
  root := hroot
  noEval := hm.noEval h.known h.noEval
  known := lt_of_lt_of_le h.known hm.nextEval
  unpicked t' ht' e he := by
    rcases hgc t' ht' e he with ⟨t, ht, he⟩ | he
    · exact h.unpicked t ht e he
    · exact h.noEval e he
  unpruned p' hp' r hr := by
    rcases hprunes p' hp' r hr with ⟨p, hp, hr⟩ | hr
    · exact h.unpruned p hp r hr
    · exact hr

theorem orphaned_act {a : GcAct} (hs : w.Sound) (hd : w.Orphaned d) (hnamed : w.StaysNamed d a)
    (h : w.act a = some w') : w'.Orphaned d := by
  have hm := moves_act hs h
  -- what most actions do: nothing to any of it
  have hquiet : d ∈ w'.state.roots → w'.gc = w.gc → w'.prunes = w.prunes → w'.Orphaned d := by
    intro hroot hgc hprunes
    exact hd.of_moves hm hroot (fun t ht e he => .inl ⟨t, hgc ▸ ht, he⟩)
      fun p hp r hr => .inl ⟨p, hprunes ▸ hp, hr⟩
  cases a with
  | gc a =>
    obtain ⟨t, ht, rfl⟩ := Option.map_eq_some_iff.mp h
    refine hd.of_moves hm (Tick.mem_roots_step hd.root (hd.unpicked t ht)) (fun t' ht' e he => ?_)
      fun p hp r hr => .inl ⟨p, hp, hr⟩
    exact (Tick.pending_step ht' he).imp_left fun he => ⟨t, ht, he⟩
  | pruneCall i a =>
    obtain ⟨p, hp, rfl⟩ := Option.map_eq_some_iff.mp h
    have hmem := List.mem_of_getElem? hp
    refine hd.of_moves hm (Prune.mem_roots_step hd.root (hd.unpruned p hmem))
      (fun t ht e he => .inl ⟨t, ht, he⟩) fun q hq r hr => ?_
    simp only at hq
    split at hq
    · exact .inl ⟨q, List.mem_of_mem_eraseIdx hq, hr⟩
    · rename_i p' hp'
      rcases List.mem_or_eq_of_mem_set hq with hq | rfl
      · exact .inl ⟨q, hq, hr⟩
      · exact .inl ⟨p, hmem, (Prune.named_step hp' hr).1⟩
  | prune config =>
    obtain rfl := Option.some.inj h
    refine hd.of_moves hm hd.root (fun t ht e he => .inl ⟨t, ht, he⟩) fun p hp r hr => ?_
    rcases List.mem_append.mp hp with hp | hp
    · exact .inl ⟨p, hp, hr⟩
    · rw [List.mem_singleton.mp hp] at hr
      have hr : r ∈ orphans w.state config := (List.mem_append.mp hr).elim id id
      obtain ⟨hrow, hkeep⟩ := List.mem_filter.mp hr
      exact .inr fun hid => of_decide_eq_true hkeep (hnamed r hrow hid)
  | wake config now =>
    simp only [act] at h
    split at h
    · obtain rfl := Option.some.inj h
      refine hd.of_moves hm hd.root (fun t ht e he => ?_) fun p hp r hr => .inl ⟨p, hp, hr⟩
      obtain rfl := Option.some.inj ht
      exact absurd he List.not_mem_nil
    · cases h
  | crash =>
    obtain rfl := Option.some.inj h
    exact hd.of_moves hm hd.root (fun t ht => by cases ht) fun p hp => absurd hp List.not_mem_nil
  | plantRoot dir =>
    simp only [act] at h
    split at h
    · obtain rfl := Option.some.inj h
      exact hquiet (List.mem_append_left _ hd.root) rfl rfl
    · cases h
  | upsert _ _ =>
    simp only [act] at h
    split at h <;> obtain rfl := Option.some.inj h <;> exact hquiet hd.root rfl rfl
  | finish _ _ _ =>
    obtain rfl := Option.some.inj h
    exact hquiet hd.root rfl rfl
  | create _ | start _ _ | requeue _ | writeLog _ | booted =>
    simp only [act] at h
    split at h
    · obtain rfl := Option.some.inj h
      exact hquiet hd.root rfl rfl
    · cases h

/-- The evaluation whose row has gone, and whose directories are next. -/
def sweeping (w : GcWorld) : Option EvalId := (w.gc.bind Tick.sweeping).map (·.id)

/-- **A crash between the row and its directories leaves an orphan.** -/
theorem orphaned_crash (hs : w.Sound) (hsweep : w.sweeping = some d.evalId)
    (hroot : d ∈ w.state.roots) (h : w.act .crash = some w') : w'.Orphaned d := by
  obtain ⟨e, he, hid⟩ := Option.map_eq_some_iff.mp hsweep
  obtain ⟨t, ht, he⟩ := Option.bind_eq_some_iff.mp he
  obtain ⟨es, call, loop, hpc, hcall⟩ := Tick.deleting_of_sweeping he
  have hfits := hs.fits t ht
  simp only [Tick.Fits, hpc] at hfits
  obtain rfl := Option.some.inj h
  exact
    { root := hroot
      noEval := hid ▸ hfits.2.2 hcall e rfl
      known := hid ▸ (hfits.2.1 e List.mem_cons_self).known
      unpicked := fun t ht => by cases ht
      unpruned := fun p hp => absurd hp List.not_mem_nil }

end GcWorld

open GcWorld in
/-- **And it stays for as long as its repository is in the configuration**, with all that its links
    pin: no tick finds it, whatever the retention. -/
theorem orphan_of_run {w₀ w w' : GcWorld} {d : RootDir} (h₀ : Runs act Always fresh w₀)
    (hsweep : w₀.sweeping = some d.evalId) (hroot : d ∈ w₀.state.roots)
    (hcrash : w₀.act .crash = some w) (h : Runs act (StaysNamed d) w w') :
    d ∈ w'.state.roots ∧ w'.state.NoEval d.evalId := by
  have hsound := always_sound h₀
  have hboth : w'.Sound ∧ w'.Orphaned d :=
    h.invariant (And.intro (sound_act hsound hcrash) (orphaned_crash hsound hsweep hroot hcrash))
      fun hw hnamed hact => And.intro (sound_act hw.1 hact) (orphaned_act hw.1 hw.2 hnamed hact)
  exact ⟨hboth.2.root, hboth.2.noEval⟩

/-! ## A leak -/

namespace GcWorld

instance (s : State) (id : EvalId) : Decidable (s.NoEval id) :=
  inferInstanceAs (Decidable (∀ r ∈ s.evals, r.id ≠ id))

instance (d : RootDir) (w : GcWorld) (a : GcAct) : Decidable (w.StaysNamed d a) := by
  induction a using GcAct.casesOn with
  | prune config =>
    exact inferInstanceAs (Decidable (∀ r ∈ w.state.repos, r.id = d.repoId →
      (r.forge, r.slug) ∈ config.keep))
  | _ => exact isTrue trivial

/-- Evaluations are kept for a day. -/
def oneDay : Config := ⟨[⟨"github", "acme/app", none⟩], ⟨some 1, none⟩⟩

/-- The gcroot of the first evaluation. -/
def pinned : RootDir := ⟨⟨1⟩, ⟨1⟩, ["/nix/store/image"]⟩

/-- An evaluation is over, and another one still builds. Two days later a tick has picked the
    first. -/
def picks : List GcAct :=
  [.upsert "github" "acme/app", .create ⟨1⟩, .writeLog (⟨1⟩, ⟨1⟩), .plantRoot pinned,
    .finish ⟨1⟩ .done 0, .create ⟨1⟩, .writeLog (⟨1⟩, ⟨2⟩),
    .plantRoot ⟨⟨1⟩, ⟨2⟩, ["/nix/store/lib"]⟩, .booted, .wake oneDay (2 * secondsPerDay),
    .gc ⟨true, [], 0⟩, .gc ⟨true, [], 0⟩]

/-- The task is about to delete the first evaluation. -/
def aboutToDelete : GcWorld := (script act Always fresh picks).get (by decide +kernel)

/-- Its row is gone. -/
def halfDeleted : GcWorld := (aboutToDelete.act (.gc ⟨true, [], 0⟩)).get (by decide +kernel)

/-- The daemon dies there and comes back. -/
def restarted : GcWorld := (halfDeleted.act .crash).get (by decide +kernel)

/-- A week later there is a tick that finds nothing to delete. -/
def aWeekLater : GcWorld :=
  (script act (StaysNamed pinned) restarted [.booted, .wake oneDay (9 * secondsPerDay),
    .gc ⟨true, [], 0⟩, .gc ⟨true, [], 0⟩, .gc ⟨true, [], 0⟩, .gc ⟨true, [], 0⟩]).get
      (by decide +kernel)

theorem run_aboutToDelete : Runs act Always fresh aboutToDelete :=
  .of_script (Option.some_get _).symm

theorem run_halfDeleted : Runs act Always fresh halfDeleted :=
  run_aboutToDelete.step trivial (Option.some_get _).symm

end GcWorld

open GcWorld

theorem kept_of_run_halfDeleted :
    halfDeleted.state.evals.map EvalRecord.id = [⟨2⟩] ∧
      halfDeleted.state.logs = [(⟨1⟩, ⟨1⟩), (⟨1⟩, ⟨2⟩)] ∧ halfDeleted.Kept :=
  ⟨by decide +kernel, by decide +kernel, kept_of_run run_halfDeleted⟩

theorem reason_of_run_halfDeleted :
    ∃ r ∈ aboutToDelete.state.evals, r.id = ⟨1⟩ ∧
      aboutToDelete.Reason (.gc ⟨true, [], 0⟩) r := by
  obtain ⟨r, hr, hid⟩ : ∃ r ∈ aboutToDelete.state.evals, r.id = ⟨1⟩ := by decide +kernel
  have hgone : halfDeleted.state.NoEval r.id := by
    rw [hid]
    decide +kernel
  exact ⟨r, hr, hid, reason_of_run run_aboutToDelete (Option.some_get _).symm hr hgone⟩

theorem orphan_of_run_aWeekLater :
    pinned ∈ aWeekLater.state.roots ∧ aWeekLater.state.NoEval ⟨1⟩ :=
  orphan_of_run run_halfDeleted (by decide +kernel) (by decide +kernel) (Option.some_get _).symm
    (.of_script (Option.some_get _).symm)

end Argunix.Daemon.Gc
