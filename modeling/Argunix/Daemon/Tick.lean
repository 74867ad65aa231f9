import Argunix.Daemon.Gc

/-!
# `argunix-daemon`: a tick of the retention task, call by call

`Gc.tick` is a tick with nothing in between. In the daemon every call of it is a wait: of the store,
of the file system, of the sizer. Here `Tick.step` goes from one wait to the next, and what the call
answers is anything: that it failed, that a directory is half gone, how many bytes are pinned.

`Tick.Fits` is what a tick has in mind between two calls. The evaluations that it has picked were
over, and too old or over the cap; and the row of the one whose directories are next is gone. It is
kept by every step (`Tick.fits_step`), and so no step takes a directory of an evaluation that has a
row (`Tick.spares_step`). Where nothing comes in between, the steps make up `Gc.tick`
(`Tick.finishes_tick`).
-/

set_option autoImplicit false

namespace Argunix.Daemon.Gc

/-! ## The calls -/

/-- What an awaited call answers. -/
structure Answer where
  ok : Bool
  /-- What is still there when the removal of a directory has failed. -/
  left : List String
  bytes : ℕ

/-- The three calls of `delete_eval`. -/
inductive Call
  | cascade
  | removeLogs
  | removeRoots
deriving DecidableEq

/-- `remove_dir_all` on the directories of which `dir` holds. -/
def removeDirs (dir : RootDir → Prop) [DecidablePred dir] (a : Answer) (roots : List RootDir) :
    List RootDir :=
  if a.ok then roots.filter fun d => ¬ dir d
  else roots.map fun d => if dir d then { d with closure := d.closure.filter (· ∈ a.left) } else d

namespace State

/-- The rows of which `keep` holds. -/
def filterEvals (s : State) (keep : EvalRecord → Bool) : State :=
  { s with evals := s.evals.filter keep, unique := s.unique.sublist (List.filter_sublist.map _) }

end State

/-- One call of `delete_eval`, and the next one. -/
def deleteCall (s : State) (e : EvalRecord) (a : Answer) : Call → State × Option Call
  | .cascade =>
    if a.ok then (s.filterEvals fun r => r.id ≠ e.id, some .removeLogs) else (s, none)
  | .removeLogs =>
    ({ s with
        logs := if a.ok then s.logs.filter fun d => d ≠ (e.repoId, e.id) else s.logs },
      some .removeRoots)
  | .removeRoots =>
    ({ s with roots := removeDirs (fun d => (d.repoId, d.evalId) = (e.repoId, e.id)) a s.roots },
      none)

/-! ## A tick -/

/-- The loop that the deletions are in, with its locals. -/
inductive Loop
  | age (repo : Repo) (cutoff : ℤ) (todo : List Repo)
  | size (deletedInBatch cap currentBytes : ℕ)

/-- The loop after one more evaluation. -/
def Loop.next : Loop → Loop
  | .age repo cutoff todo => .age repo cutoff todo
  | .size deleted cap currentBytes => .size (deleted + 1) cap currentBytes

/-- Where a tick waits. -/
inductive TickPc
  | find (todo : List Repo)
  | listOlder (repo : Repo) (repoId : RepoId) (cutoff : ℤ) (todo : List Repo)
  /-- The first of these is being deleted. -/
  | deleting (evals : List EvalRecord) (call : Call) (loop : Loop)
  | measure
  | listOldest (cap currentBytes : ℕ)
  | remeasure (deletedInBatch cap currentBytes : ℕ)

structure Tick where
  config : Config
  now : ℤ
  pc : TickPc

namespace Tick

/-- The head of `while current_bytes > cap`. -/
def whileOver (t : Tick) (cap currentBytes : ℕ) : Option Tick :=
  if currentBytes > cap then some { t with pc := .listOldest cap currentBytes } else none

/-- After the first measurement. -/
def measured (t : Tick) (bytes : ℕ) : Option Tick :=
  match t.config.retention.maxSizeGb with
  | none => none
  | some maxGb => t.whileOver (capOf maxGb) bytes

/-- After a batch: it goes on only if something was freed. -/
def remeasured (t : Tick) (deletedInBatch cap currentBytes bytesAfter : ℕ) : Option Tick :=
  if currentBytes - bytesAfter = 0 ∧ 0 < deletedInBatch then none else t.whileOver cap bytesAfter

/-- `tick`, up to the next wait. It is over where there is no next one. -/
def step (s : State) (t : Tick) (a : Answer) : State × Option Tick :=
  match t.pc with
  | .find [] => (s, some { t with pc := .measure })
  | .find (repo :: todo) =>
    match repo.effectiveMaxAgeDays t.config.retention with
    | none => (s, some { t with pc := .find todo })
    | some days =>
      match if a.ok then s.repos.find? fun r => r.forge = repo.forge ∧ r.slug = repo.slug
        else none with
      | none => (s, some { t with pc := .find todo })
      | some row =>
        (s, some { t with pc := .listOlder repo row.id (t.now - days * secondsPerDay) todo })
  | .listOlder repo repoId cutoff todo =>
    if a.ok then
      (s, some { t with
        pc := .deleting (listTerminalEvalsOlderThan s repoId cutoff) .cascade
          (.age repo cutoff todo) })
    else (s, some { t with pc := .find todo })
  | .deleting [] _ (.age _ _ todo) => (s, some { t with pc := .find todo })
  | .deleting [] _ (.size deleted cap currentBytes) =>
    (s, some { t with pc := .remeasure deleted cap currentBytes })
  | .deleting (e :: es) call loop =>
    match deleteCall s e a call with
    | (s, some call) => (s, some { t with pc := .deleting (e :: es) call loop })
    | (s, none) => (s, some { t with pc := .deleting es .cascade loop.next })
  | .measure => (s, t.measured a.bytes)
  | .listOldest cap currentBytes =>
    if a.ok then
      match listTerminalEvalsOldestFirst s batchSize with
      | [] => (s, none)
      | batch => (s, some { t with pc := .deleting batch .cascade (.size 0 cap currentBytes) })
    else (s, none)
  | .remeasure deleted cap currentBytes => (s, t.remeasured deleted cap currentBytes a.bytes)

/-- The evaluations that are still to be deleted, with the one that is. -/
def pending (t : Tick) : List EvalRecord :=
  match t.pc with
  | .deleting evals _ _ => evals
  | _ => []

/-- The evaluation whose directories are next. -/
def sweeping (t : Tick) : Option EvalRecord :=
  match t.pc with
  | .deleting (e :: _) .removeLogs _ | .deleting (e :: _) .removeRoots _ => some e
  | _ => none

end Tick

/-! ## What the calls leave -/

section Calls

variable {s : State} {a : Answer}

/-- A directory that is not meant stays, also if the removal fails. -/
theorem mem_removeDirs {dir : RootDir → Prop} [DecidablePred dir] {roots : List RootDir}
    {d : RootDir} (hd : d ∈ roots) (hdir : ¬ dir d) : d ∈ removeDirs dir a roots := by
  unfold removeDirs
  split
  · exact List.mem_filter.mpr ⟨hd, decide_eq_true hdir⟩
  · exact List.mem_map.mpr ⟨d, hd, if_neg hdir⟩

theorem mem_filterEvals {keep : EvalRecord → Bool} {r : EvalRecord} :
    r ∈ (s.filterEvals keep).evals ↔ r ∈ s.evals ∧ keep r = true := List.mem_filter

/-- No row has this id. -/
def State.NoEval (s : State) (id : EvalId) : Prop := ∀ r ∈ s.evals, r.id ≠ id

/-- Rows and directories may go, but no directory of an evaluation that has a row does. -/
structure Spares (s s' : State) : Prop where
  evals : s'.evals ⊆ s.evals
  repos : s'.repos ⊆ s.repos
  logs : ∀ r ∈ s'.evals, (r.repoId, r.id) ∈ s.logs → (r.repoId, r.id) ∈ s'.logs
  roots : ∀ r ∈ s'.evals, ∀ d ∈ s.roots, (d.repoId, d.evalId) = (r.repoId, r.id) → d ∈ s'.roots

theorem Spares.refl (s : State) : Spares s s :=
  ⟨fun _ h => h, fun _ h => h, fun _ _ h => h, fun _ _ _ h _ => h⟩

/-- **A call of `delete_eval` spares what has a row**, if the row has gone before the first of the
    directories goes. -/
theorem spares_deleteCall {e : EvalRecord} {call : Call}
    (h : call ≠ .cascade → s.NoEval e.id) : Spares s (deleteCall s e a call).1 := by
  cases call with
  | cascade =>
    simp only [deleteCall]
    split
    · exact ⟨fun r hr => (mem_filterEvals.mp hr).1, fun _ h => h, fun _ _ h => h,
        fun _ _ _ h _ => h⟩
    · exact Spares.refl s
  | removeLogs =>
    refine ⟨fun _ h => h, fun _ h => h, fun r hr hlog => ?_, fun _ _ _ h _ => h⟩
    show (r.repoId, r.id) ∈ if a.ok then s.logs.filter fun d => d ≠ (e.repoId, e.id) else s.logs
    split
    · refine List.mem_filter.mpr ⟨hlog, decide_eq_true fun heq => ?_⟩
      exact h Call.noConfusion r hr (Prod.mk.inj heq).2
    · exact hlog
  | removeRoots =>
    refine ⟨fun _ h => h, fun _ h => h, fun _ _ h => h, fun r hr d hd hrow => ?_⟩
    refine mem_removeDirs hd fun heq => ?_
    exact h Call.noConfusion r hr (Prod.mk.inj (hrow.symm.trans heq)).2

theorem deleteCall_cascade {e : EvalRecord} (ha : a.ok = true) :
    (deleteCall s e a .cascade).1.NoEval e.id := by
  intro r hr
  simp only [deleteCall, ha, if_true] at hr
  exact of_decide_eq_true (mem_filterEvals.mp hr).2

theorem deleteCall_next {e : EvalRecord} {call next : Call}
    (h : (deleteCall s e a call).2 = some next) (hgone : call ≠ .cascade → s.NoEval e.id) :
    next ≠ .cascade ∧ (deleteCall s e a call).1.NoEval e.id := by
  cases call with
  | cascade =>
    by_cases ha : a.ok = true
    · refine ⟨fun hc => ?_, deleteCall_cascade ha⟩
      simp only [deleteCall, ha, if_true, Option.some.injEq] at h
      exact Call.noConfusion (h.trans hc)
    · simp only [deleteCall, ha, Bool.false_eq_true, if_false, reduceCtorEq] at h
  | removeLogs =>
    obtain rfl := Option.some.inj h
    exact ⟨Call.noConfusion, hgone Call.noConfusion⟩
  | removeRoots => cases h

/-- No other row goes, and no other gcroot. -/
theorem mem_evals_deleteCall {e r : EvalRecord} {call : Call} (hr : r ∈ s.evals)
    (hid : r.id ≠ e.id) : r ∈ (deleteCall s e a call).1.evals := by
  cases call with
  | cascade =>
    simp only [deleteCall]
    split
    · exact mem_filterEvals.mpr ⟨hr, decide_eq_true hid⟩
    · exact hr
  | _ => exact hr

theorem mem_roots_deleteCall {e : EvalRecord} {d : RootDir} {call : Call} (hd : d ∈ s.roots)
    (hid : e.id ≠ d.evalId) : d ∈ (deleteCall s e a call).1.roots := by
  cases call with
  | cascade =>
    simp only [deleteCall]
    split <;> exact hd
  | removeLogs => exact hd
  | removeRoots => exact mem_removeDirs hd fun heq => hid (Prod.mk.inj heq).2.symm

end Calls

/-! ## What a tick is up to -/

section Ticks

variable {m n : ℤ} {s : State} {t : Tick} {a : Answer}

/-- The size pass of this configuration has this cap. -/
def Config.HasCap (config : Config) (cap : ℕ) : Prop :=
  ∃ maxGb, config.retention.maxSizeGb = some maxGb ∧ cap = capOf maxGb

/-- The age pass of this configuration has this cutoff for the repository. -/
def Config.HasCutoff (config : Config) (now : ℤ) (repo : Repo) (cutoff : ℤ) : Prop :=
  repo ∈ config.repos ∧ ∃ days : ℕ, repo.effectiveMaxAgeDays config.retention = some days ∧
    cutoff = now - days * secondsPerDay

/-- If the repository still has a row, it is this one's. Ids from `m` on were not given out. -/
def State.Names (m : ℤ) (s : State) (id : RepoId) (repo : Repo) : Prop :=
  id.get < m ∧ ∀ row ∈ s.repos, row.id = id → row.forge = repo.forge ∧ row.slug = repo.slug

/-- Why the evaluation was picked. -/
def Tick.Due (m : ℤ) (s : State) (t : Tick) (e : EvalRecord) : Loop → Prop
  | .age repo cutoff _ =>
    s.Names m e.repoId repo ∧ t.config.HasCutoff t.now repo cutoff ∧
      e.finishedAt.any (· ≤ cutoff) = true
  | .size _ cap currentBytes => t.config.HasCap cap ∧ cap < currentBytes

/-- The locals of the loop are those of the configuration. -/
def Tick.LoopOk (t : Tick) : Loop → Prop
  | .age _ _ todo => todo ⊆ t.config.repos
  | .size _ cap _ => t.config.HasCap cap

/-- What was picked is as it was when it was picked, if its row is still there. Ids from `n` on
    were not given out. -/
structure Tick.Picked (m n : ℤ) (s : State) (t : Tick) (loop : Loop) (e : EvalRecord) : Prop where
  known : e.id.get < n
  terminal : e.status.isTerminal = true
  due : t.Due m s e loop
  same : ∀ r ∈ s.evals, r.id = e.id → r = e

/-- Between two calls. -/
def Tick.Fits (m n : ℤ) (s : State) (t : Tick) : Prop :=
  match t.pc with
  | .find todo => todo ⊆ t.config.repos
  | .listOlder repo repoId cutoff todo =>
    s.Names m repoId repo ∧ t.config.HasCutoff t.now repo cutoff ∧ todo ⊆ t.config.repos
  | .deleting evals call loop =>
    t.LoopOk loop ∧ (∀ e ∈ evals, t.Picked m n s loop e) ∧
      (call ≠ .cascade → ∀ e ∈ evals.head?, s.NoEval e.id)
  | .measure => True
  | .listOldest cap currentBytes => t.config.HasCap cap ∧ cap < currentBytes
  | .remeasure _ cap _ => t.config.HasCap cap

theorem mem_listOlder {repoId : RepoId} {cutoff : ℤ} {e : EvalRecord} :
    e ∈ listTerminalEvalsOlderThan s repoId cutoff ↔
      e ∈ s.evals ∧ e.repoId = repoId ∧ e.status.isTerminal = true ∧
        e.finishedAt.any (· ≤ cutoff) = true := by
  rw [listTerminalEvalsOlderThan, (List.mergeSort_perm _ _).mem_iff, List.mem_filter,
    Bool.and_eq_true, Bool.and_eq_true, decide_eq_true_eq]

theorem mem_listOldest {limit : ℕ} {e : EvalRecord}
    (h : e ∈ listTerminalEvalsOldestFirst s limit) :
    e ∈ s.evals ∧ e.status.isTerminal = true :=
  mem_terminalEvals.mp (List.mem_of_mem_take h)

/-- The id is the primary key. -/
theorem eq_of_listed {e r : EvalRecord} (he : e ∈ s.evals) (hr : r ∈ s.evals) (h : r.id = e.id) :
    r = e := eq_of_id_eq s.unique hr he h

theorem Tick.fits_whileOver {cap bytes : ℕ} (hcap : t.config.HasCap cap) {t' : Tick}
    (h : t.whileOver cap bytes = some t') : t'.Fits m n s := by
  unfold whileOver at h
  split at h
  · rename_i hover
    obtain rfl := Option.some.inj h
    exact ⟨hcap, hover⟩
  · cases h

/-- The locals of a loop after one more deletion. -/
theorem Tick.loopOk_next {loop : Loop} (h : t.LoopOk loop) : t.LoopOk loop.next := by
  cases loop <;> exact h

theorem Tick.due_next {loop : Loop} {e : EvalRecord} (h : t.Due m s e loop) :
    t.Due m s e loop.next := by
  cases loop <;> exact h

theorem Tick.Due.mono {m' : ℤ} {s' : State} {loop : Loop} {e : EvalRecord} (h : t.Due m s e loop)
    (hnames : ∀ id repo, s.Names m id repo → s'.Names m' id repo) : t.Due m' s' e loop := by
  cases loop with
  | age repo cutoff todo => exact ⟨hnames _ _ h.1, h.2⟩
  | size _ _ _ => exact h

theorem State.Names.spares {s' : State} {id : RepoId} {repo : Repo} (h : s.Names m id repo)
    (hs : Spares s s') : s'.Names m id repo :=
  ⟨h.1, fun row hrow => h.2 row (hs.repos hrow)⟩

theorem Tick.Picked.spares {s' : State} {loop : Loop} {e : EvalRecord} (h : t.Picked m n s loop e)
    (hs : Spares s s') : t.Picked m n s' loop e :=
  ⟨h.known, h.terminal, h.due.mono fun _ _ hn => hn.spares hs, fun r hr => h.same r (hs.evals hr)⟩

/-- A call of `delete_eval` in a tick. -/
theorem Tick.step_deleting {e : EvalRecord} {es : List EvalRecord} {call : Call} {loop : Loop}
    (hpc : t.pc = .deleting (e :: es) call loop) :
    t.step s a =
      match (deleteCall s e a call).2 with
      | some next =>
        ((deleteCall s e a call).1, some { t with pc := .deleting (e :: es) next loop })
      | none =>
        ((deleteCall s e a call).1, some { t with pc := .deleting es .cascade loop.next }) := by
  simp only [step, hpc]
  rcases deleteCall s e a call with ⟨s', _ | next⟩ <;> rfl

theorem Tick.step_deleting_fst {e : EvalRecord} {es : List EvalRecord} {call : Call} {loop : Loop}
    (hpc : t.pc = .deleting (e :: es) call loop) :
    (t.step s a).1 = (deleteCall s e a call).1 := by
  rw [step_deleting hpc]
  split <;> rfl

/-- **Nothing but a call of `delete_eval` writes.** -/
theorem Tick.step_reads (h : ∀ e es call loop, t.pc ≠ .deleting (e :: es) call loop) :
    (t.step s a).1 = s := by
  unfold step
  split
  · rfl
  · split
    · rfl
    · split <;> rfl
  · split <;> rfl
  · rfl
  · rfl
  · rename_i e es call loop hpc
    exact absurd hpc (h e es call loop)
  · rfl
  · split
    · split <;> rfl
    · rfl
  · rfl

/-- **A tick spares what has a row.** -/
theorem Tick.spares_step (h : t.Fits m n s) : Spares s (t.step s a).1 := by
  by_cases hpc : ∃ e es call loop, t.pc = .deleting (e :: es) call loop
  · obtain ⟨e, es, call, loop, hpc⟩ := hpc
    rw [step_deleting_fst hpc]
    simp only [Fits, hpc] at h
    exact spares_deleteCall fun hcall => h.2.2 hcall e rfl
  · rw [step_reads fun e es call loop heq => hpc ⟨e, es, call, loop, heq⟩]
    exact Spares.refl s

/-- **And it fits again after the call.** -/
theorem Tick.fits_step (h : t.Fits m n s) (hm : ∀ r ∈ s.repos, r.id.get < m)
    (hunique : ∀ x ∈ s.repos, ∀ y ∈ s.repos, x.id = y.id → x = y)
    (hn : ∀ r ∈ s.evals, r.id.get < n) {t' : Tick} (ht : (t.step s a).2 = some t') :
    t'.Fits m n (t.step s a).1 := by
  have hspares := spares_step (a := a) h
  cases hpc : t.pc with
  | find todo =>
    simp only [Fits, hpc] at h
    cases todo with
    | nil =>
      simp only [step, hpc, Option.some.injEq] at ht
      obtain rfl := ht
      trivial
    | cons repo todo =>
      have htodo : todo ⊆ t.config.repos := fun x hx => h (List.mem_cons_of_mem repo hx)
      simp only [step, hpc] at ht ⊢
      split at ht
      · obtain rfl := Option.some.inj ht
        exact htodo
      · rename_i days hdays
        split at ht
        · obtain rfl := Option.some.inj ht
          exact htodo
        · rename_i row hfind
          obtain rfl := Option.some.inj ht
          refine ⟨?_, ⟨h List.mem_cons_self, days, hdays, rfl⟩, htodo⟩
          split at hfind
          · have hrow := List.mem_of_find?_eq_some hfind
            have hnamed := List.find?_some hfind
            refine ⟨hm row hrow, fun row' hrow' hid => ?_⟩
            rw [hunique row' hrow' row hrow hid]
            exact of_decide_eq_true hnamed
          · cases hfind
  | listOlder repo repoId cutoff todo =>
    simp only [Fits, hpc] at h
    by_cases ha : a.ok = true
    · simp only [step, hpc, ha, if_true] at ht ⊢
      obtain rfl := Option.some.inj ht
      refine ⟨h.2.2, fun e he => ?_, fun hc => absurd rfl hc⟩
      obtain ⟨hmem, hrepo, hover, hage⟩ := mem_listOlder.mp he
      exact ⟨hn e hmem, hover, ⟨hrepo.symm ▸ h.1, h.2.1, hage⟩, fun r hr => eq_of_listed hmem hr⟩
    · simp only [step, hpc, ha, Bool.false_eq_true, if_false] at ht ⊢
      obtain rfl := Option.some.inj ht
      exact h.2.2
  | deleting evals call loop =>
    cases evals with
    | nil =>
      simp only [Fits, hpc] at h
      cases loop with
      | age repo cutoff todo =>
        simp only [step, hpc, Option.some.injEq] at ht
        obtain rfl := ht
        exact h.1
      | size deleted cap currentBytes =>
        simp only [step, hpc, Option.some.injEq] at ht
        obtain rfl := ht
        exact h.1
    | cons e es =>
      simp only [Fits, hpc] at h
      rw [step_deleting_fst hpc] at hspares ⊢
      rw [step_deleting hpc] at ht
      split at ht
      · rename_i next hnext
        obtain rfl := Option.some.inj ht
        obtain ⟨-, hgone⟩ := deleteCall_next hnext fun hcall => h.2.2 hcall e rfl
        refine ⟨h.1, fun x hx => ?_, fun _ x hx => ?_⟩
        · have hx := (h.2.1 x hx).spares hspares
          exact ⟨hx.known, hx.terminal, hx.due, hx.same⟩
        · obtain rfl := Option.some.inj hx
          exact hgone
      · obtain rfl := Option.some.inj ht
        refine ⟨loopOk_next h.1, fun x hx => ?_, fun hc => absurd rfl hc⟩
        have hx := (h.2.1 x (List.mem_cons_of_mem e hx)).spares hspares
        exact ⟨hx.known, hx.terminal, due_next hx.due, hx.same⟩
  | measure =>
    simp only [step, hpc] at ht
    unfold measured at ht
    split at ht
    · cases ht
    · rename_i maxGb hmax
      exact fits_whileOver ⟨maxGb, hmax, rfl⟩ ht
  | listOldest cap currentBytes =>
    simp only [Fits, hpc] at h
    by_cases ha : a.ok = true
    · simp only [step, hpc, ha, if_true] at ht ⊢
      split at ht
      · cases ht
      · obtain rfl := Option.some.inj ht
        refine ⟨h.1, fun e he => ?_, fun hc => absurd rfl hc⟩
        obtain ⟨hmem, hover⟩ := mem_listOldest he
        exact ⟨hn e hmem, hover, h, fun r hr => eq_of_listed hmem hr⟩
    · simp only [step, hpc, ha, Bool.false_eq_true, if_false] at ht
      cases ht
  | remeasure deleted cap currentBytes =>
    simp only [Fits, hpc] at h
    simp only [step, hpc] at ht
    unfold remeasured at ht
    split at ht
    · cases ht
    · exact fits_whileOver h ht

theorem Tick.mem_roots_step {d : RootDir} (hd : d ∈ s.roots)
    (h : ∀ e ∈ t.pending, e.id ≠ d.evalId) : d ∈ (t.step s a).1.roots := by
  by_cases hpc : ∃ e es call loop, t.pc = .deleting (e :: es) call loop
  · obtain ⟨e, es, call, loop, hpc⟩ := hpc
    rw [step_deleting_fst hpc]
    refine mem_roots_deleteCall hd (h e ?_)
    simp only [pending, hpc]
    exact List.mem_cons_self
  · rw [step_reads fun e es call loop heq => hpc ⟨e, es, call, loop, heq⟩]
    exact hd

theorem Tick.deleting_of_sweeping {e : EvalRecord} (h : t.sweeping = some e) :
    ∃ es call loop, t.pc = .deleting (e :: es) call loop ∧ call ≠ .cascade := by
  unfold sweeping at h
  split at h
  · rename_i e' es loop hpc
    obtain rfl := Option.some.inj h
    exact ⟨es, .removeLogs, loop, hpc, Call.noConfusion⟩
  · rename_i e' es loop hpc
    obtain rfl := Option.some.inj h
    exact ⟨es, .removeRoots, loop, hpc, Call.noConfusion⟩
  · cases h

/-- What is to be deleted was so before, or has a row. -/
theorem Tick.pending_step {t' : Tick} (ht : (t.step s a).2 = some t') {e : EvalRecord}
    (he : e ∈ t'.pending) : e ∈ t.pending ∨ e ∈ s.evals := by
  have hover : ∀ {cap bytes : ℕ}, t.whileOver cap bytes = some t' → False := by
    intro cap bytes h
    unfold whileOver at h
    split at h
    · obtain rfl := Option.some.inj h
      exact List.not_mem_nil he
    · cases h
  cases hpc : t.pc with
  | find todo =>
    cases todo with
    | nil =>
      simp only [step, hpc, Option.some.injEq] at ht
      exact absurd (ht ▸ he) List.not_mem_nil
    | cons repo todo =>
      simp only [step, hpc] at ht
      split at ht
      · exact absurd (Option.some.inj ht ▸ he) List.not_mem_nil
      · split at ht
        · exact absurd (Option.some.inj ht ▸ he) List.not_mem_nil
        · exact absurd (Option.some.inj ht ▸ he) List.not_mem_nil
  | listOlder repo repoId cutoff todo =>
    simp only [step, hpc] at ht
    split at ht
    · obtain rfl := Option.some.inj ht
      exact .inr (mem_listOlder.mp he).1
    · exact absurd (Option.some.inj ht ▸ he) List.not_mem_nil
  | deleting evals call loop =>
    cases evals with
    | nil =>
      cases loop with
      | age repo cutoff todo =>
        simp only [step, hpc, Option.some.injEq] at ht
        exact absurd (ht ▸ he) List.not_mem_nil
      | size deleted cap currentBytes =>
        simp only [step, hpc, Option.some.injEq] at ht
        exact absurd (ht ▸ he) List.not_mem_nil
    | cons x es =>
      rw [step_deleting hpc] at ht
      simp only [pending, hpc]
      split at ht
      · obtain rfl := Option.some.inj ht
        exact .inl he
      · obtain rfl := Option.some.inj ht
        exact .inl (List.mem_cons_of_mem x he)
  | measure =>
    simp only [step, hpc] at ht
    unfold measured at ht
    split at ht
    · cases ht
    · exact (hover ht).elim
  | listOldest cap currentBytes =>
    simp only [step, hpc] at ht
    split at ht
    · split at ht
      · cases ht
      · obtain rfl := Option.some.inj ht
        exact .inr (mem_listOldest he).1
    · cases ht
  | remeasure deleted cap currentBytes =>
    simp only [step, hpc] at ht
    unfold remeasured at ht
    split at ht
    · cases ht
    · exact (hover ht).elim

end Ticks

/-! ## A tick alone -/

namespace Tick

/-- The tick goes on from here to its end with nothing in between, and leaves `s'`. -/
inductive Finishes : State → Tick → State → Prop
  | last {s s' : State} {t : Tick} (a : Answer) (h : t.step s a = (s', none)) : Finishes s t s'
  | next {s s₁ s' : State} {t t' : Tick} (a : Answer) (h : t.step s a = (s₁, some t'))
      (hrest : Finishes s₁ t' s') : Finishes s t s'

variable {env : Env} {config : Config} {now : ℤ} {s s' : State}

theorem removeDirs_failed (dir : RootDir → Prop) [DecidablePred dir] (roots : List RootDir) :
    removeDirs dir ⟨false, roots.flatMap RootDir.closure, 0⟩ roots = roots := by
  have hsame : ∀ d ∈ roots, (if dir d then
      { d with closure := d.closure.filter (· ∈ roots.flatMap RootDir.closure) } else d) = d := by
    intro d hd
    have hall : d.closure.filter (· ∈ roots.flatMap RootDir.closure) = d.closure :=
      List.filter_eq_self.mpr fun path hp =>
        decide_eq_true (List.mem_flatMap.mpr ⟨d, hd, hp⟩)
    rw [hall]
    split <;> rfl
  exact (List.map_congr_left hsame).trans (List.map_id _)

/-- `delete_eval` is its three calls. -/
theorem Finishes.deleteEval {e : EvalRecord} {es : List EvalRecord} {loop : Loop}
    (h : Finishes (deleteEval env s e) ⟨config, now, .deleting es .cascade loop.next⟩ s') :
    Finishes s ⟨config, now, .deleting (e :: es) .cascade loop⟩ s' := by
  have hroots : removeDirs (fun d => (d.repoId, d.evalId) = (e.repoId, e.id))
      ⟨env.removeRoots e.id, s.roots.flatMap RootDir.closure, 0⟩ s.roots =
        if env.removeRoots e.id then s.roots.filter fun d => (d.repoId, d.evalId) ≠ (e.repoId, e.id)
        else s.roots := by
    cases env.removeRoots e.id with
    | true => rfl
    | false => exact removeDirs_failed _ s.roots
  by_cases hrow : env.cascade e.id = true
  · simp only [Gc.deleteEval, hrow, if_true, ← hroots] at h
    exact .next ⟨true, [], 0⟩ rfl (.next ⟨env.removeLogs e.id, [], 0⟩ rfl
      (.next ⟨env.removeRoots e.id, s.roots.flatMap RootDir.closure, 0⟩ rfl h))
  · simp only [Gc.deleteEval, hrow, Bool.false_eq_true, if_false] at h
    exact .next ⟨false, [], 0⟩ rfl h

theorem Finishes.batch {es : List EvalRecord} : ∀ {s : State} {loop : Loop},
    Finishes (es.foldl (Gc.deleteEval env) s)
      ⟨config, now, .deleting [] .cascade (Loop.next^[es.length] loop)⟩ s' →
    Finishes s ⟨config, now, .deleting es .cascade loop⟩ s' := by
  induction es with
  | nil => exact fun h => h
  | cons e es ih => exact fun h => .deleteEval (ih h)

theorem next_age (n : ℕ) (repo : Repo) (cutoff : ℤ) (todo : List Repo) :
    Loop.next^[n] (.age repo cutoff todo) = .age repo cutoff todo :=
  Function.iterate_fixed rfl n

theorem next_size (n deleted cap currentBytes : ℕ) :
    Loop.next^[n] (.size deleted cap currentBytes) = .size (deleted + n) cap currentBytes := by
  induction n generalizing deleted with
  | zero => rfl
  | succ n ih =>
    rw [Function.iterate_succ_apply, Loop.next, ih]
    congr 1
    omega

/-- One repository of the age pass. -/
theorem Finishes.ageRepo {repo : Repo} {todo : List Repo} {stats : TickStats}
    (h : Finishes (Gc.ageRepo env config.retention now (s, stats) repo).1
      ⟨config, now, .find todo⟩ s') : Finishes s ⟨config, now, .find (repo :: todo)⟩ s' := by
  unfold Gc.ageRepo at h
  cases hdays : repo.effectiveMaxAgeDays config.retention with
  | none =>
    simp only [hdays] at h
    exact .next ⟨true, [], 0⟩ (by simp only [step, hdays]) h
  | some days =>
    simp only [hdays] at h
    by_cases hfind : env.find repo = true
    · simp only [hfind, if_true] at h
      cases hrow : s.repos.find? fun r => r.forge = repo.forge ∧ r.slug = repo.slug with
      | none =>
        simp only [hrow] at h
        exact .next ⟨true, [], 0⟩ (by simp only [step, hdays, if_true, hrow]) h
      | some row =>
        simp only [hrow] at h
        refine .next ⟨true, [], 0⟩ (by simp only [step, hdays, if_true, hrow]; rfl) ?_
        by_cases hlist : env.listOlder row.id = true
        · simp only [hlist, if_true] at h
          refine .next ⟨true, [], 0⟩ rfl (@Finishes.batch env _ _ _ _ _ _ ?_)
          rw [next_age]
          exact .next ⟨true, [], 0⟩ rfl h
        · simp only [hlist, Bool.false_eq_true, if_false] at h
          exact .next ⟨false, [], 0⟩ rfl h
    · simp only [hfind, Bool.false_eq_true, if_false] at h
      exact .next ⟨false, [], 0⟩ (by simp only [step, hdays, Bool.false_eq_true, if_false]) h

theorem Finishes.agePass {todo : List Repo} : ∀ {s : State} {stats : TickStats},
    Finishes (todo.foldl (Gc.ageRepo env config.retention now) (s, stats)).1
      ⟨config, now, .measure⟩ s' → Finishes s ⟨config, now, .find todo⟩ s' := by
  induction todo with
  | nil => exact fun h => .next ⟨true, [], 0⟩ rfl h
  | cons repo todo ih => exact fun h => .ageRepo (ih h)

/-- The size pass, from the point where it is over the cap. -/
theorem Finishes.sizeLoop {cap : ℕ} : ∀ (bytes n : ℕ) (s : State) (stats : TickStats),
    bytes > cap → Finishes s ⟨config, now, .listOldest cap bytes⟩
      (Gc.sizeLoop env cap s stats bytes n).1 := by
  intro bytes
  induction bytes using Nat.strongRecOn with
  | _ bytes ih =>
    intro n s stats hover
    rw [Gc.sizeLoop, if_pos hover]
    by_cases hlist : env.listOldest n = true
    · rw [if_pos hlist]
      by_cases hnil : listTerminalEvalsOldestFirst s batchSize = []
      · simp only [dif_pos hnil]
        exact .last ⟨true, [], 0⟩ (by simp only [step, if_true, hnil])
      · simp only [dif_neg hnil]
        have hstep : step s ⟨config, now, .listOldest cap bytes⟩ ⟨true, [], 0⟩ =
            (s, some ⟨config, now, .deleting (listTerminalEvalsOldestFirst s batchSize) .cascade
              (.size 0 cap bytes)⟩) := by
          simp only [step, if_true]
        refine .next ⟨true, [], 0⟩ hstep (@Finishes.batch env _ _ _ _ _ _ ?_)
        rw [next_size, Nat.zero_add]
        refine .next ⟨true, [], 0⟩ rfl ?_
        -- the store after the batch, and what is measured there
        change Finishes (deleteBatch env s) _ _
        generalize hafter : env.rootedBytes (n + 1) (deleteBatch env s).roots = bytesAfter
        by_cases hfreed : bytes - bytesAfter = 0 ∧
            0 < (listTerminalEvalsOldestFirst s batchSize).length
        · rw [dif_pos hfreed]
          exact .last ⟨true, [], bytesAfter⟩ (by simp only [step, remeasured, if_pos hfreed])
        · rw [dif_neg hfreed]
          by_cases hmore : bytesAfter > cap
          · refine .next ⟨true, [], bytesAfter⟩
              (by simp only [step, remeasured, if_neg hfreed, whileOver, if_pos hmore])
              (ih bytesAfter ?_ _ _ _ hmore)
            have := List.length_pos_iff.mpr hnil
            omega
          · rw [Gc.sizeLoop, if_neg hmore]
            exact .last ⟨true, [], bytesAfter⟩
              (by simp only [step, remeasured, if_neg hfreed, whileOver, if_neg hmore])
    · rw [if_neg hlist]
      exact .last ⟨false, [], 0⟩ rfl

/-- **With nothing in between, the calls make up `tick`.** -/
theorem finishes_tick (env : Env) (config : Config) (s : State) (now : ℤ) :
    Finishes s ⟨config, now, .find config.repos⟩ (tick config s env now).1 := by
  refine @Finishes.agePass env _ _ _ _ _ {} ?_
  show Finishes (Gc.agePass config s env now).1 _ _
  unfold tick
  generalize Gc.agePass config s env now = p
  cases hgb : config.retention.maxSizeGb with
  | none => exact .last ⟨true, [], 0⟩ (by simp only [step, measured, hgb])
  | some maxGb =>
    simp only
    generalize env.rootedBytes 0 p.1.roots = bytes
    by_cases hover : bytes > capOf maxGb
    · exact .next ⟨true, [], bytes⟩
        (by simp only [step, measured, hgb, whileOver, if_pos hover]; rfl)
        (Finishes.sizeLoop bytes 0 p.1 p.2 hover)
    · rw [Gc.sizeLoop, if_neg hover]
      exact .last ⟨true, [], bytes⟩
        (by simp only [step, measured, hgb, whileOver, if_neg hover])

end Tick

end Argunix.Daemon.Gc
