import Argunix.Daemon.World

/-!
# Boot recovery hands evaluations over more than once

`main` makes its three passes while the worker already consumes the channel, and every pass lists
by the status column that the pass before it, and the worker, rewrite:

* an evaluation that the crash left in `evaluating` is reset to `queued` and sent by the first
  pass. The second pass lists `queued`, finds it again, and sends it again.
* an evaluation in `queued` is sent by the second pass. If the worker has brought it to `building`
  by the time the third pass lists, it is sent again.

The second message is not harmless: `process` finds the row in `building`, resumes it from its
rows, and starts a second build phase beside the first (`two_phases`).

`handsOnce_iff` says which databases are safe at boot: exactly those in which no evaluation is
`queued` or `evaluating`.
-/

set_option autoImplicit false

namespace Argunix.Daemon

open Argunix.Lib Argunix.Sched Argunix.Sched.DagStrategy Argunix.Eval Argunix.Store

/-- The daemon has started on this database and `main` is about to make its first pass. -/
def booted (evals : HashMap EvalId EvalRow) : World :=
  { World.down evals with
    evals := evals.mapValues (·.markRunningInterrupted)
    main := .listEvaluating }

/-- One life of the daemon. -/
def Survives (_ : World) (a : Action) : Prop := a ≠ .crash

/-- What recovery is to achieve, in the world `w` of a daemon that booted on `evals`. -/
structure HandedOnce (evals : HashMap EvalId EvalRow) (w : World) : Prop where
  /-- No evaluation is sent twice. -/
  once : ∀ e, w.sent.count e ≤ 1
  /-- After the passes, every evaluation that was not terminal at boot has been sent. -/
  all : w.main = .serving → ∀ e row, evals.lookup e = some row → row.status.isTerminal = false →
    w.sent.count e = 1
  /-- No evaluation has two build phases running. -/
  single : ∀ e, (w.phases.filter fun x => x.1 = e ∧ x.2.pc ≠ .ended).length ≤ 1

/-- **Boot recovery hands each evaluation to the worker exactly once**, whatever the worker does
    meanwhile. -/
def HandsOnce (evals : HashMap EvalId EvalRow) : Prop :=
  ∀ w, Run Survives (booted evals) w → HandedOnce evals w

/-! ## A message is in one place -/

/-- How often an evaluation is in the channel, with the worker, or in a build phase. -/
def World.held (w : World) (e : EvalId) : ℕ :=
  w.channel.count e + (if w.worker.evalId = some e then 1 else 0) + (w.phases.map Prod.fst).count e

theorem World.held_send (w : World) (e e' : EvalId) :
    (w.send e).held e' = w.held e' + [e].count e' := by
  show (w.channel ++ [e]).count e' + (if w.worker.evalId = some e' then 1 else 0)
    + (w.phases.map Prod.fst).count e' = w.held e' + [e].count e'
  rw [List.count_append, World.held]
  omega

/-- Neither a pass of `main` nor a new evaluation: a message is moved on or dropped. -/
structure MovesOn (w w' : World) : Prop where
  main : w'.main = w.main
  sent : w'.sent = w.sent
  known : ∀ e, (w'.evals.lookup e).isSome = (w.evals.lookup e).isSome
  held : ∀ e, w'.held e ≤ w.held e

/-- The worker goes on with the evaluation it is at, or drops it. -/
theorem MovesOn.worker {w w' : World} {e : EvalId} (hw : w.worker.evalId = some e)
    (hw' : w'.worker.evalId = some e ∨ w'.worker.evalId = none) (hmain : w'.main = w.main)
    (hsent : w'.sent = w.sent) (hchannel : w'.channel = w.channel) (hphases : w'.phases = w.phases)
    (hknown : ∀ e, (w'.evals.lookup e).isSome = (w.evals.lookup e).isSome) : MovesOn w w' := by
  refine ⟨hmain, hsent, hknown, fun e' => ?_⟩
  unfold World.held
  rw [hchannel, hphases, hw]
  rcases hw' with hw' | hw' <;> rw [hw']
  simp

theorem Acts.movesOn {w w' : World} {a : Action} (h : Acts w a w') (hlive : a ≠ .crash)
    (hup : w.main ≠ .down) :
    w.recover = some w' ∨
      (∃ e repoId, w.main = .serving ∧ w.evals.lookup e = none ∧
        w' = { w with evals := w.evals.insert e (.create repoId) }.send e) ∨
      MovesOn w w' := by
  have hsame : ∀ e, (w.evals.lookup e).isSome = (w.evals.lookup e).isSome := fun _ => rfl
  cases h with
  | boot hm => exact absurd hm hup
  | crash => exact absurd rfl hlive
  | recover h => exact Or.inl h
  | submit hm hl => exact Or.inr (Or.inl ⟨_, _, hm, hl, rfl⟩)
  | supersede => exact Or.inr (Or.inr ⟨rfl, rfl, w.isSome_lookup_update _ _, fun _ => le_rfl⟩)
  | fire => exact Or.inr (Or.inr ⟨rfl, rfl, hsame, fun _ => le_rfl⟩)
  | @receive e channel hw hc =>
    refine Or.inr (Or.inr ⟨rfl, rfl, hsame, fun e' => ?_⟩)
    unfold World.held
    simp only [hw, hc, WorkerPc.evalId, Option.some.injEq, List.count_cons, beq_iff_eq,
      reduceCtorEq, if_false]
    omega
  | @spawn e persisted row s walk hw hl _ _ =>
    refine Or.inr (Or.inr ⟨rfl, rfl, hsame, fun e' => ?_⟩)
    unfold World.held World.spawned
    rw [hw]
    simp only [WorkerPc.evalId, List.map_append, List.map_cons, List.map_nil, List.count_append,
      List.count_singleton, Option.some.injEq, reduceCtorEq, if_false, beq_iff_eq]
    omega
  | @phase i e p p' row row' b hi hl _ _ =>
    refine Or.inr (Or.inr ⟨rfl, rfl, w.isSome_lookup_update e fun _ => row', fun e' => ?_⟩)
    have hfst := World.map_fst_stepped hi row' p'
    unfold World.held
    rw [hfst]
    exact le_rfl
  | dropped hw | resumed hw | load hw | persisted hw =>
    refine Or.inr (Or.inr (.worker (congrArg WorkerPc.evalId hw) ?_ rfl rfl rfl rfl hsame))
    simp [WorkerPc.evalId]
  | started hw | abandon hw | evaluated _ hw | createRow hw | describe hw | conclude hw =>
    refine Or.inr (Or.inr (.worker (congrArg WorkerPc.evalId hw) ?_ rfl rfl rfl rfl
      (w.isSome_lookup_update _ _)))
    simp [WorkerPc.evalId]
  | fail hw =>
    exact Or.inr (Or.inr (.worker hw (Or.inr rfl) rfl rfl rfl rfl (w.isSome_lookup_update _ _)))

/-! ## What the passes list -/

theorem World.mem_idsWith {w : World} {status : EvalStatus} {e : EvalId} :
    e ∈ w.idsWith status ↔ ∃ row, w.evals.lookup e = some row ∧ row.status = status := by
  unfold World.idsWith
  simp only [List.mem_reverse, List.mem_map, List.mem_filter, decide_eq_true_eq]
  constructor
  · rintro ⟨⟨e', row⟩, ⟨hmem, hst⟩, rfl⟩
    exact ⟨row, HashMap.mem_entries_iff.mp hmem, hst⟩
  · rintro ⟨row, hl, hst⟩
    exact ⟨⟨e, row⟩, ⟨HashMap.mem_entries_iff.mpr hl, hst⟩, rfl⟩

theorem World.nodup_idsWith (w : World) (status : EvalStatus) : (w.idsWith status).Nodup :=
  List.nodup_reverse.mpr
    (List.Nodup.sublist (List.filter_sublist.map Sigma.fst) w.evals.nodupKeys)

theorem lookup_booted (evals : HashMap EvalId EvalRow) (e : EvalId) :
    (booted evals).evals.lookup e = (evals.lookup e).map (·.markRunningInterrupted) :=
  HashMap.lookup_mapValues _ e evals

/-- A database in which only `building` evaluations are open. -/
def OnlyBuilding (evals : HashMap EvalId EvalRow) : Prop :=
  ∀ e row, evals.lookup e = some row → row.status ≠ .queued ∧ row.status ≠ .evaluating

/-! ## Safe databases -/

/-- Up to the listing of the third pass nothing happens. -/
structure Silent (evals : HashMap EvalId EvalRow) (w : World) : Prop where
  main : w.main ∈ [.listEvaluating, .resetting [], .listQueued, .sendingQueued [], .listBuilding]
  sent : w.sent = []
  channel : w.channel = []
  worker : w.worker = .idle
  phases : w.phases = []
  evals : w.evals = (booted evals).evals

/-- What is left to be sent by the third pass. -/
def MainPc.toResume : MainPc → Option (List EvalId)
  | requeueing ids => some ids
  | sendingBuilding e ids => some (e :: ids)
  | serving => some []
  | _ => none

/-- From then on, nothing is sent that has been sent. -/
structure Resuming (evals : HashMap EvalId EvalRow) (todo : List EvalId) (w : World) : Prop where
  main : w.main.toResume = some todo
  nodup : (w.sent ++ todo).Nodup
  known : ∀ e ∈ w.sent ++ todo, (w.evals.lookup e).isSome = true
  all : ∀ e row, evals.lookup e = some row → row.status.isTerminal = false → e ∈ w.sent ++ todo
  held : ∀ e, w.held e ≤ w.sent.count e

theorem Silent.start (evals : HashMap EvalId EvalRow) : Silent evals (booted evals) :=
  ⟨by simp [booted], rfl, rfl, rfl, rfl, rfl⟩

theorem Silent.idsWith_eq_nil {evals : HashMap EvalId EvalRow} {w : World} (h : Silent evals w)
    {status : EvalStatus} (hnone : ∀ e row, evals.lookup e = some row → row.status ≠ status) :
    w.idsWith status = [] := by
  refine List.eq_nil_iff_forall_not_mem.mpr fun e he => ?_
  obtain ⟨row, hl, hst⟩ := World.mem_idsWith.mp he
  rw [h.evals, lookup_booted] at hl
  obtain ⟨row', hl', rfl⟩ := Option.map_eq_some_iff.mp hl
  exact hnone e row' hl' hst

theorem Silent.step {evals : HashMap EvalId EvalRow} {w w' : World} {a : Action}
    (h : Silent evals w) (hdb : OnlyBuilding evals) (hlive : a ≠ .crash) (hd : Acts w a w') :
    Silent evals w' ∨ ∃ todo, Resuming evals todo w' := by
  have hnot : w.main ≠ .serving ∧ w.main ≠ .down := by
    have := h.main
    constructor <;> intro hm <;> rw [hm] at this <;> exact absurd this (by simp)
  have hidle : ∀ e, w.worker.evalId ≠ some e := by simp [h.worker, WorkerPc.evalId]
  cases hd with
  | boot hm => exact absurd hm hnot.2
  | crash => exact absurd rfl hlive
  | submit hm | supersede hm => exact absurd hm hnot.1
  | fire _ _ hm => exact absurd hm hnot.1
  | receive _ hc => exact absurd (h.channel.symm.trans hc) (by simp)
  | dropped hw | resumed hw | load hw | persisted hw | started hw | abandon hw | evaluated _ hw
  | createRow hw | describe hw | conclude hw | spawn hw =>
    exact absurd (h.worker.symm.trans hw) (by simp)
  | fail hw => exact absurd hw (hidle _)
  | phase hi => exact absurd hi (by simp [h.phases])
  | recover hr =>
    have hpc := h.main
    simp only [List.mem_cons, List.not_mem_nil, or_false] at hpc
    rcases hpc with hm | hm | hm | hm | hm <;> simp only [World.recover, hm] at hr <;>
      obtain rfl := Option.some.inj hr
    · refine Or.inl ⟨?_, h.sent, h.channel, h.worker, h.phases, h.evals⟩
      simp [h.idsWith_eq_nil fun e row hl => (hdb e row hl).2]
    · exact Or.inl ⟨by simp, h.sent, h.channel, h.worker, h.phases, h.evals⟩
    · refine Or.inl ⟨?_, h.sent, h.channel, h.worker, h.phases, h.evals⟩
      simp [h.idsWith_eq_nil fun e row hl => (hdb e row hl).1]
    · exact Or.inl ⟨by simp, h.sent, h.channel, h.worker, h.phases, h.evals⟩
    · -- the third pass lists every evaluation that is open
      refine Or.inr ⟨w.idsWith .building, rfl, ?_, ?_, ?_, ?_⟩
      · simpa [h.sent] using w.nodup_idsWith .building
      · intro e he
        rw [h.sent, List.nil_append] at he
        obtain ⟨row, hl, -⟩ := World.mem_idsWith.mp he
        exact Option.isSome_iff_exists.mpr ⟨row, hl⟩
      · intro e row hl hopen
        rw [h.sent, List.nil_append]
        refine World.mem_idsWith.mpr ⟨row.markRunningInterrupted, ?_, ?_⟩
        · rw [h.evals, lookup_booted, hl]
          rfl
        · have hnq := hdb e row hl
          show row.status = .building
          cases hst : row.status with
          | queued => exact absurd hst hnq.1
          | evaluating => exact absurd hst hnq.2
          | building => rfl
          | evaluationFailed | done | cancelled =>
            rw [hst] at hopen
            exact absurd hopen (by decide)
      · intro e
        simp [World.held, h.channel, h.worker, h.phases, WorkerPc.evalId]

theorem Resuming.step {evals : HashMap EvalId EvalRow} {todo : List EvalId} {w w' : World}
    {a : Action} (h : Resuming evals todo w) (hlive : a ≠ .crash) (hd : Acts w a w') :
    ∃ todo', Resuming evals todo' w' := by
  have hup : w.main ≠ .down := by
    intro hm
    have := h.main
    rw [hm] at this
    exact absurd this (by simp [MainPc.toResume])
  rcases hd.movesOn hlive hup with hr | ⟨e, repoId, hm, hl, rfl⟩ | hmove
  · cases hm : w.main with
    | down | listEvaluating | resetting | sendingReset | listQueued | sendingQueued
    | listBuilding =>
      have := h.main
      rw [hm] at this
      exact absurd this (by simp [MainPc.toResume])
    | serving =>
      rw [World.recover, hm] at hr
      exact absurd hr (by simp)
    | requeueing ids =>
      obtain rfl : ids = todo := by simpa [hm, MainPc.toResume] using h.main
      cases ids with
      | nil =>
        simp only [World.recover, hm] at hr
        obtain rfl := Option.some.inj hr
        exact ⟨[], rfl, h.nodup, h.known, h.all, h.held⟩
      | cons e ids =>
        simp only [World.recover, hm] at hr
        obtain rfl := Option.some.inj hr
        refine ⟨e :: ids, rfl, h.nodup, fun e' he' => ?_, h.all, h.held⟩
        exact (w.isSome_lookup_update e _ e').trans (h.known e' he')
    | sendingBuilding e ids =>
      obtain rfl : e :: ids = todo := by simpa [hm, MainPc.toResume] using h.main
      simp only [World.recover, hm] at hr
      obtain rfl := Option.some.inj hr
      have happ : (w.send e).sent ++ ids = w.sent ++ e :: ids := by simp [World.send]
      refine ⟨ids, rfl, ?_, ?_, ?_, fun e' => ?_⟩
      · exact happ ▸ h.nodup
      · exact happ ▸ h.known
      · exact happ ▸ h.all
      · show (w.send e).held e' ≤ (w.sent ++ [e]).count e'
        rw [w.held_send, List.count_append]
        exact Nat.add_le_add_right (h.held e') _
  · -- a new evaluation has a new id
    obtain rfl : [] = todo := by simpa [hm, MainPc.toResume] using h.main
    have hnew : e ∉ w.sent := fun he => by
      have := h.known e (by simpa using he)
      rw [hl] at this
      exact absurd this (by simp)
    refine ⟨[], by simp [World.send, hm, MainPc.toResume], ?_, ?_, ?_, fun e' => ?_⟩
    · have := h.nodup
      simp only [List.append_nil] at this
      rw [List.append_nil]
      refine List.nodup_append.mpr ⟨this, by simp, ?_⟩
      rintro a ha b hb rfl
      exact hnew (List.mem_singleton.mp hb ▸ ha)
    · intro e' he'
      simp only [World.send, List.append_nil, List.mem_append, List.mem_singleton] at he' ⊢
      rw [HashMap.lookup_insert_eq]
      split
      · rfl
      · rcases he' with he' | rfl
        · exact h.known e' (by simpa using he')
        · rename_i hne
          exact absurd rfl hne
    · intro e' row hl' hopen
      have := h.all e' row hl' hopen
      simp only [World.send, List.append_nil, List.mem_append] at this ⊢
      exact Or.inl this
    · rw [World.held_send]
      show w.held e' + _ ≤ (w.sent ++ [e]).count e'
      rw [List.count_append]
      exact Nat.add_le_add_right (h.held e') _
  · refine ⟨todo, hmove.main ▸ h.main, hmove.sent ▸ h.nodup, fun e he => ?_, hmove.sent ▸ h.all,
      fun e => ?_⟩
    · rw [hmove.known]
      exact h.known e (hmove.sent ▸ he)
    · rw [hmove.sent]
      exact (hmove.held e).trans (h.held e)

theorem Resuming.handedOnce {evals : HashMap EvalId EvalRow} {todo : List EvalId} {w : World}
    (h : Resuming evals todo w) : HandedOnce evals w := by
  have hsent : w.sent.Nodup := (List.nodup_append.mp h.nodup).1
  refine ⟨List.nodup_iff_count_le_one.mp hsent, fun hm e row hl hopen => ?_, fun e => ?_⟩
  · obtain rfl : [] = todo := by simpa [hm, MainPc.toResume] using h.main
    have := h.all e row hl hopen
    rw [List.append_nil] at this
    exact List.count_eq_one_of_mem hsent this
  · have hle : (w.phases.filter fun x => x.1 = e ∧ x.2.pc ≠ .ended).length
        ≤ (w.phases.map Prod.fst).count e := by
      rw [List.count, List.countP_map, List.countP_eq_length_filter]
      refine (List.monotone_filter_right w.phases fun x hx => ?_).length_le
      simp only [Bool.decide_and, Bool.and_eq_true, decide_eq_true_eq] at hx
      simpa using hx.1
    have hheld := (h.held e).trans (List.nodup_iff_count_le_one.mp hsent e)
    unfold World.held at hheld
    omega

theorem Silent.handedOnce {evals : HashMap EvalId EvalRow} {w : World} (h : Silent evals w) :
    HandedOnce evals w := by
  refine ⟨by simp [h.sent], fun hm => ?_, by simp [h.phases]⟩
  have := h.main
  rw [hm] at this
  exact absurd this (by simp)

theorem OnlyBuilding.handsOnce {evals : HashMap EvalId EvalRow} (hdb : OnlyBuilding evals) :
    HandsOnce evals := by
  intro w hrun
  have hinv : Silent evals w ∨ ∃ todo, Resuming evals todo w := by
    induction hrun with
    | refl => exact Or.inl (.start evals)
    | step _ hok hd ih =>
      rcases ih with h | ⟨todo, h⟩
      · exact h.step hdb hok hd.acts
      · exact Or.inr (h.step hok hd.acts)
  rcases hinv with h | ⟨todo, h⟩
  · exact h.handedOnce
  · exact h.handedOnce

/-! ## Unsafe databases

`main` alone sends twice what it has reset, and `main` with one evaluation of the worker in
between sends twice what was queued. -/

theorem Run.recover {w w' : World} (h : w.recover = some w') : Run Survives w w' :=
  .step .refl (by simp [Survives]) (.act (a := .recover) h)

theorem run_resetting (ids : List EvalId) : ∀ {w : World}, w.main = .resetting ids →
    (∀ e ∈ ids, (w.evals.lookup e).isSome = true) →
    ∃ w', Run Survives w w' ∧ w'.main = .listQueued ∧ w'.sent = w.sent ++ ids ∧
      (∀ e row, w.evals.lookup e = some row → row.status = .queued ∨ e ∈ ids →
        ∃ row', w'.evals.lookup e = some row' ∧ row'.status = .queued) := by
  induction ids with
  | nil =>
    intro w hm _
    refine ⟨{ w with main := .listQueued }, .recover (by simp [World.recover, hm]), rfl, by simp, ?_⟩
    intro e row hl hq
    exact ⟨row, hl, by simpa using hq⟩
  | cons id ids ih =>
    intro w hm hknown
    have h₁ : w.recover = some { w.update id (·.setStatus .queued) with
        main := .sendingReset id ids } := by simp [World.recover, hm]
    have h₂ : World.recover { w.update id (·.setStatus .queued) with main := .sendingReset id ids }
        = some { (w.update id (·.setStatus .queued)).send id with main := .resetting ids } := rfl
    have hlook := fun e => w.lookup_update id e (·.setStatus .queued)
    have hknown' : ∀ e ∈ ids, ((w.update id (·.setStatus .queued)).evals.lookup e).isSome = true :=
      fun e he => (w.isSome_lookup_update id _ e).trans (hknown e (List.mem_cons_of_mem _ he))
    obtain ⟨w', hrun, hm', hsent, hq⟩ := ih
      (w := { (w.update id (·.setStatus .queued)).send id with main := .resetting ids }) rfl hknown'
    refine ⟨w', (Run.recover h₁).trans ((Run.recover h₂).trans hrun), hm', ?_, ?_⟩
    · rw [hsent]
      simp [World.send, World.update]
    · intro e row hl hor
      by_cases he : e = id
      · refine hq e (row.setStatus .queued) ?_ (Or.inl rfl)
        refine (hlook e).trans ?_
        rw [if_pos he, ← he, hl]
        rfl
      · refine hq e row ((hlook e).trans (by rw [if_neg he, hl])) ?_
        rcases hor with h | h
        · exact Or.inl h
        · exact Or.inr ((List.mem_cons.mp h).resolve_left he)

theorem run_sendingQueued (ids : List EvalId) : ∀ {w : World}, w.main = .sendingQueued ids →
    Run Survives w { w with
      main := .listBuilding, channel := w.channel ++ ids, sent := w.sent ++ ids } := by
  induction ids with
  | nil =>
    intro w hm
    refine .recover ?_
    simp [World.recover, hm]
  | cons id ids ih =>
    intro w hm
    have h₁ : w.recover = some { w.send id with main := .sendingQueued ids } := by
      simp [World.recover, hm]
    have := ih (w := { w.send id with main := .sendingQueued ids }) rfl
    simp only [World.send, List.append_assoc, List.singleton_append] at this h₁
    exact (Run.recover h₁).trans this

theorem run_requeueing (ids : List EvalId) : ∀ {w : World}, w.main = .requeueing ids →
    ∃ w', Run Survives w w' ∧ w'.sent = w.sent ++ ids := by
  induction ids with
  | nil => exact fun {w} _ => ⟨w, .refl, by simp⟩
  | cons id ids ih =>
    intro w hm
    have h₁ : w.recover = some { w.update id (·.requeueInterrupted) with
        main := .sendingBuilding id ids } := by simp [World.recover, hm]
    have h₂ : World.recover { w.update id (·.requeueInterrupted) with
        main := .sendingBuilding id ids }
        = some { (w.update id (·.requeueInterrupted)).send id with main := .requeueing ids } := rfl
    obtain ⟨w', hrun, hsent⟩ := ih
      (w := { (w.update id (·.requeueInterrupted)).send id with main := .requeueing ids }) rfl
    refine ⟨w', (Run.recover h₁).trans ((Run.recover h₂).trans hrun), ?_⟩
    rw [hsent]
    simp [World.send, World.update]

theorem two_le_count {e : EvalId} {l l' : List EvalId} (h : e ∈ l) (h' : e ∈ l') :
    2 ≤ (l ++ l').count e := by
  rw [List.count_append]
  have := List.count_pos_iff.mpr h
  have := List.count_pos_iff.mpr h'
  omega

/-- The first pass resets and sends; the second finds the same row in `queued`. -/
theorem sent_twice_of_evaluating {evals : HashMap EvalId EvalRow} {e : EvalId} {row : EvalRow}
    (hl : evals.lookup e = some row) (hst : row.status = .evaluating) :
    ∃ w, Run Survives (booted evals) w ∧ 2 ≤ w.sent.count e := by
  have hl₀ : (booted evals).evals.lookup e = some row.markRunningInterrupted := by
    rw [lookup_booted, hl]
    rfl
  have hlisted : e ∈ (booted evals).idsWith .evaluating := World.mem_idsWith.mpr ⟨_, hl₀, hst⟩
  have h₀ : (booted evals).recover = some { booted evals with
      main := .resetting ((booted evals).idsWith .evaluating) } := rfl
  obtain ⟨w₁, hrun₁, hm₁, hsent₁, hq₁⟩ := run_resetting ((booted evals).idsWith .evaluating)
    (w := { booted evals with main := .resetting ((booted evals).idsWith .evaluating) }) rfl
    fun e he => by
      obtain ⟨row, hl, -⟩ := World.mem_idsWith.mp he
      exact Option.isSome_iff_exists.mpr ⟨row, hl⟩
  obtain ⟨row₁, hl₁, hst₁⟩ := hq₁ e _ hl₀ (Or.inr hlisted)
  have h₂ : w₁.recover = some { w₁ with main := .sendingQueued (w₁.idsWith .queued) } := by
    simp [World.recover, hm₁]
  refine ⟨_, (Run.recover h₀).trans (hrun₁.trans ((Run.recover h₂).trans
    (run_sendingQueued (w₁.idsWith .queued) rfl))), ?_⟩
  show 2 ≤ (w₁.sent ++ w₁.idsWith .queued).count e
  rw [hsent₁]
  exact two_le_count hlisted (World.mem_idsWith.mpr ⟨row₁, hl₁, hst₁⟩)

/-- The worker takes the first queued evaluation to `building` before the third pass lists. -/
theorem sent_twice_of_queued {evals : HashMap EvalId EvalRow}
    (hnone : ∀ e row, evals.lookup e = some row → row.status ≠ .evaluating)
    {e : EvalId} {row : EvalRow} (hl : evals.lookup e = some row) (hst : row.status = .queued) :
    ∃ w e, Run Survives (booted evals) w ∧ 2 ≤ w.sent.count e := by
  have hlisted : e ∈ (booted evals).idsWith .queued :=
    World.mem_idsWith.mpr ⟨row.markRunningInterrupted, by rw [lookup_booted, hl]; rfl, hst⟩
  cases hids : (booted evals).idsWith .queued with
  | nil => exact absurd (hids ▸ hlisted) (by simp)
  | cons q ids =>
    have hq : q ∈ (booted evals).idsWith .queued := by simp [hids]
    obtain ⟨rowq, hlq, hstq⟩ := World.mem_idsWith.mp hq
    -- the first pass has nothing to do
    have hrun₁ : Run Survives (booted evals) { booted evals with main := .listQueued } := by
      have hnil := (Silent.start evals).idsWith_eq_nil hnone
      have h₀ : (booted evals).recover = some { booted evals with main := .resetting [] } := by
        rw [← hnil]
        rfl
      exact (Run.recover h₀).trans (.recover rfl)
    have h₂ : World.recover { booted evals with main := .listQueued }
        = some { booted evals with main := .sendingQueued (q :: ids) } := by
      rw [← hids]
      rfl
    have hrun₃ := run_sendingQueued (q :: ids)
      (w := { booted evals with main := .sendingQueued (q :: ids) }) rfl
    -- the worker evaluates `q`
    let w₃ : World := { booted evals with
      main := .listBuilding, channel := q :: ids, sent := q :: ids }
    let w₄ : World := { w₃ with channel := ids, worker := .picked q }
    have h₄ : Does w₃ .receive w₄ := .act rfl
    let w₅ : World := { w₄.update q (·.start .evaluating) with worker := .evaluating q }
    have h₅ : Does w₄ .read w₅ := by
      have hread : ∀ w : World, w.evals.lookup q = some rowq → w.cancel = false →
          w.read q = { w.update q (·.start .evaluating) with worker := .evaluating q } := by
        intro w hl hc
        simp [World.read, hl, hc, hstq]
      exact .act (congrArg some (hread w₄ hlq rfl))
    let w₆ : World := { w₅.update q (·.markBuilding) with worker := .persisting q [] [] }
    have h₆ : Does w₅ (.evaluated []) w₆ := .act rfl
    have hbuilding : q ∈ w₆.idsWith .building := by
      refine World.mem_idsWith.mpr ⟨(rowq.start .evaluating).markBuilding, ?_, ?_⟩
      · show ((w₅.update q (·.markBuilding)).evals).lookup q = _
        rw [w₅.lookup_update, if_pos rfl]
        show (((w₄.update q (·.start .evaluating)).evals).lookup q).map _ = _
        rw [w₄.lookup_update, if_pos rfl]
        show ((((booted evals).evals).lookup q).map _).map _ = _
        rw [hlq]
        rfl
      · simp [EvalRow.start, EvalRow.markBuilding, EvalRow.status_guardedStatus, hstq,
          EvalStatus.isTerminal]
    -- and the third pass lists it
    have h₇ : w₆.recover = some { w₆ with main := .requeueing (w₆.idsWith .building) } := rfl
    obtain ⟨w₈, hrun₈, hsent₈⟩ := run_requeueing (w₆.idsWith .building)
      (w := { w₆ with main := .requeueing (w₆.idsWith .building) }) rfl
    refine ⟨w₈, q, ?_, ?_⟩
    · refine hrun₁.trans ((Run.recover h₂).trans (hrun₃.trans ?_))
      exact (Run.step (.step (.step .refl (by simp [Survives]) h₄) (by simp [Survives]) h₅)
        (by simp [Survives]) h₆).trans ((Run.recover h₇).trans hrun₈)
    · rw [hsent₈]
      exact two_le_count (l := q :: ids) (by simp) hbuilding

/-- **Which databases are safe at boot.** Recovery hands every evaluation over exactly once, in
    every interleaving with the worker, if and only if the crash left none in `queued` or
    `evaluating`. -/
theorem handsOnce_iff (evals : HashMap EvalId EvalRow) : HandsOnce evals ↔ OnlyBuilding evals := by
  refine ⟨fun h => ?_, OnlyBuilding.handsOnce⟩
  have hne : ∀ e row, evals.lookup e = some row → row.status ≠ .evaluating := by
    intro e row hl hst
    obtain ⟨w, hrun, htwo⟩ := sent_twice_of_evaluating hl hst
    have := (h w hrun).once e
    omega
  refine fun e row hl => ⟨fun hst => ?_, hne e row hl⟩
  obtain ⟨w, e', hrun, htwo⟩ := sent_twice_of_queued hne hl hst
  have := (h w hrun).once e'
  omega

/-! ## Two build phases of one evaluation -/

instance (w : World) (a : Action) : Decidable (Survives w a) :=
  match a with
  | .crash => isFalse fun h => h rfl
  | .boot | .recover | .submit .. | .supersede _ | .fire | .receive | .read | .abandon | .fail
  | .evaluated _ | .createRow _ | .describe | .conclude | .persisted | .load | .spawn _
  | .phase .. => isTrue (by simp [Survives])

/-- A crash fell into the evaluation of evaluation 1. -/
def evaluatingAtBoot : HashMap EvalId EvalRow :=
  AList.insert ⟨1⟩ { repoId := ⟨1⟩, status := .evaluating, jobs := ∅ } ∅

/-- All three passes, then the worker: it evaluates, persists one Job, and spawns the build phase;
    then it takes the second message and resumes. -/
def handedTwice : List Action :=
  [.recover, .recover, .recover, .recover, .recover, .recover, .recover, .recover, .recover,
    .receive, .read, .evaluated [specOf "a"], .createRow ⟨1⟩, .describe, .conclude, .persisted,
    .spawn noWalk,
    .receive, .read, .load, .spawn noWalk]

theorem two_phases :
    ((booted evaluatingAtBoot).script Survives handedTwice).map
        (fun w => w.phases.map fun x => (x.1, x.2.pc, x.2.specsById))
      = some [(⟨1⟩, .top, [(specOf "a", ⟨1⟩)]), (⟨1⟩, .top, [(specOf "a", ⟨1⟩)])] := by
  decide

theorem not_handsOnce_evaluating : ¬ HandsOnce evaluatingAtBoot := by
  intro h
  obtain ⟨w, hscript, hphases⟩ := Option.map_eq_some_iff.mp two_phases
  have hsingle := (h w (.of_script hscript)).single ⟨1⟩
  have hboth : ∀ x ∈ w.phases, x.1 = ⟨1⟩ ∧ x.2.pc ≠ .ended := by
    intro x hx
    have hmem := List.mem_map_of_mem (f := fun x => (x.1, x.2.pc, x.2.specsById)) hx
    rw [hphases] at hmem
    simp only [List.mem_cons, List.not_mem_nil, or_false, or_self, Prod.mk.injEq] at hmem
    exact ⟨hmem.1, by rw [hmem.2.1]; simp⟩
  rw [List.filter_eq_self.mpr fun x hx => by simpa using hboth x hx] at hsingle
  have hlen : w.phases.length = 2 := by simpa using congrArg List.length hphases
  omega

end Argunix.Daemon
