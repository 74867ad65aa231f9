import Argunix.Daemon.Boot
import Argunix.Daemon.Honest

/-!
# Where a message is, and what is final

An evaluation is listed by a pass of `main`, sent, received, and ends in a build phase. Sent once,
it is in one of these places at a time (`Mail`): it is not with the worker and in a phase, and it
has one phase. A crash empties all of them.

The rows do not forget. A statement reopens no Job that has a verdict (`OpenRow.of_updateJob`), a
terminal evaluation is brought back by the reset of the first pass alone, and only a build phase
writes `done` (`Acts.evalStatus`).
-/

set_option autoImplicit false

namespace Argunix.Daemon

open Argunix.Lib Argunix.Sched Argunix.Sched.DagStrategy Argunix.Eval Argunix.Store

/-! ## What `main` has listed -/

/-- Listed and not sent yet. -/
def MainPc.toSend : MainPc → List EvalId
  | resetting ids | sendingQueued ids | requeueing ids => ids
  | sendingReset e ids | sendingBuilding e ids => e :: ids
  | down | listEvaluating | listQueued | listBuilding | serving => []

/-- What a statement of the passes does to the messages: it sends one that is listed, or none, or
    it lists. The third pass stays the third pass. -/
inductive Mails (w w' : World) : Prop
  | sends {e : EvalId} : w'.channel = w.channel ++ [e] → w'.sent = w.sent ++ [e] →
      w'.held = (w.send e).held → w.main.toSend = e :: w'.main.toSend → Mails w w'
  | keeps : w'.channel = w.channel → w'.sent = w.sent → w'.held = w.held →
      w'.main.toSend = w.main.toSend → Mails w w'
  | lists {status : EvalStatus} : w'.channel = w.channel → w'.sent = w.sent → w'.held = w.held →
      w'.main.toSend = w.idsWith status →
      status = .evaluating ∨ status = .queued ∨
        (status = .building ∧ w'.main.toResume.isSome = true) → Mails w w'

theorem World.recover_mails {w w' : World} (h : w.recover = some w') :
    Mails w w' ∧ w'.main ≠ .down ∧
      (w.main.toResume.isSome = true → w'.main.toResume.isSome = true) := by
  unfold World.recover at h
  split at h <;> rename_i hm <;> simp only [Option.some.injEq, reduceCtorEq] at h <;> subst h <;>
    rw [hm]
  case h_1 => exact ⟨.lists rfl rfl rfl rfl (Or.inl rfl), by simp, by simp [MainPc.toResume]⟩
  case h_5 =>
    exact ⟨.lists rfl rfl rfl rfl (Or.inr (Or.inl rfl)), by simp, by simp [MainPc.toResume]⟩
  case h_8 =>
    refine ⟨.lists rfl rfl rfl rfl (Or.inr (Or.inr ⟨rfl, rfl⟩)), by simp, fun _ => rfl⟩
  case h_4 | h_7 | h_11 =>
    exact ⟨.sends rfl rfl rfl (by rw [hm]; rfl), by simp, fun hlate => hlate⟩
  case h_2 | h_3 | h_6 | h_9 | h_10 =>
    exact ⟨.keeps rfl rfl rfl (by rw [hm]; rfl), by simp, fun hlate => hlate⟩

/-! ## Messages -/

/-- An evaluation is in as many places as it was sent to, and nowhere while the daemon is down. -/
structure Mail (e : EvalId) (w : World) : Prop where
  held : w.held e ≤ w.sent.count e
  down : w.main = .down → w.worker = .idle ∧ w.phases = [] ∧ w.channel = []

namespace Mail

variable {e : EvalId} {w w' : World} {a : Action}

theorem start (evals : HashMap EvalId EvalRow) (e : EvalId) : Mail e (World.down evals) :=
  ⟨by simp [World.held, World.down, WorkerPc.evalId], fun _ => ⟨rfl, rfl, rfl⟩⟩

theorem recover (h : Mail e w) (hr : w.recover = some w') : Mail e w' := by
  obtain ⟨hmails, hup, -⟩ := World.recover_mails hr
  refine ⟨?_, fun hm => absurd hm hup⟩
  cases hmails with
  | sends _ hsent hheld _ =>
    rw [hheld, hsent, World.held_send, List.count_append]
    exact Nat.add_le_add_right h.held _
  | keeps _ hsent hheld _ | lists _ hsent hheld _ _ =>
    rw [hheld, hsent]
    exact h.held

theorem step (h : Mail e w) (hd : Acts w a w') : Mail e w' := by
  have hd₀ := hd
  by_cases hm : w.main = .down
  · -- a daemon that is down can only boot
    obtain ⟨hw, hp, hc⟩ := h.down hm
    have hidle : ∀ e', w.worker.evalId ≠ some e' := by simp [hw, WorkerPc.evalId]
    cases hd with
    | boot => exact ⟨h.held, fun hm' => absurd hm' (by simp)⟩
    | recover hr =>
      rw [World.recover, hm] at hr
      exact absurd hr (by simp)
    | submit hs | supersede hs | fire _ _ hs => exact absurd (hm.symm.trans hs) (by simp)
    | receive _ hch => exact absurd (hc.symm.trans hch) (by simp)
    | dropped hw' | resumed hw' | load hw' | persisted hw' | started hw' | abandon hw'
    | evaluated _ hw' | createRow hw' | describe hw' | conclude hw' | spawn hw' =>
      exact absurd (hw.symm.trans hw') (by simp)
    | fail hw' => exact absurd hw' (hidle _)
    | phase hi => exact absurd hi (by simp [hp])
    | crash hup => exact absurd hm hup
  · by_cases hcrash : a = .crash
    · subst hcrash
      cases hd with
      | crash => exact .start w.evals e
    · rcases hd₀.movesOn hcrash hm with hr | ⟨e', repoId, hs, -, rfl⟩ | hmove
      · exact h.recover hr
      · refine ⟨?_, fun hm' => absurd hm' hm⟩
        rw [World.held_send]
        show w.held e + _ ≤ (w.sent ++ [e']).count e
        rw [List.count_append]
        exact Nat.add_le_add_right h.held _
      · refine ⟨?_, fun hm' => absurd (hmove.main ▸ hm') hm⟩
        rw [hmove.sent]
        exact (hmove.held e).trans h.held

/-- Sent once, it is in one place. -/
theorem alone (h : Mail e w) (hw : w.worker.evalId = some e) (honce : w.sent.count e ≤ 1) :
    e ∉ w.phases.map Prod.fst := by
  intro hp
  have hpos := List.count_pos_iff.mpr hp
  have := h.held
  unfold World.held at this
  rw [if_pos hw] at this
  omega

/-- What was not sent is nowhere. -/
theorem nowhere (h : Mail e w) (hnot : e ∉ w.sent) :
    w.worker.evalId ≠ some e ∧ e ∉ w.phases.map Prod.fst := by
  have hzero : w.held e = 0 := Nat.le_zero.mp (h.held.trans (List.count_eq_zero.mpr hnot).le)
  unfold World.held at hzero
  refine ⟨fun hw => ?_, fun hp => ?_⟩
  · rw [if_pos hw] at hzero
    omega
  · have hpos := List.count_pos_iff.mpr hp
    omega

/-- In the channel it is in no phase. -/
theorem waiting (h : Mail e w) (hc : e ∈ w.channel) (honce : w.sent.count e ≤ 1) :
    e ∉ w.phases.map Prod.fst := by
  intro hp
  have hpos := List.count_pos_iff.mpr hp
  have hpos' := List.count_pos_iff.mpr hc
  have := h.held
  unfold World.held at this
  omega

/-- With the worker or in a phase, it was sent. -/
theorem sent_of_worker (h : Mail e w) (hw : w.worker.evalId = some e) : e ∈ w.sent := by
  by_contra hnot
  exact (h.nowhere hnot).1 hw

theorem sent_of_phase (h : Mail e w) (hp : e ∈ w.phases.map Prod.fst) : e ∈ w.sent := by
  by_contra hnot
  exact (h.nowhere hnot).2 hp

/-- Sent once, it has one phase. -/
theorem one_phase (h : Mail e w) (honce : w.sent.count e ≤ 1) {p p' : Phase}
    (hp : (e, p) ∈ w.phases) (hp' : (e, p') ∈ w.phases) : p = p' := by
  have hcount : (w.phases.map Prod.fst).count e ≤ 1 := by
    have := h.held
    unfold World.held at this
    omega
  generalize w.phases = phases at hp hp' hcount
  induction phases with
  | nil => exact absurd hp (by simp)
  | cons x rest ih =>
    rw [List.map_cons, List.count_cons] at hcount
    by_cases hx : x.1 = e
    · rw [if_pos (by simpa using hx)] at hcount
      have hrest : ∀ q, (e, q) ∉ rest := by
        intro q hq
        have hmem : e ∈ rest.map Prod.fst := List.mem_map.mpr ⟨(e, q), hq, rfl⟩
        have hpos := List.count_pos_iff.mpr hmem
        omega
      have hfirst : ∀ q, (e, q) ∈ x :: rest → (e, q) = x := fun q hq =>
        (List.mem_cons.mp hq).resolve_right (hrest q)
      exact congrArg Prod.snd ((hfirst p hp).trans (hfirst p' hp').symm)
    · have htail : ∀ q, (e, q) ∈ x :: rest → (e, q) ∈ rest := fun q hq =>
        (List.mem_cons.mp hq).resolve_left fun heq => hx (congrArg Prod.fst heq.symm)
      exact ih (htail p hp) (htail p' hp') (by omega)

end Mail

/-- A message in the channel was there, or was listed, or is of a new evaluation. -/
theorem Acts.channel {w w' : World} {a : Action} (hd : Acts w a w') {e : EvalId}
    (h : e ∈ w'.channel) :
    e ∈ w.channel ∨ e ∈ w.main.toSend ∨ w.evals.lookup e = none := by
  cases hd with
  | @submit e' repoId hs hnone =>
    rcases List.mem_append.mp h with h | h
    · exact Or.inl h
    · obtain rfl := List.mem_singleton.mp h
      exact Or.inr (Or.inr hnone)
  | receive hw hc => exact Or.inl (by rw [hc]; exact List.mem_cons_of_mem _ h)
  | crash => exact absurd h (by simp [World.down])
  | recover hr =>
    cases (World.recover_mails hr).1 with
    | sends hch _ _ hlist =>
      rw [hch] at h
      refine (List.mem_append.mp h).imp_right fun h => Or.inl ?_
      rw [List.mem_singleton.mp h, hlist]
      exact List.mem_cons_self
    | keeps hch | lists hch => exact Or.inl (hch ▸ h)
  | boot | supersede | fire | dropped | resumed | started | abandon | fail | evaluated | createRow
  | describe | conclude | persisted | load | spawn | phase => exact Or.inl h

/-- What was sent stays sent until a crash. -/
theorem Acts.sent {w w' : World} {a : Action} (hd : Acts w a w') (hup : w'.main ≠ .down) :
    w.sent ⊆ w'.sent := by
  cases hd with
  | crash => exact absurd rfl hup
  | submit => exact List.subset_append_left _ _
  | recover hr =>
    cases (World.recover_mails hr).1 with
    | sends _ hsent => exact hsent ▸ List.subset_append_left _ _
    | keeps _ hsent | lists _ hsent => exact hsent ▸ List.Subset.refl _
  | boot | supersede | fire | receive | dropped | resumed | started | abandon | fail | evaluated
  | createRow | describe | conclude | persisted | load | spawn | phase => exact List.Subset.refl _

/-- What is listed was listed before, or has the status the pass looks for. -/
theorem Acts.toSend {w w' : World} {a : Action} (hd : Acts w a w') {e : EvalId}
    (h : e ∈ w'.main.toSend) :
    (e ∈ w.main.toSend ∧ (w.main.toResume.isSome = true → w'.main.toResume.isSome = true)) ∨
      ∃ row, w.evals.lookup e = some row ∧ (row.status = .evaluating ∨ row.status = .queued ∨
        (row.status = .building ∧ w'.main.toResume.isSome = true)) := by
  cases hd with
  | boot | crash => exact absurd h (by simp [World.down, MainPc.toSend])
  | recover hr =>
    obtain ⟨hmails, -, hlate⟩ := World.recover_mails hr
    cases hmails with
    | sends _ _ _ hlist => exact Or.inl ⟨hlist ▸ List.mem_cons_of_mem _ h, hlate⟩
    | keeps _ _ _ hlist => exact Or.inl ⟨hlist ▸ h, hlate⟩
    | @lists status _ _ _ hlist hstatus =>
      rw [hlist] at h
      obtain ⟨row, hl, rfl⟩ := World.mem_idsWith.mp h
      exact Or.inr ⟨row, hl, hstatus⟩
  | submit | supersede | fire | receive | dropped | resumed | started | abandon | fail | evaluated
  | createRow | describe | conclude | persisted | load | spawn | phase =>
    exact Or.inl ⟨h, fun hlate => hlate⟩

/-! ## What is final -/

section Final

variable {row row' : EvalRow} {j j₀ : JobId} {f : JobStatus → JobStatus}

/-- A guarded statement reopens nothing. -/
theorem OpenRow.of_updateJob (hf : ∀ s, s.isTerminal = true → f s = s)
    (h : OpenRow (row.updateJob j₀ f) j) : OpenRow row j := by
  obtain ⟨s, hs, hopen⟩ := h
  rw [EvalRow.jobStatus_updateJob] at hs
  split at hs
  · rename_i hj
    obtain ⟨old, hold, rfl⟩ := Option.map_eq_some_iff.mp hs
    refine ⟨old, hj ▸ hold, ?_⟩
    by_contra hterm
    rw [hf old (by simpa using hterm)] at hopen
    exact hterm hopen
  · exact ⟨s, hs, hopen⟩

theorem OpenRow.of_updateJobs (hf : ∀ s, s.isTerminal = true → f s = s)
    (h : OpenRow (row.updateJobs f) j) : OpenRow row j := by
  obtain ⟨s, hs, hopen⟩ := h
  rw [EvalRow.jobStatus_updateJobs] at hs
  obtain ⟨old, hold, rfl⟩ := Option.map_eq_some_iff.mp hs
  refine ⟨old, hold, ?_⟩
  by_contra hterm
  rw [hf old (by simpa using hterm)] at hopen
  exact hterm hopen

theorem OpenRow.of_jobs (heq : row'.jobs = row.jobs) (h : OpenRow row' j) : OpenRow row j := by
  unfold OpenRow EvalRow.jobStatus at h ⊢
  rwa [heq] at h

theorem OpenRow.of_finishJob {status : JobStatus} (h : OpenRow (row.finishJob j₀ status) j) :
    OpenRow row j :=
  OpenRow.of_updateJob (fun _ hs => firstVerdict_of_terminal hs) h

theorem OpenRow.of_interrupt (s : JobStatus) (hs : s.isTerminal = true) :
    (if s = .running then JobStatus.interrupted else s) = s := by
  rw [if_neg]
  rintro rfl
  exact absurd hs (by decide)

theorem OpenRow.of_requeue (s : JobStatus) (hs : s.isTerminal = true) :
    (if s = .interrupted then JobStatus.queued else s) = s := by
  rw [if_neg]
  rintro rfl
  exact absurd hs (by decide)

/-- A terminal verdict closes a row for good. -/
theorem not_openRow_finishJob {status : JobStatus} (hs : status.isTerminal = true) (row : EvalRow)
    (j : JobId) : ¬ OpenRow (row.finishJob j status) j := by
  rintro ⟨s, hrow, hopen⟩
  rw [EvalRow.finishJob, EvalRow.jobStatus_updateJob, if_pos rfl] at hrow
  obtain ⟨old, -, rfl⟩ := Option.map_eq_some_iff.mp hrow
  unfold firstVerdict at hopen
  split at hopen
  · rename_i hold
    exact absurd (hold.symm.trans hopen) (by simp)
  · exact absurd (hs.symm.trans hopen) (by simp)

/-- A phase reopens nothing. -/
theorem PhaseActs.openRow {e : EvalId} {p p' : Phase} {a : PhaseAct}
    (h : PhaseActs e row p a row' p') (hopen : OpenRow row' j) : OpenRow row j := by
  have happly : ∀ (x : Effect) (known : Bool) (tally : JobTally),
      OpenRow (x.apply known row tally).1 j → OpenRow row j := by
    intro x known tally hx
    cases x with
    | skip | mirror =>
      cases known with
      | true => exact OpenRow.of_finishJob hx
      | false => exact hx
    | count => exact hx
  cases h with
  | settle | skip => exact happly _ _ _ hopen
  | finish | supersede => exact OpenRow.of_jobs (EvalRow.jobs_guardedStatus _ _) hopen
  | @build _ _ _ _ _ write =>
    cases write with
    | none => exact hopen
    | some r =>
      cases r <;> exact OpenRow.of_updateJob (fun _ hs => firstVerdict_of_terminal hs) hopen
  | dropGuard => exact OpenRow.of_updateJob OpenRow.of_interrupt hopen
  | look | noPermit | idle | spawned | check | wake | abort | polled | join | permit | sleep
  | settled | aborted | drain | drained | post | fire => exact hopen

/-- What a phase does to the status of its evaluation. -/
theorem PhaseActs.status {e : EvalId} {p p' : Phase} {a : PhaseAct}
    (h : PhaseActs e row p a row' p') :
    row'.status = row.status ∨ row' = row.finish .cancelled ∨
      ∃ status, p.pc = .finishing status ∧ row' = row.finish status := by
  have happly : ∀ (x : Effect) (known : Bool) (tally : JobTally),
      (x.apply known row tally).1.status = row.status := by
    intro x known tally
    cases x <;> cases known <;> rfl
  cases h with
  | settle | skip => exact Or.inl (happly _ _ _)
  | finish hpc => exact Or.inr (Or.inr ⟨_, hpc, rfl⟩)
  | supersede => exact Or.inr (Or.inl rfl)
  | @build _ _ _ _ _ write =>
    cases write with
    | none => exact Or.inl rfl
    | some r => cases r <;> exact Or.inl rfl
  | look | noPermit | idle | spawned | check | wake | abort | polled | join | permit | sleep
  | settled | aborted | drain | drained | post | dropGuard | fire => exact Or.inl rfl

theorem PhaseActs.status_of_terminal {e : EvalId} {p p' : Phase} {a : PhaseAct}
    (h : PhaseActs e row p a row' p') (ht : row.status.isTerminal = true) :
    row'.status = row.status := by
  rcases h.status with hst | rfl | ⟨status, -, rfl⟩
  · exact hst
  · exact congrArg EvalRow.status (EvalRow.guardedStatus_of_terminal ht)
  · exact congrArg EvalRow.status (EvalRow.guardedStatus_of_terminal ht)

/-- A token fires once the evaluation is terminal. -/
theorem PhaseActs.cancel_eq {e : EvalId} {p p' : Phase} {a : PhaseAct}
    (h : PhaseActs e row p a row' p') (hopen : row.status.isTerminal = false) :
    p'.cancel = p.cancel := by
  cases h with
  | fire hterm => exact absurd (hopen.symm.trans hterm) (by simp)
  | look | noPermit | idle | spawned | check | wake | abort | polled | join | permit | sleep
  | settled | settle | aborted | skip | drain | drained | finish | post | build | dropGuard
  | supersede => rfl

end Final

/-! ## What becomes of the evaluation -/

/-- It will not be done. -/
def Gone (row : EvalRow) : Prop := row.status = .cancelled ∨ row.status = .evaluationFailed

namespace Gone

variable {row row' : EvalRow}

theorem terminal (h : Gone row) : row.status.isTerminal = true := by
  rcases h with h | h <;> rw [h] <;> rfl

/-- An open evaluation that is given up. -/
theorem of_open {status : EvalStatus} (hopen : row.status.isTerminal = false)
    (hs : status = .cancelled ∨ status = .evaluationFailed) : Gone (row.guardedStatus status) := by
  unfold Gone
  rw [EvalRow.status_guardedStatus, if_neg (by simp [hopen])]
  exact hs

end Gone

/-- One statement, on one evaluation, seen from another or the same one. -/
theorem World.exists_lookup_update {w w' : World} {e e' : EvalId} {f : EvalRow → EvalRow}
    {row : EvalRow} {P : EvalRow → Prop} (h : w'.evals = (w.update e' f).evals)
    (hl : w.evals.lookup e = some row) (hP : P row) (hf : e = e' → P (f row)) :
    ∃ row', w'.evals.lookup e = some row' ∧ P row' := by
  rw [h, World.lookup_update]
  split
  · rename_i heq
    subst heq
    exact ⟨f row, by rw [hl]; rfl, hf rfl⟩
  · exact ⟨row, hl, hP⟩

/-- What an action can do to the status: nothing to a terminal one, but for the reset of the first
    pass, and only a phase writes `done`. -/
theorem Acts.evalStatus {w w' : World} {a : Action} (hd : Acts w a w') {e : EvalId} {row : EvalRow}
    (hl : w.evals.lookup e = some row) :
    ∃ row', w'.evals.lookup e = some row' ∧
      (row'.status = row.status ∨ (∃ ids, w.main = .resetting (e :: ids)) ∨
        (row.status.isTerminal = false ∧
          (row'.status = .done → e ∈ w.phases.map Prod.fst))) := by
  have hsame : row.status = row.status ∨ (∃ ids, w.main = .resetting (e :: ids)) ∨
      (row.status.isTerminal = false ∧ (row.status = .done → e ∈ w.phases.map Prod.fst)) :=
    Or.inl rfl
  have hguarded : ∀ status, status ≠ .done → (row.guardedStatus status).status = row.status ∨
      (∃ ids, w.main = .resetting (e :: ids)) ∨ (row.status.isTerminal = false ∧
        ((row.guardedStatus status).status = .done → e ∈ w.phases.map Prod.fst)) := by
    intro status hne
    rw [EvalRow.status_guardedStatus]
    cases ht : row.status.isTerminal with
    | true => exact Or.inl rfl
    | false => exact Or.inr (Or.inr ⟨rfl, fun hdone => absurd hdone hne⟩)
  cases hd with
  | boot =>
    exact ⟨row.markRunningInterrupted,
      (HashMap.lookup_mapValues _ e w.evals).trans (by rw [hl]; rfl), hsame⟩
  | recover hr =>
    obtain ⟨-, -, -, hrows | ⟨e', ids, hm, hrows⟩ | ⟨e', ids, -, hrows⟩⟩ := World.recover_rows hr
    · exact ⟨row, by rw [hrows, hl], hsame⟩
    · exact World.exists_lookup_update hrows hl hsame fun heq => Or.inr (Or.inl ⟨ids, heq ▸ hm⟩)
    · exact World.exists_lookup_update hrows hl hsame fun _ => hsame
  | @submit e' repoId hm hnone =>
    have hne : e ≠ e' := by
      rintro rfl
      exact absurd (hnone.symm.trans hl) (by simp)
    exact ⟨row, (HashMap.lookup_insert_eq e' e _ w.evals).trans (by rw [if_neg hne, hl]), hsame⟩
  | supersede | abandon =>
    exact World.exists_lookup_update (f := (·.finish .cancelled)) rfl hl hsame fun _ =>
      hguarded _ (by simp)
  | fail =>
    exact World.exists_lookup_update (f := (·.failWithReason)) rfl hl hsame fun _ =>
      hguarded _ (by simp)
  | evaluated =>
    exact World.exists_lookup_update (f := (·.markBuilding)) rfl hl hsame fun _ =>
      hguarded _ (by simp)
  | started =>
    exact World.exists_lookup_update (f := (·.start .evaluating)) rfl hl hsame fun _ =>
      hguarded _ (by simp)
  | @createRow _ spec _ _ _ jobId =>
    exact World.exists_lookup_update
      (f := (·.createJob jobId spec.attrPath spec.drvPath (systemColumn spec))) rfl hl hsame
      fun _ => hsame
  | @describe _ spec jobId =>
    exact World.exists_lookup_update (f := (·.setSpecJson jobId spec)) rfl hl hsame fun _ => hsame
  | @conclude _ spec jobId =>
    refine World.exists_lookup_update
      (f := fun row => if spec.error.isSome then row.finishJob jobId .failure else row) rfl hl
      hsame fun _ => ?_
    split <;> exact hsame
  | @phase i e' p p' row₀ row' b hi hl' _ hs =>
    obtain ⟨s, -, hact⟩ := hs.acts
    refine World.exists_lookup_update rfl hl hsame fun heq => ?_
    subst heq
    obtain rfl : row = row₀ := Option.some.inj (hl.symm.trans hl')
    have hphase : e ∈ w.phases.map Prod.fst :=
      List.mem_map.mpr ⟨_, List.mem_of_getElem? hi, rfl⟩
    cases ht : row.status.isTerminal with
    | true => exact Or.inl (hact.status_of_terminal ht)
    | false => exact Or.inr (Or.inr ⟨rfl, fun _ => hphase⟩)
  | fire | receive | dropped | resumed | persisted | load | spawn | crash => exact ⟨row, hl, hsame⟩

/-- Only the reset of the first pass brings an evaluation back. -/
theorem Acts.gone {w w' : World} {a : Action} (hd : Acts w a w') {e : EvalId} {row : EvalRow}
    (hl : w.evals.lookup e = some row) (h : Gone row)
    (hlate : e ∈ w.main.toSend → w.main.toResume.isSome = true) :
    ∃ row', w'.evals.lookup e = some row' ∧ Gone row' := by
  obtain ⟨row', hl', hst | ⟨ids, hm⟩ | ⟨hopen, -⟩⟩ := hd.evalStatus hl
  · refine ⟨row', hl', ?_⟩
    unfold Gone
    rwa [hst]
  · have := hlate (by rw [hm]; exact List.mem_cons_self)
    rw [hm] at this
    exact absurd this (by simp [MainPc.toResume])
  · exact absurd (h.terminal.symm.trans hopen) (by simp)

end Argunix.Daemon
