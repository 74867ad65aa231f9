import Argunix.Sched.Sweep
import Argunix.Daemon.Loop

/-!
# The cancel arm of the loop

Once the `select!` sees the token, the loop drops what its strategy still has queued, writes a row
for every Job it is told, and waits for the tasks of the set. From here on nothing is dispatched:
the set only shrinks.

* `Looping.aborts`: the Jobs that are told are those whose Step is neither closed nor being built.
* `Winding`: the tasks left are for different Jobs, and none of them for one that is told.

`PhaseRun` is a run of one phase with its rows, the webhooks included; what is said of a phase is
said of these runs.
-/

set_option autoImplicit false

namespace Argunix.Daemon

open Argunix.Lib Argunix.Sched Argunix.Sched.DagStrategy Argunix.Eval Argunix.Store

/-! ## Runs of one phase -/

/-- A run of the phase of `e` whose every action satisfies `ok` in the phase before it. -/
inductive PhaseRun (ok : Phase → PhaseAct → Prop) (e : EvalId) (row₀ : EvalRow) (p₀ : Phase) :
    EvalRow → Phase → Prop
  | refl : PhaseRun ok e row₀ p₀ row₀ p₀
  | step {row row' : EvalRow} {p p' : Phase} {a : PhaseAct} : PhaseRun ok e row₀ p₀ row p →
      ok p a → PhaseStep e row p a row' p' → PhaseRun ok e row₀ p₀ row' p'

theorem PhaseRun.trans {ok : Phase → PhaseAct → Prop} {e : EvalId} {row₀ row₁ row₂ : EvalRow}
    {p₀ p₁ p₂ : Phase} (h : PhaseRun ok e row₀ p₀ row₁ p₁) (h' : PhaseRun ok e row₁ p₁ row₂ p₂) :
    PhaseRun ok e row₀ p₀ row₂ p₂ := by
  induction h' with
  | refl => exact h
  | step _ hok hs ih => exact .step ih hok hs

/-- What a phase of `e` is spawned with: Jobs with different rows, and a strategy loaded with
    those that have a derivation. -/
structure Opening (e : EvalId) (persisted : Persisted) (s : DagStrategy) : Prop where
  ids : (persisted.map Prod.snd).Nodup
  loaded : ∃ walk repoId, walk.Keyed ∧ Enqueued none (scheduleItems walk repoId e persisted) s

/-- A script of actions, with every hash map in the order it is stored. -/
def Phase.script (ok : Phase → PhaseAct → Prop) [∀ p a, Decidable (ok p a)] (e : EvalId) :
    EvalRow → Phase → List PhaseAct → Option (EvalRow × Phase)
  | row, p, [] => some (row, p)
  | row, p, a :: as =>
    if ok p a then (p.act e row a).bind fun r => script ok e r.1 r.2 as else none

theorem PhaseRun.of_script {ok : Phase → PhaseAct → Prop} [∀ p a, Decidable (ok p a)] {e : EvalId} :
    ∀ {as : List PhaseAct} {row row' : EvalRow} {p p' : Phase},
      p.script ok e row as = some (row', p') → PhaseRun ok e row p row' p'
  | [], row, row', p, p', h => by
    obtain ⟨rfl, rfl⟩ := Prod.mk.inj (Option.some.inj h)
    exact .refl
  | a :: as, row, row', p, p', h => by
    simp only [Phase.script] at h
    split at h
    · rename_i hok
      obtain ⟨⟨row₁, p₁⟩, hact, hrest⟩ := Option.bind_eq_some_iff.mp h
      have hstep : PhaseStep e row p a row₁ p₁ := ⟨p.session.strategy, .refl _, hact⟩
      exact (PhaseRun.step .refl hok hstep).trans (PhaseRun.of_script hrest)
    · exact absurd h (by simp)

/-! ## Which Jobs are told -/

/-- The strategy tracks Jobs of the phase only. -/
def Phase.Owned (items : List ScheduleItem) (p : Phase) : Prop :=
  ∀ j o, p.session.strategy.jobMeta.lookup j = some o → ∃ item ∈ items, item.jobId = j

namespace Looping

variable {items : List ScheduleItem} {p p' : Phase} {e : EvalId} {row row' : EvalRow}
  {a : PhaseAct}

theorem owned_start {s : DagStrategy} (henq : Enqueued none items s) (persisted : Persisted)
    (cancel : Bool) : (Phase.start persisted s cancel).Owned items := by
  intro j o ho
  obtain ⟨item, hi, hj, -⟩ := henq.loaded.owner j o ho
  exact ⟨item, hi, hj⟩

theorem owned_reorder {s : DagStrategy} (hs : Shuffle p.session.strategy s)
    (h : p.Owned items) : (p.reorder s).Owned items := by
  intro j o ho
  exact h j o ((hs.job j).symm.trans ho)

/-- Up to the cancel arm the strategy forgets no Job. -/
theorem owned_acts (h : Looping items p) (hown : p.Owned items)
    (hact : PhaseActs e row p a row' p') (halive : p'.pc.alive = true) : p'.Owned items := by
  have hb := h.draining.tracks.books
  cases hact with
  | idle hpc hd | spawned hpc hd =>
    intro j o ho
    rw [Session.record_strategy] at ho
    have hmeta := hb.jobMeta_dispatch
    rw [hd] at hmeta
    exact hown j o (hmeta ▸ ho)
  | abort | aborted | skip | drained => exact absurd halive (by simp [LoopPc.alive])
  | join hpc ht =>
    intro j o ho
    rw [Phase.joined_eq, Session.record_strategy, hb.jobMeta_complete] at ho
    exact hown j o ho
  | drain hpc ht =>
    rw [Phase.joined_eq] at halive
    exact absurd halive (by simp [hpc, LoopPc.alive])
  | look | noPermit | check | wake | polled | permit | sleep | settled | settle | finish | post
  | build | dropGuard | supersede | fire => exact hown

/-- A phase has its strategy to itself. -/
theorem oneEval (h : Looping items p) (hnd : (items.map (·.jobId)).Nodup) (hown : p.Owned items)
    (hev : ∀ item ∈ items, item.evalId = e) : OneEval e p.session.strategy := by
  have hjobs := @h.draining.jobs_of_lookup
  refine ⟨fun k st hl j hj => ?_, fun j ⟨r, hr⟩ => ?_, fun k k' st st' j hl hl' hj hj' => ?_⟩
  · obtain ⟨item, hi, -, rfl⟩ := mem_jobsAt_iff.mp (hjobs hl ▸ hj)
    exact ⟨item.repoId, by rw [h.draining.tracked item hi, hev item hi]⟩
  · obtain ⟨item, hi, rfl⟩ := hown j _ hr
    obtain ⟨st, hl⟩ := h.draining.present item hi
    exact ⟨_, st, hl, hjobs hl ▸ mem_jobsAt_iff.mpr ⟨item, hi, rfl, rfl⟩⟩
  · exact jobsAt_unique hnd (hjobs hl ▸ hj) (hjobs hl' ▸ hj')

/-- A Step is being built, closed, or waits. -/
theorem waits_iff (h : Looping items p) {k : String} {st : Step}
    (hl : p.session.strategy.byDrv.lookup k = some st) :
    st.waits = true ↔ st.state.isTerminal = false ∧ ∀ d ∈ p.session.inFlight, d.drvPath ≠ k := by
  have hb := h.draining.tracks.books
  have hrun : st.state = .running ↔ ∃ d ∈ p.session.inFlight, d.drvPath = k := by
    constructor
    · intro hst
      have htok : st.inFlightToken.isSome = true := by
        rw [hb.holds k st hl, hst]
        rfl
      obtain ⟨t, ht⟩ := Option.isSome_iff_exists.mp htok
      obtain ⟨d, hd, hk, -⟩ := (h.draining.tracks.runs k t).mp ⟨st, hl, hst, ht⟩
      exact ⟨d, hd, hk⟩
    · rintro ⟨d, hd, rfl⟩
      obtain ⟨st', hl', hst, -⟩ := h.running hd
      rw [hl, Option.some.injEq] at hl'
      exact hl' ▸ hst
  have hnot : (∀ d ∈ p.session.inFlight, d.drvPath ≠ k) ↔ st.state ≠ .running := by
    rw [Ne, hrun]
    push Not
    exact Iff.rfl
  rw [hnot, Step.waits_iff]
  cases st.state <;> simp [StepState.isTerminal]

/-- **The cancel arm tells the Jobs whose Step is neither closed nor being built.** -/
theorem aborts (h : Looping items p) (hnd : (items.map (·.jobId)).Nodup) (hown : p.Owned items)
    (hev : ∀ item ∈ items, item.evalId = e) (j : JobId) :
    (∃ x ∈ (p.session.strategy.cancelEval e).1, x.jobId = j) ↔
      ∃ item ∈ items, item.jobId = j ∧ ¬ p.Ended item ∧
        ∀ d ∈ p.session.inFlight, d.drvPath ≠ item.headDrv.drvPath := by
  rw [(h.oneEval hnd hown hev).cancelled_iff h.draining.tracks.books]
  constructor
  · rintro ⟨k, st, hl, hw, hj⟩
    obtain ⟨item, hi, rfl, rfl⟩ := mem_jobsAt_iff.mp (h.draining.jobs_of_lookup hl ▸ hj)
    obtain ⟨hopen, hnone⟩ := (h.waits_iff hl).mp hw
    refine ⟨item, hi, rfl, ?_, hnone⟩
    rintro ⟨st', hl', hterm⟩
    rw [hl, Option.some.injEq] at hl'
    rw [← hl', hopen] at hterm
    exact absurd hterm (by simp)
  · rintro ⟨item, hi, rfl, hend, hnone⟩
    obtain ⟨st, hl⟩ := h.draining.present item hi
    refine ⟨_, st, hl, (h.waits_iff hl).mpr ⟨?_, hnone⟩, ?_⟩
    · by_contra hterm
      exact hend ⟨st, hl, by simpa using hterm⟩
    · exact h.draining.jobs_of_lookup hl ▸ mem_jobsAt_iff.mpr ⟨item, hi, rfl, rfl⟩

/-- What the cancel arm is about to write: a Job whose Step is open and that no task is building. -/
theorem told_of_abort (h : Looping items p) (hnd : (items.map (·.jobId)).Nodup)
    (hown : p.Owned items) (hev : ∀ item ∈ items, item.evalId = e) {x : Effect}
    (hx : x ∈ (p.session.strategy.cancelEval e).1.map fun skip => Effect.skip skip.jobId) :
    ∃ item ∈ items, x = .skip item.jobId ∧ ¬ p.Ended item ∧
      ∀ d ∈ p.session.inFlight, d.headJob ≠ some item.jobId := by
  obtain ⟨skip, hskip, rfl⟩ := List.mem_map.mp hx
  obtain ⟨item, hi, hj, hopen, hfree⟩ := (h.aborts hnd hown hev skip.jobId).mp ⟨skip, hskip, rfl⟩
  refine ⟨item, hi, by rw [hj], hopen, fun d hd hjd => hfree d hd ?_⟩
  exact (h.drvPath_of_head hnd hd hi hjd).symm

/-- The loop is left for good by the cancel arm, or with its check posted. -/
theorem dies (hact : PhaseActs e row p a row' p') (hwas : p.pc.alive = true)
    (hdead : p'.pc.alive = false) :
    (row' = row ∧ a = .pollCancel ∧ p.pc.todo = [] ∧ p.cancel = true ∧ p' = { p with
      session := p.session.record (p.session.strategy.cancelEval e).2 (.cancelEval e)
        (.cancelled (p.session.strategy.cancelEval e).1)
      pc := .aborting ((p.session.strategy.cancelEval e).1.map fun skip => .skip skip.jobId) }) ∨
    (row' = row ∧ p.pc = .posting ∧
      p' = { p with posted := some p.tally.overallState, pc := .ended }) := by
  cases hact with
  | abort hpc hc => exact Or.inl ⟨rfl, rfl, by rw [hpc]; rfl, hc, rfl⟩
  | post hpc => exact Or.inr ⟨rfl, hpc, rfl⟩
  | aborted hpc | skip hpc | drain hpc | drained hpc =>
    rw [hpc] at hwas
    exact absurd hwas (by simp [LoopPc.alive])
  | look hpc =>
    simp only at hdead
    split at hdead <;> exact absurd hdead (by simp [LoopPc.alive])
  | check hpc =>
    simp only [Phase.afterChecks] at hdead
    repeat' split at hdead
    all_goals exact absurd hdead (by simp [LoopPc.alive])
  | @finish status hpc =>
    rw [hpc] at hwas
    have hne : status ≠ .cancelled := by simpa [LoopPc.alive] using hwas
    simp only [if_neg hne] at hdead
    exact absurd hdead (by simp [LoopPc.alive])
  | spawned hpc | build | dropGuard | supersede | fire =>
    exact absurd (hwas.symm.trans hdead) (by simp)
  | noPermit | idle | wake | polled | join | permit | sleep | settled | settle =>
    exact absurd hdead (by simp [LoopPc.alive])

end Looping

/-! ## Winding down -/

/-- The loop has cancelled its evaluation. -/
def LoopPc.winding : LoopPc → Bool
  | aborting _ | draining | ended => true
  | finishing status => status = .cancelled
  | _ => false

/-- The tasks left are for different Jobs, and not for one that is told. -/
structure Winding (p : Phase) : Prop where
  pc : p.pc.winding = true
  tokens : (p.session.inFlight.map (·.token)).Nodup
  named : ∀ d ∈ p.session.inFlight, ∃ j, d.headJob = some j
  heads : ∀ d ∈ p.session.inFlight, ∀ d' ∈ p.session.inFlight, d.headJob = d'.headJob → d = d'
  apart : ∀ x ∈ p.pc.todo, ∀ d ∈ p.session.inFlight, d.headJob ≠ some x.jobId

namespace Winding

variable {items : List ScheduleItem} {p p' : Phase} {e : EvalId} {row row' : EvalRow}
  {a : PhaseAct}

/-- Where the loop turns to winding down. -/
theorem start (h : Looping items p) (hnd : (items.map (·.jobId)).Nodup)
    (hflight : p'.session.inFlight = p.session.inFlight) (hpc : p'.pc.winding = true)
    (hapart : ∀ x ∈ p'.pc.todo, ∀ d ∈ p.session.inFlight, d.headJob ≠ some x.jobId) :
    Winding p' := by
  have hnamed : ∀ d ∈ p.session.inFlight, ∃ j, d.headJob = some j := by
    intro d hd
    obtain ⟨st, hl, -⟩ := h.running hd
    rw [h.heads d hd]
    exact Option.isSome_iff_exists.mp (by simpa using h.jobs _ st hl)
  refine ⟨hpc, hflight ▸ h.draining.tracks.nodup, hflight ▸ hnamed, ?_, hflight ▸ hapart⟩
  rw [hflight]
  intro d hd d' hd' heq
  obtain ⟨j, hj⟩ := hnamed d hd
  obtain ⟨item, hi, rfl⟩ := h.item_of_head hd hj
  exact h.eq_of_head hnd hd hd' hi hj (heq ▸ hj)

theorem reorder (h : Winding p) (s : DagStrategy) : Winding (p.reorder s) :=
  ⟨h.pc, h.tokens, h.named, h.heads, h.apart⟩

/-- Fewer tasks and fewer rows to write. -/
theorem shrink (h : Winding p) (hpc : p'.pc.winding = true)
    (hflight : p'.session.inFlight.Sublist p.session.inFlight)
    (htodo : ∀ x ∈ p'.pc.todo, x ∈ p.pc.todo) : Winding p' :=
  ⟨hpc, h.tokens.sublist (hflight.map _), fun d hd => h.named d (hflight.subset hd),
    fun d hd d' hd' => h.heads d (hflight.subset hd) d' (hflight.subset hd'),
    fun x hx d hd => h.apart x (htodo x hx) d (hflight.subset hd)⟩

theorem acts (h : Winding p) (hact : PhaseActs e row p a row' p') : Winding p' := by
  have hpc := h.pc
  cases hact with
  | look hp | noPermit hp | idle hp | spawned hp | check hp | wake hp | abort hp | polled hp
  | join hp | permit hp | sleep hp | settled hp | settle hp | post hp =>
    rw [hp] at hpc
    exact absurd hpc (by simp [LoopPc.winding])
  | aborted hp => exact h.shrink rfl (.refl _) (by simp [LoopPc.todo])
  | @skip x todo hp =>
    refine h.shrink rfl (.refl _) fun y hy => ?_
    rw [hp]
    exact List.mem_cons_of_mem _ hy
  | drain hp ht =>
    rw [Phase.joined_eq]
    exact h.shrink hpc List.filter_sublist fun x hx => hx
  | drained hp hset => exact h.shrink rfl (.refl _) (by simp [LoopPc.todo])
  | @finish status hp =>
    rw [hp] at hpc
    obtain rfl : status = .cancelled := by simpa [LoopPc.winding] using hpc
    exact h.shrink rfl (.refl _) (by simp [LoopPc.todo])
  | build | dropGuard | fire => exact h.shrink hpc (.refl _) fun x hx => hx
  | supersede => exact h

/-- The task under a token. -/
theorem task (h : Winding p) {token : DispatchToken} {jobId : JobId} {spec : JobSpec}
    {state : BuildState} (ht : p.task token = some (jobId, spec, state)) {d : Dispatched}
    (hd : d ∈ p.session.inFlight) : d.token = token ↔ d.headJob = some jobId := by
  obtain ⟨d₀, hd₀, rfl, hj, -⟩ := Phase.task_eq_some ht
  constructor
  · intro htok
    rw [List.inj_on_of_nodup_map h.tokens hd hd₀ htok, hj]
  · intro hj'
    rw [h.heads d hd d₀ hd₀ (hj'.trans hj.symm)]

end Winding

end Argunix.Daemon
