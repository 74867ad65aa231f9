import Argunix.Sched.Session

/-!
# A strategy loaded before its first dispatch

The daemon enqueues every Job of an evaluation and only then starts to dispatch. `Enqueued cap
items s` says that `s` is what those calls may leave; `Loaded` collects what is known of such a
state: whose Jobs each Step stands for, which edges there are, and that nothing has been closed.

From then on the shape of the graph is fixed. The second half says so: dispatches and
completions change neither edges nor Jobs (`linkView`).
-/

set_option autoImplicit false

namespace Argunix.Sched

open Argunix.Lib

namespace DagStrategy

variable {s s' : DagStrategy}

/-! ## The shape of the graph -/

/-- The edges and Jobs of a Step. -/
def linkView (st : Step) : List String × List JobId := (st.rdeps, st.headJobs)

/-- The same Steps with the same edges and Jobs. -/
def SameLinks (s s' : DagStrategy) : Prop :=
  ∀ d, (s'.byDrv.lookup d).map linkView = (s.byDrv.lookup d).map linkView

namespace SameLinks

theorem refl (s : DagStrategy) : SameLinks s s := fun _ => rfl

theorem trans {s'' : DagStrategy} (h : SameLinks s s') (h' : SameLinks s' s'') : SameLinks s s'' :=
  fun d => (h' d).trans (h d)

theorem symm (h : SameLinks s s') : SameLinks s' s := fun d => (h d).symm

theorem lookup (h : SameLinks s s') {d : String} {st : Step} (hl : s.byDrv.lookup d = some st) :
    ∃ st', s'.byDrv.lookup d = some st' ∧ st'.rdeps = st.rdeps ∧ st'.headJobs = st.headJobs := by
  have := h d
  rw [hl, Option.map_some] at this
  obtain ⟨st', hl', he⟩ := Option.map_eq_some_iff.mp this
  simp only [linkView, Prod.mk.injEq] at he
  exact ⟨st', hl', he⟩

theorem edge (h : SameLinks s s') (p r : String) : s'.Edge p r ↔ s.Edge p r := by
  constructor
  · rintro ⟨st, hl, hr⟩
    obtain ⟨st', hl', he, -⟩ := h.symm.lookup hl
    exact ⟨st', hl', he ▸ hr⟩
  · rintro ⟨st, hl, hr⟩
    obtain ⟨st', hl', he, -⟩ := h.lookup hl
    exact ⟨st', hl', he ▸ hr⟩

theorem headJobsOf (h : SameLinks s s') (d : String) : s'.headJobsOf d = s.headJobsOf d := by
  have := congrArg (Option.map Prod.snd) (h d)
  simp only [Option.map_map, Function.comp_def, linkView] at this
  unfold DagStrategy.headJobsOf
  rw [this]

end SameLinks

theorem Shuffle.sameLinks (hs : Shuffle s s') : SameLinks s s' := fun d => by rw [hs.step]

theorem sameLinks_promoteReadySteps (s : DagStrategy) : SameLinks s s.promoteReadySteps := by
  intro d
  obtain ⟨fresh, hl⟩ := lookup_promoteReadySteps s d
  rw [hl, Option.map_map]
  congr 1
  funext st
  simp only [Function.comp_apply]
  split <;> rfl

theorem sameLinks_skipAll (s : DagStrategy) (sk : List String) : SameLinks s (s.skipAll sk) := by
  intro d
  rw [lookup_skipAll]
  split
  · rw [Option.map_map]
    rfl
  · rfl

theorem sameLinks_closeToken (s : DagStrategy) (t : DispatchToken) (k : String) (x : StepState) :
    SameLinks s (s.closeToken t k x) :=
  HashMap.map_modify_of_view (f := Step.close x) (g := linkView) (fun _ => rfl) k

theorem sameLinks_decrementRdeps (s : DagStrategy) (rdeps : List String) :
    SameLinks s (s.decrementRdeps rdeps) := by
  intro d
  rw [lookup_decrementRdeps, Option.map_map]
  rfl

theorem Bookkeeping.sameLinks_dispatch (h : Bookkeeping [] s) : SameLinks s s.dispatch.2 := by
  have hspec := dispatch_spec s h.known_token
  cases hres : s.dispatch with
  | mk o s' =>
    rw [hres] at hspec
    cases hspec with
    | idle _ _ => exact .refl s
    | run _ _ _ _ =>
      exact HashMap.map_modify_of_view (f := Step.makeRunning) (g := linkView) (fun _ => rfl) _

theorem Bookkeeping.sameLinks_complete (h : Bookkeeping [] s) (t : DispatchToken)
    (status : JobStatus) : SameLinks s (s.complete t status).2 := by
  have hspec := complete_spec s t status h.known_token
  cases hres : s.complete t status with
  | mk effects s' =>
    rw [hres] at hspec
    cases hspec with
    | unknown _ => exact .refl s
    | succeeded _ _ _ =>
      exact (sameLinks_closeToken s t _ _).trans
        ((sameLinks_decrementRdeps _ _).trans (sameLinks_promoteReadySteps _))
    | failed _ _ _ hc =>
      rw [hc.state]
      exact (sameLinks_closeToken s t _ _).trans (sameLinks_skipAll _ _)

/-- Dispatches and completions do not change who is tracked. -/
theorem Bookkeeping.jobMeta_dispatch (h : Bookkeeping [] s) : s.dispatch.2.jobMeta = s.jobMeta := by
  have hspec := dispatch_spec s h.known_token
  cases hres : s.dispatch with
  | mk o s' =>
    rw [hres] at hspec
    cases hspec with
    | idle _ _ => rfl
    | run _ _ _ _ => rfl

theorem Bookkeeping.jobMeta_complete (h : Bookkeeping [] s) (t : DispatchToken)
    (status : JobStatus) : (s.complete t status).2.jobMeta = s.jobMeta := by
  have hspec := complete_spec s t status h.known_token
  cases hres : s.complete t status with
  | mk effects s' =>
    rw [hres] at hspec
    cases hspec with
    | unknown _ => rfl
    | succeeded _ _ _ =>
      rw [promoteReadySteps_jobMeta, decrementRdeps_frame (·.jobMeta) fun _ _ _ => rfl]
      rfl
    | failed _ _ _ hc =>
      rw [hc.state, skipAll_jobMeta]
      rfl

/-! ## What a completion does to each Step -/

/-- The Step that ends is closed, the Steps in `sk` are skipped behind it, and nothing else
    happens to a Step but a promotion. -/
structure CompleteEffect (s : DagStrategy) (d : String) (step : Step) (status : JobStatus)
    (sk : List String) (effects : CompletionEffects) (s' : DagStrategy) : Prop where
  nodup : sk.Nodup
  fresh : d ∉ sk
  pending : ∀ k ∈ sk, ∃ st, s.byDrv.lookup k = some st ∧ st.state = .pending
  ended : ∀ st', s'.byDrv.lookup d = some st' → st'.state = .fromStatus status
  skipped : ∀ k ∈ sk, ∀ st', s'.byDrv.lookup k = some st' → st'.state = .skipped
  others : ∀ k st st', k ≠ d → k ∉ sk → s.byDrv.lookup k = some st →
    s'.byDrv.lookup k = some st' →
    st'.state = st.state ∨ (st.state = .pending ∧ st'.state = .ready)
  aliases : effects.aliasCompletions = s.aliasesFor step.headJobs
  skips : effects.cascadedSkips = sk.flatMap fun k => s.skipsFor d (s.headJobsOf k)
  /-- A success skips nothing. -/
  of_success : status.isSuccess = true → sk = []
  /-- A failure skips what is behind it. -/
  of_failure : status.isSuccess = false →
    (∀ k ∈ sk, Relation.TransGen (fun p r => s.Edge p r ∧ (p = d ∨ p ∈ sk)) d k) ∧
    ∀ p r st, p = d ∨ p ∈ sk → r ≠ d → s.Edge p r → s.byDrv.lookup r = some st →
      st.state.isTerminal = true ∨ r ∈ sk

theorem Bookkeeping.completed (h : Bookkeeping [] s) {token : DispatchToken} {d : String}
    {step : Step} (ht : s.tokenToDrv.lookup token = some d) (hld : s.byDrv.lookup d = some step)
    (status : JobStatus) :
    ∃ sk, CompleteEffect s d step status sk (s.complete token status).1
      (s.complete token status).2 := by
  have hspec := complete_spec s token status h.known_token
  have hclosed := StepState.isTerminal_fromStatus status
  cases hres : s.complete token status with
  | mk effects s' =>
    rw [hres] at hspec
    cases hspec with
    | unknown hn =>
      rw [ht] at hn
      exact absurd hn (by simp)
    | @succeeded d' step' ht' hl' hsucc =>
      obtain rfl : d' = d := by simpa [ht] using ht'.symm
      obtain rfl : step' = step := by simpa [hld] using hl'.symm
      have hlook := fun k => lookup_succeeded s token d' k (.fromStatus status) step'.rdeps
      refine ⟨[], by simp, by simp, by simp, ?_, by simp, ?_, rfl, rfl, fun _ => rfl, ?_⟩
      · intro st' hl'
        obtain ⟨fresh, hlook⟩ := hlook d'
        rw [hld, Option.map_some, hl', Option.some.injEq] at hlook
        simp only [if_true] at hlook
        rw [if_neg ?_] at hlook
        · rw [hlook]
          rfl
        · rw [Bool.not_eq_true]
          refine promotable_eq_false_of_state fun hp => ?_
          rw [Step.close_state] at hp
          rw [hp] at hclosed
          exact absurd hclosed (by decide)
      · intro k st st' hk _ hl hl'
        obtain ⟨fresh, hlook⟩ := hlook k
        rw [hl, Option.map_some, hl', Option.some.injEq] at hlook
        simp only [hk, if_false] at hlook
        split at hlook
        · rename_i hprom
          have hp := (Step.promotable_iff.mp hprom).1
          exact Or.inr ⟨hp, by rw [hlook]; rfl⟩
        · exact Or.inl (by rw [hlook])
      · intro hfail
        rw [hsucc] at hfail
        exact absurd hfail (by simp)
    | @failed d' step' sk out _ ht' hl' hfail hc =>
      obtain rfl : d' = d := by simpa [ht] using ht'.symm
      obtain rfl : step' = step := by simpa [hld] using hl'.symm
      have hlinks := sameLinks_closeToken s token d' (.fromStatus status)
      have hdsk : d' ∉ sk := by
        intro hm
        obtain ⟨st, hl, hop⟩ := hc.isOpen d' hm
        rw [lookup_closeToken, if_pos rfl, hld, Option.map_some, Option.some.injEq] at hl
        rw [← hl, Step.close_state, hclosed] at hop
        exact absurd hop (by simp)
      have hlook : ∀ k, k ≠ d' → (s.closeToken token d' (.fromStatus status)).byDrv.lookup k
          = s.byDrv.lookup k := fun k hk => by rw [lookup_closeToken, if_neg hk]
      refine ⟨sk, hc.nodup, hdsk, ?_, ?_, ?_, ?_, rfl, ?_, ?_, fun _ => ⟨?_, ?_⟩⟩
      · intro k hk
        obtain ⟨st, hl, hst⟩ := h.pending_of_failed ht hld hfail hc k hk
        rw [hlook k fun heq => hdsk (heq ▸ hk)] at hl
        exact ⟨st, hl, hst⟩
      · intro st' hl'
        rw [hc.state, lookup_skipAll, if_neg hdsk, lookup_closeToken, if_pos rfl, hld,
          Option.map_some, Option.some.injEq] at hl'
        rw [← hl']
        rfl
      · intro k hk st' hl'
        rw [hc.state, lookup_skipAll, if_pos hk] at hl'
        obtain ⟨st, -, rfl⟩ := Option.map_eq_some_iff.mp hl'
        rfl
      · intro k st st' hk hsk hl hl'
        rw [hc.state, lookup_skipAll, if_neg hsk, hlook k hk, hl, Option.some.injEq] at hl'
        exact Or.inl (by rw [hl'])
      · simp only [hc.skips, hlinks.headJobsOf]
        rfl
      · intro hsucc
        rw [hfail] at hsucc
        exact absurd hsucc (by simp)
      · intro k hk
        exact Relation.TransGen.mono (fun p r he => ⟨(hlinks.edge p r).mp he.1, he.2⟩) _ _
          (hc.behind k hk)
      · intro p r st hp hr he hl
        exact hc.closed p r st hp ((hlinks.edge p r).mpr he) ((hlook r hr).trans hl)

/-! ## Loading -/

/-- `s` is what enqueueing `items` in this order into a fresh strategy may leave. -/
inductive Enqueued (cap : Option ℕ) : List ScheduleItem → DagStrategy → Prop
  | new : Enqueued cap [] (DagStrategy.new cap)
  | setWeight {items : List ScheduleItem} {s s₁ : DagStrategy} (repoId : RepoId) (weight : ℕ) :
      Enqueued cap items s → Shuffle s s₁ → Enqueued cap items (s₁.setWeight repoId weight)
  | enqueue {items : List ScheduleItem} {s s₁ s₂ : DagStrategy} (item : ScheduleItem) :
      Enqueued cap items s → Shuffle s s₁ → Shuffle (s₁.insertItem item) s₂ →
      Enqueued cap (items ++ [item]) s₂.promoteReadySteps

/-- Load with the maps iterated in the order they are stored. -/
def load (cap : Option ℕ) (items : List ScheduleItem) : DagStrategy :=
  items.foldl enqueue (DagStrategy.new cap)

theorem enqueued_load (cap : Option ℕ) (items : List ScheduleItem) :
    Enqueued cap items (load cap items) := by
  induction items using List.reverseRecOn with
  | nil => exact .new
  | append_singleton items item ih =>
    unfold load at ih ⊢
    rw [List.foldl_append]
    exact .enqueue item ih (.refl _) (.refl _)

/-- `r` is mentioned with `p` among its inputs. -/
def Needs (items : List ScheduleItem) (p r : String) : Prop :=
  ∃ item ∈ items, ∃ drv ∈ mentions item, drv.drvPath = r ∧ p ∈ drv.inputDrvs

/-- The Jobs whose head derivation is `d`, in enqueue order. -/
def jobsAt (items : List ScheduleItem) (d : String) : List JobId :=
  (items.filter fun item => item.headDrv.drvPath = d).map (·.jobId)

theorem jobsAt_concat (items : List ScheduleItem) (item : ScheduleItem) (d : String) :
    jobsAt (items ++ [item]) d
      = jobsAt items d ++ if d = item.headDrv.drvPath then [item.jobId] else [] := by
  unfold jobsAt
  rw [List.filter_append, List.map_append]
  congr 1
  by_cases hd : d = item.headDrv.drvPath
  · simp [hd]
  · simp [hd, Ne.symm hd]

theorem mem_jobsAt_iff {items : List ScheduleItem} {d : String} {j : JobId} :
    j ∈ jobsAt items d ↔ ∃ item ∈ items, item.headDrv.drvPath = d ∧ item.jobId = j := by
  simp [jobsAt, and_assoc]

/-- What `inputs_by_drv` maps a path to was declared by the item. -/
theorem inputsByDrv_mentions {item : ScheduleItem} {d : String} {inputs : List String}
    (h : (inputsByDrv item).lookup d = some inputs) :
    ∃ drv ∈ mentions item, drv.drvPath = d ∧ drv.inputDrvs = inputs := by
  revert h
  unfold inputsByDrv mentions
  refine List.foldlRecOn (motive := fun m : HashMap String (List String) =>
    m.lookup d = some inputs → ∃ drv ∈ item.closure ++ [item.headDrv], drv.drvPath = d ∧
      drv.inputDrvs = inputs) _ _ ?_ ?_
  · intro h
    rw [HashMap.lookup_insert_eq] at h
    split at h
    · rename_i hd
      exact ⟨item.headDrv, by simp, hd.symm, Option.some.inj h⟩
    · exact absurd h (by simp)
  · intro m ih drv hmem h
    rw [HashMap.lookup_insert_eq] at h
    split at h
    · rename_i hd
      exact ⟨drv, by simp [hmem], hd.symm, Option.some.inj h⟩
    · exact ih h

/-- What is known of a loaded strategy. -/
structure Loaded (cap : Option ℕ) (items : List ScheduleItem) (s : DagStrategy) : Prop where
  reachable : Reachable cap s
  /-- Nothing has been dispatched or closed. -/
  fresh : ∀ d st, s.byDrv.lookup d = some st → st.state = .pending ∨ st.state = .ready
  headJobs : ∀ d, s.headJobsOf d = jobsAt items d
  edge : ∀ p r, s.Edge p r → Needs items p r
  present : ∀ item ∈ items, ∀ drv ∈ mentions item, ∃ st, s.byDrv.lookup drv.drvPath = some st
  mentioned : ∀ d st, s.byDrv.lookup d = some st →
    ∃ item ∈ items, ∃ drv ∈ mentions item, drv.drvPath = d
  owner : ∀ j o, s.jobMeta.lookup j = some o →
    ∃ item ∈ items, item.jobId = j ∧ o = (item.repoId, item.evalId)
  tracked : (items.map (·.jobId)).Nodup → ∀ item ∈ items,
    s.jobMeta.lookup item.jobId = some (item.repoId, item.evalId)
  cap : s.wfq.concurrencyCap = cap

theorem Needs.mono {items : List ScheduleItem} {p r : String} (h : Needs items p r)
    (item : ScheduleItem) : Needs (items ++ [item]) p r := by
  obtain ⟨i, hi, h⟩ := h
  exact ⟨i, by simp [hi], h⟩

theorem Enqueued.loaded {cap : Option ℕ} {items : List ScheduleItem} (h : Enqueued cap items s) :
    Loaded cap items s := by
  induction h with
  | new =>
    have hnone : ∀ d, (DagStrategy.new cap).byDrv.lookup d = none := fun d => AList.lookup_empty d
    refine ⟨.new, ?_, ?_, ?_, by simp, ?_, ?_, by simp, rfl⟩
    · intro d st hl; rw [hnone] at hl; exact absurd hl (by simp)
    · intro d; simp [headJobsOf, hnone, jobsAt]
    · rintro p r ⟨st, hl, -⟩; rw [hnone] at hl; exact absurd hl (by simp)
    · intro d st hl; rw [hnone] at hl; exact absurd hl (by simp)
    · intro j o hj; exact absurd hj (by simp [DagStrategy.new])
  | @setWeight items s s₁ r w _ hs ih =>
    have hlinks := hs.sameLinks
    refine ⟨.step ih.reachable hs (.setWeight r w), ?_, ?_, ?_, ?_, ?_, ?_, ?_, ?_⟩
    · intro d st hl
      exact ih.fresh d st ((hs.step d).symm.trans hl)
    · intro d
      exact (hlinks.headJobsOf d).trans (ih.headJobs d)
    · intro p r he
      exact ih.edge p r ((hlinks.edge p r).mp he)
    · intro item hi drv hm
      obtain ⟨st, hl⟩ := ih.present item hi drv hm
      exact ⟨st, (hs.step _).trans hl⟩
    · intro d st hl
      exact ih.mentioned d st ((hs.step d).symm.trans hl)
    · intro j o hj
      exact ih.owner j o ((hs.job j).symm.trans hj)
    · intro hnd item hi
      exact (hs.job _).trans (ih.tracked hnd item hi)
    · exact hs.wfq.concurrencyCap.trans ih.cap
  | @enqueue items s s₁ s₂ item _ hs hs₂ ih =>
    have had := insertItem_spec s₁ item
    have hlinks : SameLinks (s₁.insertItem item) s₂.promoteReadySteps :=
      hs₂.sameLinks.trans (sameLinks_promoteReadySteps s₂)
    have hmeta : ∀ j, s₂.promoteReadySteps.jobMeta.lookup j
        = if j = item.jobId then some (item.repoId, item.evalId) else s.jobMeta.lookup j := by
      intro j
      rw [promoteReadySteps_jobMeta, hs₂.job, had.jobMeta, HashMap.lookup_insert_eq, hs.job]
    -- a Step of the result, seen before the promotion
    have hback : ∀ d st', s₂.promoteReadySteps.byDrv.lookup d = some st' →
        ∃ st, (s₁.insertItem item).byDrv.lookup d = some st ∧
          (st'.state = st.state ∨ st'.state = .ready) := by
      intro d st' hl'
      obtain ⟨fresh, hp⟩ := lookup_promoteReadySteps s₂ d
      rw [hp] at hl'
      obtain ⟨st, hl, rfl⟩ := Option.map_eq_some_iff.mp hl'
      refine ⟨st, (hs₂.step d).symm.trans hl, ?_⟩
      split
      · exact Or.inr rfl
      · exact Or.inl rfl
    refine ⟨.step ih.reachable hs (.enqueue item hs₂), ?_, ?_, ?_, ?_, ?_, ?_, ?_, ?_⟩
    · intro d st' hl'
      obtain ⟨st, hl, hst | hst⟩ := hback d st' hl'
      · rcases had.new d st hl with ⟨st₀, hl₀⟩ | ⟨-, hp, -⟩
        · obtain ⟨st₁, hl₁, hst₁, -⟩ := had.old d st₀ hl₀
          rw [hl, Option.some.injEq] at hl₁
          subst hl₁
          rw [hst, hst₁]
          exact ih.fresh d st₀ ((hs.step d).symm.trans hl₀)
        · exact Or.inl (hst.trans hp)
      · exact Or.inr hst
    · intro d
      rw [hlinks.headJobsOf, had.headJobs, hs.sameLinks.headJobsOf, ih.headJobs, jobsAt_concat]
    · intro p r he
      rcases had.edge p r ((hlinks.edge p r).mp he) with he | ⟨-, inputs, hi, hp⟩
      · exact (ih.edge p r ((hs.sameLinks.edge p r).mp he)).mono item
      · obtain ⟨drv, hm, hpath, rfl⟩ := inputsByDrv_mentions hi
        exact ⟨item, by simp, drv, hm, hpath, hp⟩
    · intro i hi drv hm
      have hadm : ∃ st, (s₁.insertItem item).byDrv.lookup drv.drvPath = some st := by
        rcases List.mem_append.mp hi with hi | hi
        · obtain ⟨st, hl⟩ := ih.present i hi drv hm
          obtain ⟨st', hl', -⟩ := had.old _ st ((hs.step _).trans hl)
          exact ⟨st', hl'⟩
        · obtain rfl : i = item := by simpa using hi
          exact had.present drv hm
      obtain ⟨st, hl⟩ := hadm
      obtain ⟨st', hl', -⟩ := hlinks.lookup hl
      exact ⟨st', hl'⟩
    · intro d st' hl'
      obtain ⟨st, hl, -⟩ := hback d st' hl'
      rcases had.new d st hl with ⟨st₀, hl₀⟩ | ⟨-, -, drv, hm, hd⟩
      · obtain ⟨i, hi, h⟩ := ih.mentioned d st₀ ((hs.step d).symm.trans hl₀)
        exact ⟨i, by simp [hi], h⟩
      · exact ⟨item, by simp, drv, hm, hd⟩
    · intro j o hj
      rw [hmeta] at hj
      split at hj
      · rename_i hji
        exact ⟨item, by simp, hji.symm, (Option.some.inj hj).symm⟩
      · obtain ⟨i, hi, h⟩ := ih.owner j o hj
        exact ⟨i, by simp [hi], h⟩
    · intro hnd i hi
      rw [List.map_append, List.nodup_append] at hnd
      rw [hmeta]
      rcases List.mem_append.mp hi with hi | hi
      · rw [if_neg ?_]
        · exact ih.tracked hnd.1 i hi
        · exact hnd.2.2 i.jobId (List.mem_map_of_mem hi) item.jobId (by simp)
      · obtain rfl : i = item := by simpa using hi
        rw [if_pos rfl]
    · rw [promoteReadySteps_cap, hs₂.wfq.concurrencyCap, had.wfq, hs.wfq.concurrencyCap]
      exact ih.cap

/-! ## Whose Job is whose -/

section Distinct

variable {items : List ScheduleItem} (hnd : (items.map (·.jobId)).Nodup)

include hnd

/-- A Job has one head derivation. -/
theorem jobsAt_unique {j : JobId} {d d' : String} (h : j ∈ jobsAt items d)
    (h' : j ∈ jobsAt items d') : d = d' := by
  obtain ⟨i, hi, hd, hj⟩ := mem_jobsAt_iff.mp h
  obtain ⟨i', hi', hd', hj'⟩ := mem_jobsAt_iff.mp h'
  have : i = i' := List.inj_on_of_nodup_map hnd hi hi' (hj.trans hj'.symm)
  rw [← hd, ← hd', this]

theorem jobsAt_nodup (d : String) : (jobsAt items d).Nodup :=
  hnd.sublist ((List.filter_sublist).map _)

theorem count_jobsAt {j : JobId} {k : String} (hj : j ∈ jobsAt items k) (d : String) :
    (jobsAt items d).count j = if d = k then 1 else 0 := by
  by_cases hd : d = k
  · rw [if_pos hd, hd]
    exact List.count_eq_one_of_mem (jobsAt_nodup hnd k) hj
  · rw [if_neg hd]
    exact List.count_eq_zero.mpr fun hm => hd (jobsAt_unique hnd hm hj)

/-- One skip list mentions a Job once if its head Step was skipped, and otherwise not. -/
theorem count_flatMap_jobsAt {j : JobId} {k : String} (hj : j ∈ jobsAt items k) {sk : List String}
    (hsk : sk.Nodup) : (sk.flatMap (jobsAt items)).count j = if k ∈ sk then 1 else 0 := by
  induction sk with
  | nil => simp
  | cons d sk ih =>
    rw [List.nodup_cons] at hsk
    rw [List.flatMap_cons, List.count_append, count_jobsAt hnd hj, ih hsk.2]
    by_cases hd : d = k
    · subst hd
      simp [hsk.1]
    · simp [hd, Ne.symm hd]

end Distinct

theorem map_skipsFor (s : DagStrategy) (reason : String) (jobs : List JobId) :
    (s.skipsFor reason jobs).map (·.jobId) = jobs.filter fun j => (s.jobMeta.lookup j).isSome := by
  unfold skipsFor
  induction jobs with
  | nil => rfl
  | cons j jobs ih =>
    cases h : s.jobMeta.lookup j with
    | none => simpa [h] using ih
    | some o => simpa [h] using ih

theorem map_aliasesFor (s : DagStrategy) (jobs : List JobId) :
    (s.aliasesFor jobs).map (·.jobId)
      = (jobs.drop 1).filter fun j => (s.jobMeta.lookup j).isSome := by
  unfold aliasesFor
  induction jobs.drop 1 with
  | nil => rfl
  | cons j jobs ih =>
    cases h : s.jobMeta.lookup j with
    | none => simpa [h] using ih
    | some o => simpa [h] using ih

theorem map_flatMap_skipsFor (s : DagStrategy) (reason : String) (sk : List String) :
    (sk.flatMap fun d => s.skipsFor reason (s.headJobsOf d)).map (·.jobId)
      = sk.flatMap fun d => (s.headJobsOf d).filter fun j => (s.jobMeta.lookup j).isSome := by
  rw [List.map_flatMap]
  exact List.flatMap_congr fun d _ => map_skipsFor s reason _

end DagStrategy

end Argunix.Sched
