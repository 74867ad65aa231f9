import Argunix.Sched.Bookkeeping
import Argunix.Sched.Enqueue

/-!
# Runs of the DAG strategy

`Does s op a s'` is one call of the strategy's interface, with its answer. A call may find the
hash maps in any iteration order; `enqueue` inserts and then iterates, so it may also find a
new order between its two halves.

Every state a run reaches keeps the books (`Reachable.bookkeeping`), and has nothing left to
promote (`Reachable.settled`). `books_always_balance` spells out what that means for the
counters, the tokens and the queues, and why the two defensive branches of the source (the
saturating subtraction, the assertion in `dispatch`) are never needed.
-/

set_option autoImplicit false

namespace Argunix.Sched

open Argunix.Lib

namespace DagStrategy

/-- The calls of `ScheduleStrategy` that change the state. -/
inductive Op
  | setWeight (repoId : RepoId) (weight : ℕ)
  | enqueue (item : ScheduleItem)
  | dispatch
  | complete (token : DispatchToken) (status : JobStatus)
  | cancelEval (evalId : EvalId)

/-- What a call answers. -/
inductive Answer
  | unit
  | dispatched (d : Option Dispatched)
  | completed (effects : CompletionEffects)
  | cancelled (skips : List CascadedSkip)

/-- One call, once the iteration order it meets is fixed. -/
inductive Does (s : DagStrategy) : Op → Answer → DagStrategy → Prop
  | setWeight (repoId : RepoId) (weight : ℕ) :
      Does s (.setWeight repoId weight) .unit (s.setWeight repoId weight)
  | enqueue {s₁ : DagStrategy} (item : ScheduleItem) : Shuffle (s.insertItem item) s₁ →
      Does s (.enqueue item) .unit s₁.promoteReadySteps
  | dispatch : Does s .dispatch (.dispatched s.dispatch.1) s.dispatch.2
  | complete (token : DispatchToken) (status : JobStatus) :
      Does s (.complete token status) (.completed (s.complete token status).1)
        (s.complete token status).2
  | cancelEval (evalId : EvalId) :
      Does s (.cancelEval evalId) (.cancelled (s.cancelEval evalId).1) (s.cancelEval evalId).2

/-- The states any interleaving of calls can reach. -/
inductive Reachable (cap : Option ℕ) : DagStrategy → Prop
  | new : Reachable cap (DagStrategy.new cap)
  | step {s s₁ s' : DagStrategy} {op : Op} {a : Answer} :
      Reachable cap s → Shuffle s s₁ → Does s₁ op a s' → Reachable cap s'

variable {s s' : DagStrategy}

/-! ## Each operation keeps the books -/

theorem Counters.of_byDrv {owed : List String} (h : Counters owed s) (hb : s'.byDrv = s.byDrv) :
    Counters owed s' := by
  constructor
  · simpa only [openEdges, hb] using h.counter
  · simpa only [Edge, hb] using h.known
  · simpa only [hb] using h.live_zero

/-- A Step keeps its edges, counter and state: only its Jobs change. -/
theorem Counters.modifySame {owed : List String} (h : Counters owed s) {f : Step → Step}
    (hs : ∀ st, (f st).state = st.state) (hr : ∀ st, (f st).rdeps = st.rdeps)
    (hc : ∀ st, (f st).depsUnfinished = st.depsUnfinished) (k : String) :
    Counters owed (s.modifyStep k f) := by
  constructor
  · intro d st hd
    rw [Counters.openEdges_modifyStep hs hr]
    rcases HashMap.lookup_modify_cases hd with ⟨rfl, st', hl, rfl⟩ | ⟨-, hl⟩
    · rw [hc]
      exact h.counter _ _ hl
    · exact h.counter d st hl
  · intro p r he
    exact HashMap.exists_lookup_modify f (h.known p r ((edge_modifyStep_iff hr k p r).mp he))
  · intro d st hd hlive
    rcases HashMap.lookup_modify_cases hd with ⟨rfl, st', hl, rfl⟩ | ⟨-, hl⟩
    · rw [hc]
      exact h.live_zero _ _ hl (hs st' ▸ hlive)
    · exact h.live_zero d st hl hlive

namespace Bookkeeping

variable {owed : List String}

theorem new (cap : Option ℕ) : Bookkeeping [] (DagStrategy.new cap) := by
  have hnone : ∀ d, (DagStrategy.new cap).byDrv.lookup d = none := fun d => AList.lookup_empty d
  have htok : ∀ t, (DagStrategy.new cap).tokenToDrv.lookup t = none := fun t => AList.lookup_empty t
  refine ⟨⟨?_, ?_, ?_⟩, ⟨?_, ?_, ?_, ?_, ?_, ?_, ?_⟩⟩
  · intro d st hl; rw [hnone] at hl; exact absurd hl (by simp)
  · rintro p r ⟨st, hl, -⟩; rw [hnone] at hl; exact absurd hl (by simp)
  · intro d st hl; rw [hnone] at hl; exact absurd hl (by simp)
  · intro d st hl; rw [hnone] at hl; exact absurd hl (by simp)
  · intro d st hl; rw [hnone] at hl; exact absurd hl (by simp)
  · intro t d; rw [htok, hnone]; simp
  · intro t d ht; rw [htok] at ht; exact absurd ht (by simp)
  · intro t ht; exact absurd ht (lt_irrefl 0)
  · intro t d st ht; rw [htok] at ht; exact absurd ht (by simp)
  · intro t
    refine ⟨fun h => absurd h ?_, ?_⟩
    · simp [DagStrategy.new, WfqCore.new]
    · rintro ⟨d, st, hl, -⟩; rw [hnone] at hl; exact absurd hl (by simp)

theorem shuffle (h : Bookkeeping owed s) (hs : Shuffle s s') : Bookkeeping owed s' :=
  ⟨h.toCounters.shuffle hs, h.toTokens.shuffle hs⟩

theorem withMeta (h : Bookkeeping owed s) (jobMeta : HashMap JobId (RepoId × EvalId)) :
    Bookkeeping owed { s with jobMeta := jobMeta } :=
  ⟨h.toCounters.of_byDrv rfl,
    h.toTokens.congr (fun _ => rfl) (fun _ => rfl) rfl (fun _ => rfl) fun _ => rfl⟩

theorem setWeight (h : Bookkeeping owed s) (repoId : RepoId) (weight : ℕ) :
    Bookkeeping owed (s.setWeight repoId weight) :=
  ⟨h.toCounters.of_byDrv rfl, h.toTokens.congr (fun _ => rfl) (fun _ => rfl) rfl
    (WfqCore.queuedCount_setWeight _ _ _) fun _ => rfl⟩

theorem promoteReadySteps (h : Bookkeeping [] s) : Bookkeeping [] s.promoteReadySteps := by
  suffices hsuff : ∀ (ps : List (String × RepoId)) (s : DagStrategy), Bookkeeping [] s →
      (ps.map Prod.fst).Nodup →
      (∀ p ∈ ps, ∃ st, s.byDrv.lookup p.1 = some st ∧ st.promotable = true) →
      Bookkeeping [] (ps.foldl promoteStep s) by
    refine hsuff s.toPromote s h s.toPromote_nodup fun p hp => ?_
    obtain ⟨st, hl, hprom, -⟩ := mem_toPromote_iff.mp hp
    exact ⟨st, hl, hprom⟩
  intro ps
  induction ps with
  | nil => intro s h _ _; exact h
  | cons p ps ih =>
    intro s h hnd hall
    rw [List.map_cons, List.nodup_cons] at hnd
    obtain ⟨st, hl, hprom⟩ := hall p (by simp)
    obtain ⟨hp, hz⟩ : st.state = .pending ∧ st.depsUnfinished = 0 := by
      simpa [Step.promotable] using hprom
    refine ih (s.promoteStep p) ⟨?_, h.toTokens.promoteStep hl hp⟩ hnd.2 fun q hq => ?_
    · refine h.toCounters.modify rfl hl rfl rfl ?_ fun _ => hz
      rw [hp]
      rfl
    · obtain ⟨st', hl', hprom'⟩ := hall q (by simp [hq])
      refine ⟨st', ?_, hprom'⟩
      rw [lookup_promoteStep, if_neg ?_, hl']
      exact fun heq => hnd.1 (heq ▸ List.mem_map_of_mem hq)

theorem insertItem (h : Bookkeeping [] s) (item : ScheduleItem) : Bookkeeping [] (s.insertItem item) := by
  -- the new Steps stay pending until the promotion, so edges into them are harmless
  let P : List String → DagStrategy → Prop := fun news s' => Bookkeeping [] s' ∧
    ∀ d ∈ news, (s'.byDrv.lookup d).map (·.state) = some .pending
  let s₁ : DagStrategy := { s with jobMeta := s.jobMeta.insert item.jobId (item.repoId, item.evalId) }
  have hup : P (s₁.upsertAll item).1 (s₁.upsertAll item).2 := by
    refine upsertAll_rec (P := P) item ⟨h.withMeta _, by simp⟩ ?_
    rintro news s' drv - hnone ⟨hb, hnews⟩
    refine ⟨⟨hb.toCounters.insert hnone _ _, hb.toTokens.insert hnone _ _⟩, fun d hd => ?_⟩
    rw [HashMap.lookup_insert_eq]
    split
    · rfl
    · rename_i hne
      rcases List.mem_append.mp hd with hd | hd
      · exact hnews d hd
      · exact absurd (by simpa using hd) hne
  have hinsert : s.insertItem item = ((s₁.upsertAll item).2.modifyStep item.headDrv.drvPath
    (·.linkJob item.jobId)).buildEdgesFor (s₁.upsertAll item).1 (inputsByDrv item) := rfl
  rw [hinsert]
  refine (buildEdgesFor_rec (P := P (s₁.upsertAll item).1) ?_ ?_).1
  · refine ⟨⟨?_, ?_⟩, fun d hd => ?_⟩
    · exact hup.1.toCounters.modifySame (f := (·.linkJob item.jobId)) (fun _ => rfl) (fun _ => rfl) (fun _ => rfl) _
    · exact hup.1.toTokens.modify (f := (·.linkJob item.jobId)) (fun _ => rfl) _
    · exact (HashMap.map_modify_of_view (f := (·.linkJob item.jobId)) (g := Step.state)
        (fun _ => rfl) _ _).trans (hup.2 d hd)
  · rintro s' d inputs input hd - - ⟨hb, hnews⟩
    obtain ⟨st, hl, hp⟩ := Option.map_eq_some_iff.mp (hnews d hd)
    have hview : ∀ k, ((addEdge d s' input).byDrv.lookup k).map tokenView
        = (s'.byDrv.lookup k).map tokenView :=
      map_addEdge_of_view (fun _ => rfl) (fun _ _ => rfl) d input s'
    refine ⟨⟨hb.toCounters.addEdge hl hp input, hb.toTokens.congr hview ?_ ?_ ?_ ?_⟩, ?_⟩
    · intro t
      rw [addEdge_frame (f := (·.tokenToDrv)) fun _ _ _ => rfl]
    · exact addEdge_frame (f := (·.nextToken)) (fun _ _ _ => rfl) d input s'
    · intro t
      rw [addEdge_frame (f := (·.wfq)) fun _ _ _ => rfl]
    · intro t
      rw [addEdge_frame (f := (·.wfq)) fun _ _ _ => rfl]
    · intro k hk
      exact (map_addEdge_of_view (v := Step.state) (fun _ => rfl) (fun _ _ => rfl) d input s' k).trans
        (hnews k hk)

theorem known_token (h : Bookkeeping owed s) (t : DispatchToken) (d : String)
    (ht : s.tokenToDrv.lookup t = some d) : ∃ st, s.byDrv.lookup d = some st := by
  obtain ⟨st, hl, -⟩ := h.of_token ht
  exact ⟨st, hl⟩

theorem dispatch (h : Bookkeeping [] s) : Bookkeeping [] s.dispatch.2 := by
  have hspec := dispatch_spec s h.known_token
  cases hres : s.dispatch with
  | mk o s' =>
    rw [hres] at hspec
    cases hspec with
    | idle hc _ => exact ⟨h.toCounters.of_byDrv rfl, h.toTokens.swallowed hc⟩
    | run hc hd ht hl =>
      have htok := h.toTokens.swallowed hc
      have hready := htok.ready_of_pop hd ht hl
      refine ⟨h.toCounters.modify rfl hl rfl rfl ?_ fun _ => ?_, htok.run hd ht hl⟩
      · rw [hready]
        rfl
      · exact h.live_zero _ _ hl (by rw [hready]; rfl)

/-- Closing a pending Step without success. -/
theorem retire (h : Bookkeeping [] s) {d : String} {st : Step} {x : StepState}
    (hl : s.byDrv.lookup d = some st) (hnr : st.state ≠ .running)
    (hns : st.state.isSuccessfulTerminal = false) (hx : x.isTerminal = true)
    (hxs : x.isSuccessfulTerminal = false) : Bookkeeping [] (s.retire d x) := by
  have hlive := StepState.isLive_eq_false_of_isTerminal hx
  refine ⟨h.toCounters.modify rfl hl rfl rfl (hxs.trans hns.symm) fun hz => ?_,
    h.toTokens.retire hl hlive hnr⟩
  rw [Step.close_state, hlive] at hz
  exact absurd hz (by simp)

/-- Whatever a cascade skips was pending: it waits for a Step that has not succeeded. -/
theorem pending_of_cascaded (h : Bookkeeping [] s) {fromDrv : String} {st₀ : Step}
    {sk : List String} {out : List CascadedSkip} (hl₀ : s.byDrv.lookup fromDrv = some st₀)
    (hns : st₀.state.isSuccessfulTerminal = false) (hc : Cascaded s fromDrv sk out s') :
    ∀ d ∈ sk, ∃ st, s.byDrv.lookup d = some st ∧ st.state = .pending := by
  intro d hd
  obtain ⟨st, hl, hopen⟩ := hc.isOpen d hd
  refine ⟨st, hl, ?_⟩
  obtain ⟨p, hp, stp, hlp, hmem⟩ := hc.cause hd
  have hnsp : stp.state.isSuccessfulTerminal = false := by
    rcases hp with rfl | hp
    · rw [hl₀, Option.some.injEq] at hlp
      exact hlp ▸ hns
    · obtain ⟨st', hl', hopen'⟩ := hc.isOpen p hp
      rw [hl', Option.some.injEq] at hlp
      exact hlp ▸ StepState.isSuccessfulTerminal_eq_false_of_open hopen'
  exact h.toCounters.pending_of_openEdges hl (Counters.openEdges_pos hlp hmem hnsp) hopen

theorem skipAll (h : Bookkeeping [] s) {sk : List String} (hnd : sk.Nodup)
    (hp : ∀ d ∈ sk, ∃ st, s.byDrv.lookup d = some st ∧ st.state = .pending) :
    Bookkeeping [] (s.skipAll sk) := by
  induction sk using List.reverseRecOn with
  | nil => exact h
  | append_singleton sk d ih =>
    rw [List.nodup_append] at hnd
    have hd : d ∉ sk := fun hm => hnd.2.2 d hm d (by simp) rfl
    have ih := ih hnd.1 fun d' hd' => hp d' (by simp [hd'])
    obtain ⟨st, hl, hst⟩ := hp d (by simp)
    have hl' : (s.skipAll sk).byDrv.lookup d = some st := by
      rw [lookup_skipAll, if_neg hd, hl]
    rw [skipAll_concat]
    exact ih.retire hl' (by rw [hst]; decide) (by rw [hst]; rfl) rfl rfl

theorem cascadeSkip (h : Bookkeeping [] s) {fromDrv : String} {st₀ : Step}
    (hl₀ : s.byDrv.lookup fromDrv = some st₀) (hns : st₀.state.isSuccessfulTerminal = false) :
    Bookkeeping [] (s.cascadeSkip fromDrv).2 := by
  obtain ⟨sk, out, s', heq, hc⟩ := cascadeSkip_spec s fromDrv
  rw [heq, hc.state]
  exact h.skipAll hc.nodup (h.pending_of_cascaded hl₀ hns hc)

theorem decrementRdeps {rdeps : List String} (h : Bookkeeping rdeps s) :
    Bookkeeping [] (s.decrementRdeps rdeps) := by
  induction rdeps generalizing s with
  | nil => exact h
  | cons r rdeps ih => exact ih ⟨h.toCounters.pay, h.toTokens.modify (f := (·.waitLess)) (fun _ => rfl) r⟩

end Bookkeeping

/-! ## Complete and cancel -/

@[simp]
theorem lookup_closeToken (s : DagStrategy) (token : DispatchToken) (k d : String) (x : StepState) :
    (s.closeToken token k x).byDrv.lookup d
      = if d = k then (s.byDrv.lookup k).map (·.close x) else s.byDrv.lookup d :=
  HashMap.lookup_modify _ _ _ _

/-- **Inversion of `complete`.** An unknown token does nothing; a known one closes its Step and
    then either pays its rdeps and promotes, or cascades. -/
inductive CompleteOutcome (s : DagStrategy) (token : DispatchToken) (status : JobStatus) :
    CompletionEffects × DagStrategy → Prop
  | unknown : s.tokenToDrv.lookup token = none → CompleteOutcome s token status ({}, s)
  | succeeded {d : String} {step : Step} : s.tokenToDrv.lookup token = some d →
      s.byDrv.lookup d = some step → status.isSuccess = true →
      CompleteOutcome s token status
        ({ repoId := s.wfq.inFlight.lookup token
           cascadedSkips := []
           aliasCompletions := s.aliasesFor step.headJobs },
          ((s.closeToken token d (.fromStatus status)).decrementRdeps step.rdeps).promoteReadySteps)
  | failed {d : String} {step : Step} {sk : List String} {out : List CascadedSkip}
      {s' : DagStrategy} : s.tokenToDrv.lookup token = some d →
      s.byDrv.lookup d = some step → status.isSuccess = false →
      Cascaded (s.closeToken token d (.fromStatus status)) d sk out s' →
      CompleteOutcome s token status
        ({ repoId := s.wfq.inFlight.lookup token
           cascadedSkips := out
           aliasCompletions := s.aliasesFor step.headJobs }, s')

theorem complete_spec (s : DagStrategy) (token : DispatchToken) (status : JobStatus)
    (hknown : ∀ t d, s.tokenToDrv.lookup t = some d → ∃ st, s.byDrv.lookup d = some st) :
    CompleteOutcome s token status (s.complete token status) := by
  unfold complete
  cases ht : s.tokenToDrv.lookup token with
  | none => exact .unknown ht
  | some d =>
    obtain ⟨step, hl⟩ := hknown token d ht
    simp only [hl, StepState.isSuccessfulTerminal_fromStatus]
    cases hs : status.isSuccess with
    | true =>
      have hmeta : (((s.closeToken token d (.fromStatus status)).decrementRdeps
          step.rdeps).promoteReadySteps).jobMeta = s.jobMeta := by
        rw [promoteReadySteps_jobMeta, decrementRdeps_frame (·.jobMeta) fun _ _ _ => rfl]
        rfl
      have := CompleteOutcome.succeeded ht hl hs
      simp only [aliasesFor] at this ⊢
      rw [← hmeta] at this
      exact this
    | false =>
      obtain ⟨sk, out, s', heq, hc⟩ := cascadeSkip_spec (s.closeToken token d (.fromStatus status)) d
      have hmeta : s'.jobMeta = s.jobMeta := by
        rw [hc.state, skipAll_jobMeta]
        rfl
      have := CompleteOutcome.failed ht hl hs hc
      simp only [aliasesFor] at this ⊢
      rw [← hmeta] at this
      simp only [Bool.false_eq_true, if_false, heq]
      exact this

theorem Bookkeeping.open_of_token (h : Bookkeeping [] s) {token : DispatchToken} {d : String}
    {step : Step} (ht : s.tokenToDrv.lookup token = some d) (hl : s.byDrv.lookup d = some step) :
    step.inFlightToken = some token ∧ step.state.isTerminal = false := by
  obtain ⟨st, hl', htok, hlive⟩ := h.of_token ht
  obtain rfl : st = step := by rw [hl] at hl'; exact (Option.some.inj hl').symm
  exact ⟨htok, StepState.isTerminal_eq_false_of_isLive hlive⟩

theorem Bookkeeping.closeToken_tokens (h : Bookkeeping [] s) {token : DispatchToken} {d : String}
    {step : Step} {x : StepState} (ht : s.tokenToDrv.lookup token = some d)
    (hl : s.byDrv.lookup d = some step) (hx : x.isTerminal = true) :
    Tokens (s.closeToken token d x) := by
  obtain ⟨htok, -⟩ := h.open_of_token ht hl
  refine h.toTokens.close hl (StepState.isLive_eq_false_of_isTerminal hx) ?_ (fun _ => rfl) ?_
  · intro t
    rw [HashMap.lookup_erase_eq, htok]
    simp [eq_comm]
  · intro t
    rw [WfqCore.complete, HashMap.lookup_erase_eq, htok]
    simp [eq_comm]

/-- A Step that ends without success leaves no counter to pay. -/
theorem Bookkeeping.closeToken (h : Bookkeeping [] s) {token : DispatchToken} {d : String}
    {step : Step} {x : StepState} (ht : s.tokenToDrv.lookup token = some d)
    (hl : s.byDrv.lookup d = some step) (hx : x.isTerminal = true)
    (hxs : x.isSuccessfulTerminal = false) : Bookkeeping [] (s.closeToken token d x) := by
  obtain ⟨-, hopen⟩ := h.open_of_token ht hl
  refine ⟨h.toCounters.modify rfl hl rfl rfl ?_ fun hz => ?_, h.closeToken_tokens ht hl hx⟩
  · rw [Step.close_state, hxs, StepState.isSuccessfulTerminal_eq_false_of_open hopen]
  · rw [Step.close_state, StepState.isLive_eq_false_of_isTerminal hx] at hz
    exact absurd hz (by simp)

/-- A failed completion skips pending Steps only. -/
theorem Bookkeeping.pending_of_failed (h : Bookkeeping [] s) {token : DispatchToken} {d : String}
    {step : Step} {status : JobStatus} {sk : List String} {out : List CascadedSkip}
    (ht : s.tokenToDrv.lookup token = some d) (hl : s.byDrv.lookup d = some step)
    (hs : status.isSuccess = false)
    (hc : Cascaded (s.closeToken token d (.fromStatus status)) d sk out s') :
    ∀ k ∈ sk, ∃ st, (s.closeToken token d (.fromStatus status)).byDrv.lookup k = some st ∧
      st.state = .pending := by
  have hx : (StepState.fromStatus status).isSuccessfulTerminal = false :=
    (StepState.isSuccessfulTerminal_fromStatus status).trans hs
  have hclosed : (s.closeToken token d (.fromStatus status)).byDrv.lookup d
      = some (step.close (.fromStatus status)) := by
    rw [lookup_closeToken, if_pos rfl, hl]
    rfl
  exact (h.closeToken ht hl (StepState.isTerminal_fromStatus status) hx).pending_of_cascaded
    hclosed hx hc

theorem Bookkeeping.complete (h : Bookkeeping [] s) (token : DispatchToken) (status : JobStatus) :
    Bookkeeping [] (s.complete token status).2 := by
  have hspec := complete_spec s token status h.known_token
  have hxt := StepState.isTerminal_fromStatus status
  cases hres : s.complete token status with
  | mk effects s' =>
    rw [hres] at hspec
    cases hspec with
    | unknown _ => exact h
    | succeeded ht hl hs =>
      have hx : (StepState.fromStatus status).isSuccessfulTerminal = true :=
        (StepState.isSuccessfulTerminal_fromStatus status).trans hs
      refine Bookkeeping.promoteReadySteps (Bookkeeping.decrementRdeps ⟨?_, ?_⟩)
      · exact h.toCounters.closeSuccess rfl hl (h.open_of_token ht hl).2 hx
      · exact h.closeToken_tokens ht hl hxt
    | failed ht hl hs hc =>
      have hx : (StepState.fromStatus status).isSuccessfulTerminal = false :=
        (StepState.isSuccessfulTerminal_fromStatus status).trans hs
      rw [hc.state]
      exact (h.closeToken ht hl hxt hx).skipAll hc.nodup (h.pending_of_failed ht hl hs hc)

theorem findHead_eq_some {j : JobId} {d : String} {step : Step} (h : s.findHead j = some (d, step)) :
    s.byDrv.lookup d = some step ∧ j ∈ step.headJobs := by
  unfold findHead at h
  obtain ⟨⟨d', st⟩, hfind, heq⟩ := Option.map_eq_some_iff.mp h
  simp only [Prod.mk.injEq] at heq
  obtain ⟨rfl, rfl⟩ := heq
  exact ⟨HashMap.mem_entries_iff.mp (List.mem_of_find?_eq_some hfind),
    by simpa using List.find?_some hfind⟩

theorem findHead_eq_none_iff {j : JobId} :
    s.findHead j = none ↔ ∀ d st, s.byDrv.lookup d = some st → j ∉ st.headJobs := by
  unfold findHead
  rw [Option.map_eq_none_iff, List.find?_eq_none]
  constructor
  · intro h d st hl
    simpa using h ⟨d, st⟩ (HashMap.mem_entries_iff.mpr hl)
  · rintro h ⟨d, st⟩ hmem
    simpa using h d st (HashMap.mem_entries_iff.mp hmem)

/-- **Inversion of one iteration of `cancel_eval`.** -/
inductive CancelOutcome (s : DagStrategy) (evalId : EvalId) (j : JobId) :
    List CascadedSkip × DagStrategy → Prop
  | gone : s.findHead j = none → s.jobMeta.lookup j = none → CancelOutcome s evalId j ([], s)
  | orphaned {owner : RepoId × EvalId} : s.findHead j = none → s.jobMeta.lookup j = some owner →
      CancelOutcome s evalId j
        ([{ jobId := j, evalId := owner.2, repoId := owner.1, reasonDrv := cancelReason owner.2 }],
          s.forgetJob j)
  | cancelled {d : String} {step : Step} {sk : List String} {out : List CascadedSkip}
      {s' : DagStrategy} : s.findHead j = some (d, step) →
      step.state = .pending ∨ step.state = .ready → Cascaded (s.cancelHead d) d sk out s' →
      CancelOutcome s evalId j
        (s.directSkips evalId step.repoId step.headJobs
          ++ out.map (fun skip => { skip with reasonDrv := cancelReason evalId }), s'.forgetJob j)
  | kept {d : String} {step : Step} : s.findHead j = some (d, step) →
      step.state = .running ∨ step.state.isTerminal = true →
      CancelOutcome s evalId j ([], s.forgetJob j)

theorem cancelJob_spec (s : DagStrategy) (evalId : EvalId) (j : JobId) :
    CancelOutcome s evalId j (cancelJob evalId s j) := by
  unfold cancelJob
  cases hf : s.findHead j with
  | none =>
    cases hm : s.jobMeta.lookup j with
    | none => exact .gone hf hm
    | some owner => exact .orphaned hf hm
  | some p =>
    obtain ⟨d, step⟩ := p
    obtain ⟨sk, out, s', heq, hc⟩ := cascadeSkip_spec (s.cancelHead d) d
    cases hst : step.state with
    | pending =>
      simp only [hst, heq]
      exact .cancelled hf (Or.inl hst) hc
    | ready =>
      simp only [hst, heq]
      exact .cancelled hf (Or.inr hst) hc
    | running =>
      simp only [hst]
      exact .kept hf (Or.inl hst)
    | success | cached | failure | cancelled | skipped =>
      simp only [hst]
      exact .kept hf (Or.inr (by rw [hst]; rfl))

/-- Induction over the loop of `cancel_eval`. -/
theorem cancelEval_rec {P : List CascadedSkip → DagStrategy → Prop} {evalId : EvalId} (h₀ : P [] s)
    (hstep : ∀ skips s' j, j ∈ s.jobsOf evalId → P skips s' →
      P (skips ++ (cancelJob evalId s' j).1) (cancelJob evalId s' j).2) :
    P (s.cancelEval evalId).1 (s.cancelEval evalId).2 := by
  unfold cancelEval
  refine List.foldlRecOn (motive := fun acc : List CascadedSkip × DagStrategy => P acc.1 acc.2)
    _ _ h₀ ?_
  rintro ⟨skips, s'⟩ hP j hj
  exact hstep skips s' j hj hP

/-- A cancellation leaves the core alone: it deletes from the queues lazily. -/
theorem cancelEval_core (s : DagStrategy) (evalId : EvalId) :
    (s.cancelEval evalId).2.wfq = s.wfq ∧ (s.cancelEval evalId).2.nextToken = s.nextToken := by
  refine cancelEval_rec (P := fun _ s' => s'.wfq = s.wfq ∧ s'.nextToken = s.nextToken)
    ⟨rfl, rfl⟩ ?_
  intro _ s' j _ ih
  rw [← ih.1, ← ih.2]
  have hspec := cancelJob_spec s' evalId j
  cases hres : cancelJob evalId s' j with
  | mk skips s'' =>
    rw [hres] at hspec
    cases hspec with
    | gone _ _ => exact ⟨rfl, rfl⟩
    | orphaned _ _ => exact ⟨rfl, rfl⟩
    | kept _ _ => exact ⟨rfl, rfl⟩
    | @cancelled d step sk out s₁ hf hp hc =>
      have hwfq : s₁.wfq = s'.wfq := by
        rw [hc.state, skipAll_wfq]
        rfl
      have hnext : s₁.nextToken = s'.nextToken := by
        rw [hc.state, skipAll_nextToken]
        rfl
      exact ⟨hwfq, hnext⟩

@[simp]
theorem lookup_cancelHead (s : DagStrategy) (k d : String) :
    (s.cancelHead k).byDrv.lookup d
      = if d = k then (s.byDrv.lookup k).map fun st => (st.close .cancelled).unlinkJobs
        else s.byDrv.lookup d := by
  unfold cancelHead
  rw [lookup_modifyStep, lookup_retire, lookup_retire]
  by_cases hd : d = k
  · subst hd
    simp [Function.comp_def]
  · simp [hd]

theorem Bookkeeping.cancelHead (h : Bookkeeping [] s) {d : String} {st : Step}
    (hl : s.byDrv.lookup d = some st) (hp : st.state = .pending ∨ st.state = .ready) :
    Bookkeeping [] (s.cancelHead d) := by
  have hret : Bookkeeping [] (s.retire d .cancelled) := by
    refine h.retire hl ?_ ?_ rfl rfl
    · rcases hp with hp | hp <;> rw [hp] <;> decide
    · rcases hp with hp | hp <;> rw [hp] <;> rfl
  exact ⟨hret.toCounters.modifySame (f := (·.unlinkJobs)) (fun _ => rfl) (fun _ => rfl) (fun _ => rfl) d,
    hret.toTokens.modify (f := (·.unlinkJobs)) (fun _ => rfl) d⟩

/-- The cancelled head has not succeeded, so the cascade behind it skips pending Steps only. -/
theorem Bookkeeping.pending_of_cancelled (h : Bookkeeping [] s) {d : String} {st : Step}
    {sk : List String} {out : List CascadedSkip} (hl : s.byDrv.lookup d = some st)
    (hp : st.state = .pending ∨ st.state = .ready) (hc : Cascaded (s.cancelHead d) d sk out s') :
    ∀ d' ∈ sk, ∃ st', (s.cancelHead d).byDrv.lookup d' = some st' ∧ st'.state = .pending := by
  have hclosed : (s.cancelHead d).byDrv.lookup d = some (st.close .cancelled).unlinkJobs := by
    rw [lookup_cancelHead, if_pos rfl, hl]
    rfl
  exact (h.cancelHead hl hp).pending_of_cascaded hclosed rfl hc

theorem Bookkeeping.cancelJob (h : Bookkeeping [] s) (evalId : EvalId) (j : JobId) :
    Bookkeeping [] (DagStrategy.cancelJob evalId s j).2 := by
  have hspec := cancelJob_spec s evalId j
  cases hres : DagStrategy.cancelJob evalId s j with
  | mk skips s' =>
    rw [hres] at hspec
    cases hspec with
    | gone _ _ => exact h
    | orphaned _ _ => exact h.withMeta _
    | kept _ _ => exact h.withMeta _
    | cancelled hf hp hc =>
      obtain ⟨hl, -⟩ := findHead_eq_some hf
      refine Bookkeeping.withMeta ?_ _
      rw [hc.state]
      exact (h.cancelHead hl hp).skipAll hc.nodup (h.pending_of_cancelled hl hp hc)

theorem Bookkeeping.cancelEval (h : Bookkeeping [] s) (evalId : EvalId) :
    Bookkeeping [] (s.cancelEval evalId).2 :=
  cancelEval_rec (P := fun _ s' => Bookkeeping [] s') h fun _ _ j _ ih => ih.cancelJob evalId j

/-- One call keeps the books. -/
theorem Does.bookkeeping {op : Op} {a : Answer} (hd : Does s op a s') (h : Bookkeeping [] s) :
    Bookkeeping [] s' := by
  cases hd with
  | setWeight r w => exact h.setWeight r w
  | enqueue item hs => exact ((h.insertItem item).shuffle hs).promoteReadySteps
  | dispatch => exact h.dispatch
  | complete t st => exact h.complete t st
  | cancelEval e => exact h.cancelEval e

/-- **Every reachable state keeps the books.** -/
theorem Reachable.bookkeeping {cap : Option ℕ} (hr : Reachable cap s) : Bookkeeping [] s := by
  induction hr with
  | new => exact .new cap
  | step _ hs hd ih => exact hd.bookkeeping (ih.shuffle hs)

/-! ## Nothing is left to promote -/

/-- No Step waits for a promotion: each operation that could free one promotes at its end. -/
def Settled (s : DagStrategy) : Prop :=
  ∀ d st, s.byDrv.lookup d = some st → st.promotable = false

theorem Step.promotable_iff {st : Step} :
    st.promotable = true ↔ st.state = .pending ∧ st.depsUnfinished = 0 := by
  simp [Step.promotable]

theorem promotable_eq_false_of_state {st : Step} (h : st.state ≠ .pending) :
    st.promotable = false := by
  rw [← Bool.not_eq_true, Step.promotable_iff]
  exact fun hp => h hp.1

theorem settled_promoteReadySteps (s : DagStrategy) : Settled s.promoteReadySteps := by
  intro d st hl
  obtain ⟨token, ht⟩ := lookup_promoteReadySteps s d
  rw [ht] at hl
  obtain ⟨st', -, rfl⟩ := Option.map_eq_some_iff.mp hl
  split
  · exact promotable_eq_false_of_state (by simp)
  · rename_i hp
    simpa using hp

/-- Closing, skipping or starting Steps settles nothing anew. -/
theorem Settled.of_lookup (h : Settled s)
    (hl : ∀ d st', s'.byDrv.lookup d = some st' → st'.state ≠ .pending ∨
      ∃ st, s.byDrv.lookup d = some st ∧ st'.state = st.state ∧
        st'.depsUnfinished = st.depsUnfinished) : Settled s' := by
  intro d st' hd
  rcases hl d st' hd with hp | ⟨st, hst, h₁, h₂⟩
  · exact promotable_eq_false_of_state hp
  · have := h d st hst
    rw [← Bool.not_eq_true, Step.promotable_iff] at this ⊢
    rwa [h₁, h₂]

theorem Settled.skipAll (h : Settled s) (sk : List String) : Settled (s.skipAll sk) := by
  refine h.of_lookup fun d st' hd => ?_
  rw [lookup_skipAll] at hd
  split at hd
  · obtain ⟨st, -, rfl⟩ := Option.map_eq_some_iff.mp hd
    exact Or.inl (by simp)
  · exact Or.inr ⟨st', hd, rfl, rfl⟩

theorem Settled.cancelHead (h : Settled s) (k : String) : Settled (s.cancelHead k) := by
  refine h.of_lookup fun d st' hd => ?_
  rw [lookup_cancelHead] at hd
  split at hd
  · obtain ⟨st, -, rfl⟩ := Option.map_eq_some_iff.mp hd
    exact Or.inl (by simp)
  · exact Or.inr ⟨st', hd, rfl, rfl⟩

theorem Settled.cancelJob (h : Settled s) (evalId : EvalId) (j : JobId) :
    Settled (DagStrategy.cancelJob evalId s j).2 := by
  have hspec := cancelJob_spec s evalId j
  cases hres : DagStrategy.cancelJob evalId s j with
  | mk skips s' =>
    rw [hres] at hspec
    cases hspec with
    | gone _ _ => exact h
    | orphaned _ _ => exact h
    | kept _ _ => exact h
    | cancelled _ _ hc =>
      rw [hc.state]
      exact (h.cancelHead _).skipAll _

theorem Settled.dispatch (h : Settled s) (hb : Bookkeeping [] s) : Settled s.dispatch.2 := by
  have hspec := dispatch_spec s hb.known_token
  cases hres : s.dispatch with
  | mk o s' =>
    rw [hres] at hspec
    cases hspec with
    | idle _ _ => exact h
    | run _ _ _ _ =>
      refine h.of_lookup fun d st' hd => ?_
      rcases HashMap.lookup_modify_cases hd with ⟨-, st, -, rfl⟩ | ⟨-, hl⟩
      · exact Or.inl (by simp)
      · exact Or.inr ⟨st', hl, rfl, rfl⟩

theorem Settled.complete (h : Settled s) (hb : Bookkeeping [] s) (token : DispatchToken)
    (status : JobStatus) : Settled (s.complete token status).2 := by
  have hspec := complete_spec s token status hb.known_token
  cases hres : s.complete token status with
  | mk effects s' =>
    rw [hres] at hspec
    cases hspec with
    | unknown _ => exact h
    | succeeded _ _ _ => exact settled_promoteReadySteps _
    | failed _ _ _ hc =>
      rw [hc.state]
      refine Settled.skipAll (h.of_lookup fun d st' hd => ?_) _
      rw [lookup_closeToken] at hd
      split at hd
      · obtain ⟨st, -, rfl⟩ := Option.map_eq_some_iff.mp hd
        refine Or.inl fun hp => ?_
        have := StepState.isTerminal_fromStatus status
        rw [Step.close_state] at hp
        rw [hp] at this
        exact absurd this (by decide)
      · exact Or.inr ⟨st', hd, rfl, rfl⟩

theorem Does.settled {op : Op} {a : Answer} (hd : Does s op a s') (hb : Bookkeeping [] s)
    (h : Settled s) : Settled s' := by
  cases hd with
  | setWeight r w => exact h
  | enqueue item hs => exact settled_promoteReadySteps _
  | dispatch => exact h.dispatch hb
  | complete t st => exact h.complete hb t st
  | cancelEval e =>
    exact cancelEval_rec (P := fun _ s' => Settled s') h fun _ _ j _ ih => ih.cancelJob e j

theorem Settled.shuffle (h : Settled s) (hs : Shuffle s s') : Settled s' := by
  intro d st hl
  rw [hs.step] at hl
  exact h d st hl

theorem Reachable.settled {cap : Option ℕ} (hr : Reachable cap s) : Settled s := by
  induction hr with
  | new => intro d st hl; exact absurd hl (by simp [DagStrategy.new])
  | step hr hs hd ih => exact hd.settled (hr.bookkeeping.shuffle hs) (ih.shuffle hs)

/-! ## What the books say -/

/-- What one success does to each Step: close it if it is the one, pay it, promote it. -/
theorem lookup_succeeded (s : DagStrategy) (token : DispatchToken) (d k : String) (x : StepState)
    (rdeps : List String) : ∃ fresh,
      (((s.closeToken token d x).decrementRdeps rdeps).promoteReadySteps).byDrv.lookup k
        = (s.byDrv.lookup k).map fun st =>
            let st₁ := if k = d then st.close x else st
            let st₂ := { st₁ with depsUnfinished := st₁.depsUnfinished - rdeps.count k }
            if st₂.promotable then st₂.makeReady fresh else st₂ := by
  obtain ⟨fresh, hp⟩ := lookup_promoteReadySteps ((s.closeToken token d x).decrementRdeps rdeps) k
  refine ⟨fresh, ?_⟩
  rw [hp, lookup_decrementRdeps, lookup_closeToken]
  by_cases hk : k = d
  · subst hk
    simp [Function.comp_def]
  · simp [hk, Function.comp_def]

/-- Completing one Step leaves every other Step that is ready or running alone. -/
theorem Bookkeeping.complete_keeps_live (h : Bookkeeping [] s) (token : DispatchToken)
    (status : JobStatus) {k : String} {st : Step} (hl : s.byDrv.lookup k = some st)
    (hlive : st.state.isLive = true) (hne : st.inFlightToken ≠ some token) :
    ∃ st', (s.complete token status).2.byDrv.lookup k = some st' ∧ st'.state = st.state := by
  have hspec := complete_spec s token status h.known_token
  have hother : ∀ {d}, s.tokenToDrv.lookup token = some d → k ≠ d := by
    rintro d ht rfl
    obtain ⟨st', hl', htok, -⟩ := h.of_token ht
    rw [hl, Option.some.injEq] at hl'
    exact hne (hl' ▸ htok)
  have hpend : st.state ≠ .pending := by
    intro hp
    rw [hp] at hlive
    exact absurd hlive (by decide)
  cases hres : s.complete token status with
  | mk effects s' =>
    rw [hres] at hspec
    cases hspec with
    | unknown _ => exact ⟨st, hl, rfl⟩
    | @succeeded d step ht hld hs =>
      obtain ⟨fresh, hlook⟩ := lookup_succeeded s token d k (.fromStatus status) step.rdeps
      rw [hl, Option.map_some] at hlook
      refine ⟨_, hlook, ?_⟩
      simp only [hother ht, if_false]
      rw [if_neg (by rw [Bool.not_eq_true]; exact promotable_eq_false_of_state hpend)]
    | @failed d step sk out _ ht hld hs hc =>
      have hk : k ∉ sk := by
        intro hmem
        obtain ⟨st', hl', hp⟩ := h.pending_of_failed ht hld hs hc k hmem
        rw [lookup_closeToken, if_neg (hother ht), hl, Option.some.injEq] at hl'
        exact hpend (hl' ▸ hp)
      rw [hc.state, lookup_skipAll, if_neg hk, lookup_closeToken, if_neg (hother ht)]
      exact ⟨st, hl, rfl⟩

/-- A closed Step stays closed under a cancellation. -/
theorem cancelJob_keeps_terminal (evalId : EvalId) (j : JobId) {k : String} {st : Step}
    (hl : s.byDrv.lookup k = some st) (hterm : st.state.isTerminal = true) :
    ∃ st', (DagStrategy.cancelJob evalId s j).2.byDrv.lookup k = some st' ∧ st'.state = st.state := by
  have hspec := cancelJob_spec s evalId j
  cases hres : DagStrategy.cancelJob evalId s j with
  | mk skips s' =>
    rw [hres] at hspec
    cases hspec with
    | gone _ _ => exact ⟨st, hl, rfl⟩
    | orphaned _ _ => exact ⟨st, hl, rfl⟩
    | kept _ _ => exact ⟨st, hl, rfl⟩
    | @cancelled d step sk out s₁ hf hp hc =>
      obtain ⟨hld, -⟩ := findHead_eq_some hf
      have hkd : k ≠ d := by
        rintro rfl
        rw [hld, Option.some.injEq] at hl
        subst hl
        rcases hp with hp | hp <;> rw [hp] at hterm <;> exact absurd hterm (by decide)
      have hk : k ∉ sk := by
        intro hmem
        obtain ⟨st', hl', hopen⟩ := hc.isOpen k hmem
        rw [lookup_cancelHead, if_neg hkd, hl, Option.some.injEq] at hl'
        rw [← hl', hterm] at hopen
        exact absurd hopen (by simp)
      refine ⟨st, ?_, rfl⟩
      rw [show (s₁.forgetJob j).byDrv = s₁.byDrv from rfl, hc.state, lookup_skipAll, if_neg hk,
        lookup_cancelHead, if_neg hkd, hl]

/-- One iteration of a cancellation turns no ready or running Step into a skipped one. -/
theorem Bookkeeping.cancelJob_keeps_live (h : Bookkeeping [] s) (evalId : EvalId) (j : JobId)
    {k : String} {st : Step} (hl : s.byDrv.lookup k = some st) (hlive : st.state.isLive = true) :
    ∃ st', (DagStrategy.cancelJob evalId s j).2.byDrv.lookup k = some st' ∧
      (st'.state = st.state ∨ (st.state = .ready ∧ st'.state = .cancelled)) := by
  have hspec := cancelJob_spec s evalId j
  cases hres : DagStrategy.cancelJob evalId s j with
  | mk skips s' =>
    rw [hres] at hspec
    cases hspec with
    | gone _ _ => exact ⟨st, hl, Or.inl rfl⟩
    | orphaned _ _ => exact ⟨st, hl, Or.inl rfl⟩
    | kept _ _ => exact ⟨st, hl, Or.inl rfl⟩
    | @cancelled d step sk out s₁ hf hp hc =>
      obtain ⟨hld, -⟩ := findHead_eq_some hf
      have hlook : (s₁.forgetJob j).byDrv.lookup k
          = if k ∈ sk then ((s.cancelHead d).byDrv.lookup k).map (·.close .skipped)
            else (s.cancelHead d).byDrv.lookup k := by
        rw [show (s₁.forgetJob j).byDrv = s₁.byDrv from rfl, hc.state, lookup_skipAll]
      have hk : k ∉ sk := by
        intro hmem
        obtain ⟨st', hl', hp'⟩ := h.pending_of_cancelled hld hp hc k hmem
        rw [lookup_cancelHead] at hl'
        split at hl'
        · obtain ⟨st'', -, rfl⟩ := Option.map_eq_some_iff.mp hl'
          exact absurd hp' (by simp)
        · rw [hl, Option.some.injEq] at hl'
          subst hl'
          rw [hp'] at hlive
          exact absurd hlive (by decide)
      rw [hlook, if_neg hk, lookup_cancelHead]
      split
      · rename_i hkd
        subst hkd
        rw [hld, Option.some.injEq] at hl
        subst hl
        refine ⟨_, by rw [hld]; rfl, Or.inr ⟨?_, rfl⟩⟩
        rcases hp with hp | hp
        · rw [hp] at hlive
          exact absurd hlive (by decide)
        · exact hp
      · exact ⟨st, hl, Or.inl rfl⟩

theorem Bookkeeping.cancelEval_keeps_live (h : Bookkeeping [] s) (evalId : EvalId) {k : String}
    {st : Step} (hl : s.byDrv.lookup k = some st) (hlive : st.state.isLive = true) :
    ∃ st', (s.cancelEval evalId).2.byDrv.lookup k = some st' ∧
      (st'.state = st.state ∨ (st.state = .ready ∧ st'.state = .cancelled)) := by
  suffices hsuff : Bookkeeping [] (s.cancelEval evalId).2 ∧
      ∃ st', (s.cancelEval evalId).2.byDrv.lookup k = some st' ∧
        (st'.state = st.state ∨ (st.state = .ready ∧ st'.state = .cancelled)) from hsuff.2
  refine cancelEval_rec (P := fun _ s' => Bookkeeping [] s' ∧ ∃ st', s'.byDrv.lookup k = some st' ∧
    (st'.state = st.state ∨ (st.state = .ready ∧ st'.state = .cancelled))) ⟨h, st, hl, Or.inl rfl⟩ ?_
  rintro skips s' j - ⟨hb, st', hl', hst⟩
  refine ⟨hb.cancelJob evalId j, ?_⟩
  rcases hst with hst | ⟨hready, hcanc⟩
  · obtain ⟨st'', hl'', hst''⟩ := hb.cancelJob_keeps_live evalId j hl' (hst ▸ hlive)
    exact ⟨st'', hl'', by rwa [hst] at hst''⟩
  · -- cancelled by an earlier iteration, and closed for good
    obtain ⟨st'', hl'', hst''⟩ := cancelJob_keeps_terminal evalId j hl' (by rw [hcanc]; rfl)
    exact ⟨st'', hl'', Or.inr ⟨hready, hst''.trans hcanc⟩⟩

/-- What the books say in the source's words. -/
structure BooksBalance (s : DagStrategy) : Prop where
  /-- `deps_unfinished` counts the recorded edges from Steps that have not succeeded. -/
  counters : ∀ d st, s.byDrv.lookup d = some st → st.depsUnfinished = s.openEdges d
  /-- `saturating_sub` in `complete` subtracts: every rdep counts its edges. -/
  noSaturation : ∀ token d st, s.tokenToDrv.lookup token = some d → s.byDrv.lookup d = some st →
    ∀ r st', s.byDrv.lookup r = some st' → st.rdeps.count r ≤ st'.depsUnfinished
  unblocked : ∀ d st, s.byDrv.lookup d = some st → st.state = .ready ∨ st.state = .running →
    st.depsUnfinished = 0
  tokens : ∀ token d, s.tokenToDrv.lookup token = some d ↔
    ∃ st, s.byDrv.lookup d = some st ∧ (st.state = .ready ∨ st.state = .running) ∧
      st.inFlightToken = some token
  hasToken : ∀ d st, s.byDrv.lookup d = some st → st.state = .ready ∨ st.state = .running →
    ∃ token, st.inFlightToken = some token
  injective : ∀ token token' d, s.tokenToDrv.lookup token = some d →
    s.tokenToDrv.lookup token' = some d → token = token'
  queuedOnce : ∀ d st token, s.byDrv.lookup d = some st → st.state = .ready →
    st.inFlightToken = some token → s.wfq.queuedCount token = 1
  /-- Any other queued token is stale. -/
  stale : ∀ token, 0 < s.wfq.queuedCount token → s.tokenToDrv.lookup token = none ∨
    ∃ d st, s.byDrv.lookup d = some st ∧ st.state = .ready ∧ st.inFlightToken = some token
  /-- `debug_assert_eq!(step.state, StepState::Ready)` in `dispatch`. -/
  assertion : ∀ dispatched s', s.dispatch = (some dispatched, s') →
    ∃ st, s.byDrv.lookup dispatched.drvPath = some st ∧ st.state = .ready
  /-- The two callers of `cascade_skip`. -/
  complete_skips : ∀ token status d st, s.byDrv.lookup d = some st →
    st.state = .ready ∨ st.state = .running → st.inFlightToken ≠ some token →
    ∃ st', (s.complete token status).2.byDrv.lookup d = some st' ∧ st'.state = st.state
  cancel_skips : ∀ evalId d st, s.byDrv.lookup d = some st →
    st.state = .ready ∨ st.state = .running →
    ∃ st', (s.cancelEval evalId).2.byDrv.lookup d = some st' ∧
      (st'.state = st.state ∨ (st.state = .ready ∧ st'.state = .cancelled))

theorem isLive_iff {st : StepState} : st.isLive = true ↔ st = .ready ∨ st = .running := by
  cases st <;> simp [StepState.isLive]

theorem Bookkeeping.ready_of_dispatch (h : Bookkeeping [] s) {dispatched : Dispatched}
    (hd : s.dispatch = (some dispatched, s')) :
    ∃ st, s.byDrv.lookup dispatched.drvPath = some st ∧ st.state = .ready ∧
      st.inFlightToken = some dispatched.token := by
  have hspec := dispatch_spec s h.known_token
  rw [hd] at hspec
  cases hspec with
  | @run c c' p d step hc hpop ht hl =>
    have hready := (h.toTokens.swallowed hc).ready_of_pop hpop ht hl
    refine ⟨step, ?_, hready, (h.open_of_token ht hl).1⟩
    rw [show (dispatchedOf p step).drvPath = step.drvPath from rfl, h.path d step hl, hl]

/-- **The books balance in every state any run can reach**, whatever order the maps are
    iterated in. -/
theorem books_always_balance {cap : Option ℕ} {s₀ : DagStrategy} (hr : Reachable cap s₀)
    (hs : Shuffle s₀ s) : BooksBalance s := by
  have h : Bookkeeping [] s := hr.bookkeeping.shuffle hs
  constructor
  · intro d st hl
    simpa using h.counter d st hl
  · intro token d st ht hl r st' hl'
    have hc := h.counter r st' hl'
    have hns := StepState.isSuccessfulTerminal_eq_false_of_open (h.open_of_token ht hl).2
    have hle := Counters.count_le_openEdges (r := r) hl hns
    simp only [List.count_nil] at hc
    omega
  · intro d st hl hst
    exact h.live_zero d st hl (isLive_iff.mpr hst)
  · intro token d
    rw [h.token token d]
    constructor
    · rintro ⟨st, hl, htok⟩
      refine ⟨st, hl, ?_, htok⟩
      rw [← isLive_iff, ← h.holds d st hl, htok]
      rfl
    · rintro ⟨st, hl, -, htok⟩
      exact ⟨st, hl, htok⟩
  · intro d st hl hst
    have hh := h.holds d st hl
    rw [isLive_iff.mpr hst] at hh
    exact Option.isSome_iff_exists.mp hh
  · intro token token' d ht ht'
    obtain ⟨st, hl, htok, -⟩ := h.of_token ht
    obtain ⟨st', hl', htok', -⟩ := h.of_token ht'
    rw [hl, Option.some.injEq] at hl'
    subst hl'
    rw [htok] at htok'
    exact Option.some.inj htok'
  · intro d st token hl hst htok
    have hq := h.queued token d st ((h.token token d).mpr ⟨st, hl, htok⟩) hl
    rwa [if_pos hst] at hq
  · intro token hq
    cases ht : s.tokenToDrv.lookup token with
    | none => exact Or.inl rfl
    | some d =>
      obtain ⟨st, hl, htok, -⟩ := h.of_token ht
      refine Or.inr ⟨d, st, hl, ?_, htok⟩
      by_contra hne
      have := h.queued token d st ht hl
      rw [if_neg hne] at this
      omega
  · intro dispatched s' hd
    obtain ⟨st, hl, hst, -⟩ := h.ready_of_dispatch hd
    exact ⟨st, hl, hst⟩
  · intro token status d st hl hst hne
    exact h.complete_keeps_live token status hl (isLive_iff.mpr hst) hne
  · intro evalId d st hl hst
    exact h.cancelEval_keeps_live evalId hl (isLive_iff.mpr hst)

/-! ## Concrete runs -/

/-- One call with the maps iterated in the order they are stored. -/
def apply (s : DagStrategy) : Op → Answer × DagStrategy
  | .setWeight repoId weight => (.unit, s.setWeight repoId weight)
  | .enqueue item => (.unit, s.enqueue item)
  | .dispatch => (.dispatched s.dispatch.1, s.dispatch.2)
  | .complete token status =>
    (.completed (s.complete token status).1, (s.complete token status).2)
  | .cancelEval evalId => (.cancelled (s.cancelEval evalId).1, (s.cancelEval evalId).2)

theorem does_apply (s : DagStrategy) (op : Op) : Does s op (s.apply op).1 (s.apply op).2 := by
  cases op with
  | setWeight r w => exact .setWeight r w
  | enqueue item => exact .enqueue item (.refl _)
  | dispatch => exact .dispatch
  | complete t st => exact .complete t st
  | cancelEval e => exact .cancelEval e

def runOps (s : DagStrategy) (ops : List Op) : DagStrategy :=
  ops.foldl (fun s op => (s.apply op).2) s

theorem Reachable.runOps {cap : Option ℕ} (h : Reachable cap s) (ops : List Op) :
    Reachable cap (s.runOps ops) :=
  List.foldlRecOn (motive := Reachable cap) _ _ h fun s' hs' op _ =>
    .step hs' (.refl _) (does_apply s' op)

/-- `b` waits twice for `a`; `a` is running. -/
def twoSteps : DagStrategy :=
  (DagStrategy.new none).runOps
    [.enqueue ⟨⟨1⟩, ⟨1⟩, ⟨1⟩, ⟨"a", none, [], []⟩, []⟩,
      .enqueue ⟨⟨1⟩, ⟨1⟩, ⟨2⟩, ⟨"b", none, [], ["a", "a"]⟩, []⟩, .dispatch]

theorem books_balance_while_running : BooksBalance twoSteps ∧ twoSteps.openEdges "b" = 2 := by
  have hr : Reachable none twoSteps := Reachable.new.runOps _
  exact ⟨books_always_balance hr (.refl _), by decide⟩

end DagStrategy

end Argunix.Sched
