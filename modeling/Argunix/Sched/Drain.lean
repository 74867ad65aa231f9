import Argunix.Lib.Acyclic
import Argunix.Sched.Loading

/-!
# A drained run has given every Job one verdict

Load the strategy, dispatch and complete until nothing is left. No Step can be forgotten: it
would be pending, so it would wait for a Step that has not succeeded; that Step is not closed
either (a failure closes everything behind it, `Sealed`), so it is pending too, and the inputs
would run in a circle.

No Job is told twice either: a Step is told once when it leaves the queue and its aliases once
when it ends, or all its Jobs once when it is skipped (`Draining.counts`).
-/

set_option autoImplicit false

namespace Argunix.Sched

open Argunix.Lib

namespace DagStrategy

variable {s s' : DagStrategy} {but : String → Prop}

/-! ## A failure closes what is behind it -/

/-- Whatever waits for a Step that ended without success is closed, but for the Steps excepted:
    those whose cascade has not run yet, or that were closed before their rdep was enqueued. -/
def Sealed (but : String → Prop) (s : DagStrategy) : Prop :=
  ∀ p r stp str, ¬ but p → s.byDrv.lookup p = some stp → stp.state.isTerminal = true →
    stp.state.isSuccessfulTerminal = false → r ∈ stp.rdeps → s.byDrv.lookup r = some str →
    str.state.isTerminal = true

/-- Closing one Step breaks the seal at that Step only. -/
theorem Sealed.close {k : String} {x : StepState} (h : Sealed but s)
    (hl : ∀ d, (s'.byDrv.lookup d).map (fun st => (st.state, st.rdeps))
      = (s.byDrv.lookup d).map fun st => (if d = k then x else st.state, st.rdeps))
    (hx : x.isTerminal = true) : Sealed (fun p => but p ∨ p = k) s' := by
  intro p r stp str hp hlp hterm hns hr hlr
  have h₁ := hl p
  rw [hlp, Option.map_some] at h₁
  obtain ⟨stp₀, hlp₀, he⟩ := Option.map_eq_some_iff.mp h₁.symm
  rw [not_or] at hp
  have hpk : p ≠ k := hp.2
  simp only [hpk, if_false, Prod.mk.injEq] at he
  have h₂ := hl r
  rw [hlr, Option.map_some] at h₂
  obtain ⟨str₀, hlr₀, he'⟩ := Option.map_eq_some_iff.mp h₂.symm
  simp only [Prod.mk.injEq] at he'
  rw [← he'.1]
  split
  · exact hx
  · exact h p r stp₀ str₀ hp.1 hlp₀ (he.1 ▸ hterm) (he.1 ▸ hns) (he.2 ▸ hr) hlr₀

/-- The cascade restores it. -/
theorem Sealed.cascade {k : String} {sk : List String} {out : List CascadedSkip}
    (h : Sealed (fun p => but p ∨ p = k) s) (hc : Cascaded s k sk out s') : Sealed but s' := by
  intro p r stp str hbut hlp hterm hns hr hlr
  rw [hc.state] at hlp hlr
  rw [lookup_skipAll] at hlp hlr
  -- an edge of the result is an edge before it
  have hedge : s.Edge p r := by
    split at hlp
    · obtain ⟨st, hl, rfl⟩ := Option.map_eq_some_iff.mp hlp
      exact ⟨st, hl, hr⟩
    · exact ⟨stp, hlp, hr⟩
  split at hlr
  · obtain ⟨st, -, rfl⟩ := Option.map_eq_some_iff.mp hlr
    rfl
  · rename_i hrsk
    by_cases hp : p = k ∨ p ∈ sk
    · rcases hc.closed p r str hp hedge hlr with ht | ht
      · exact ht
      · exact absurd ht hrsk
    · rw [not_or] at hp
      rw [if_neg hp.2] at hlp
      exact h p r stp str (not_or.mpr ⟨hbut, hp.1⟩) hlp hterm hns hr hlr

/-- Nothing that is closed is opened, nothing closes without success. -/
theorem Sealed.mono (h : Sealed but s)
    (hlinks : SameLinks s s')
    (hopen : ∀ d st st', s.byDrv.lookup d = some st → s'.byDrv.lookup d = some st' →
      (st.state.isTerminal = true → st'.state = st.state) ∧
      (st.state.isTerminal = false → st'.state.isTerminal = true →
        st'.state.isSuccessfulTerminal = true)) : Sealed but s' := by
  intro p r stp str hbut hlp hterm hns hr hlr
  obtain ⟨stp₀, hlp₀, hrp, -⟩ := hlinks.symm.lookup hlp
  obtain ⟨str₀, hlr₀, -, -⟩ := hlinks.symm.lookup hlr
  have hp := hopen p stp₀ stp hlp₀ hlp
  have hterm₀ : stp₀.state.isTerminal = true := by
    by_contra hno
    rw [hp.2 (by simpa using hno) hterm] at hns
    exact absurd hns (by simp)
  have heq := hp.1 hterm₀
  have htr := h p r stp₀ str₀ hbut hlp₀ hterm₀ (heq ▸ hns) (hrp.symm ▸ hr) hlr₀
  rw [(hopen r str₀ str hlr₀ hlr).1 htr]
  exact htr

theorem Sealed.shuffle (h : Sealed but s) (hs : Shuffle s s') : Sealed but s' := by
  intro p r stp str hp hlp
  rw [hs.step] at hlp ⊢
  exact h p r stp str hp hlp

theorem Sealed.dispatch (h : Sealed but s) (hb : Bookkeeping [] s) : Sealed but s.dispatch.2 := by
  have hspec := dispatch_spec s hb.known_token
  refine h.mono hb.sameLinks_dispatch ?_
  cases hres : s.dispatch with
  | mk o s' =>
    rw [hres] at hspec
    intro d st st' hl hl'
    cases hspec with
    | idle _ _ =>
      obtain rfl : st = st' := by simpa [hl] using hl'
      exact ⟨fun _ => rfl, fun h₁ h₂ => absurd h₂ (by simp [h₁])⟩
    | @run c c' p k step hc hpop ht hlk =>
      have hopen := (hb.open_of_token ht hlk).2
      rcases HashMap.lookup_modify_cases hl' with ⟨rfl, st₀, hl₀, rfl⟩ | ⟨-, hl₀⟩
      · rw [hlk, Option.some.injEq] at hl
        subst hl
        exact ⟨fun h₁ => absurd h₁ (by simp [hopen]),
          fun _ h₂ => absurd h₂ (by simp [StepState.isTerminal])⟩
      · obtain rfl : st = st' := by simpa [hl] using hl₀
        exact ⟨fun _ => rfl, fun h₁ h₂ => absurd h₂ (by simp [h₁])⟩

theorem Sealed.complete (h : Sealed but s) (hb : Bookkeeping [] s) (token : DispatchToken)
    (status : JobStatus) : Sealed but (s.complete token status).2 := by
  have hspec := complete_spec s token status hb.known_token
  have hlinks := hb.sameLinks_complete token status
  cases hres : s.complete token status with
  | mk effects s' =>
    rw [hres] at hspec hlinks
    cases hspec with
    | unknown _ => exact h
    | @succeeded k step ht hlk hsucc =>
      refine h.mono hlinks fun d st st' hl hl' => ?_
      obtain ⟨fresh, hlook⟩ := lookup_succeeded s token k d (.fromStatus status) step.rdeps
      rw [hl, Option.map_some, hl', Option.some.injEq] at hlook
      have hopen := (hb.open_of_token ht hlk).2
      by_cases hd : d = k
      · subst hd
        rw [hlk, Option.some.injEq] at hl
        subst hl
        refine ⟨fun h₁ => absurd h₁ (by simp [hopen]), fun _ _ => ?_⟩
        have hnp : (StepState.fromStatus status) ≠ .pending := by
          intro hp
          have := StepState.isTerminal_fromStatus status
          rw [hp] at this
          exact absurd this (by decide)
        simp only [if_true] at hlook
        rw [if_neg (by rw [Bool.not_eq_true]; exact promotable_eq_false_of_state hnp)] at hlook
        rw [hlook]
        exact (StepState.isSuccessfulTerminal_fromStatus status).trans hsucc
      · simp only [if_neg hd] at hlook
        split at hlook
        · rename_i hprom
          have hpend := (Step.promotable_iff.mp hprom).1
          simp only at hpend
          exact ⟨fun h₁ => absurd h₁ (by simp [hpend, StepState.isTerminal]),
            fun _ h₂ => absurd h₂ (by simp [hlook, StepState.isTerminal])⟩
        · rw [hlook]
          exact ⟨fun _ => rfl, fun h₁ h₂ => absurd h₂ (by simp [h₁])⟩
    | @failed k step sk out _ ht hlk hs hc =>
      refine Sealed.cascade (h.close (x := .fromStatus status) (fun d => ?_)
        (StepState.isTerminal_fromStatus status)) hc
      rw [lookup_closeToken]
      by_cases hd : d = k
      · subst hd
        simp [hlk]
      · simp [hd]

theorem Sealed.cancelJob (h : Sealed but s) (evalId : EvalId) (j : JobId) :
    Sealed but (DagStrategy.cancelJob evalId s j).2 := by
  have hspec := cancelJob_spec s evalId j
  cases hres : DagStrategy.cancelJob evalId s j with
  | mk skips s' =>
    rw [hres] at hspec
    cases hspec with
    | gone _ _ => exact h
    | orphaned _ _ => exact h
    | kept _ _ => exact h
    | @cancelled k step sk out s₁ hf hp hc =>
      obtain ⟨hlk, -⟩ := findHead_eq_some hf
      have hseal : Sealed but s₁ := by
        refine Sealed.cascade (h.close (x := .cancelled) (fun d => ?_) rfl) hc
        rw [lookup_cancelHead]
        by_cases hd : d = k
        · subst hd
          simp [hlk]
        · simp [hd]
      exact hseal

theorem Sealed.cancelEval (h : Sealed but s) (evalId : EvalId) :
    Sealed but (s.cancelEval evalId).2 :=
  cancelEval_rec (P := fun _ s' => Sealed but s') h fun _ _ j _ ih => ih.cancelJob evalId j

theorem Loaded.sealed {cap : Option ℕ} {items : List ScheduleItem} (h : Loaded cap items s) :
    Sealed (fun _ => False) s := by
  intro p r stp str _ hlp hterm
  rcases h.fresh p stp hlp with hp | hp <;> rw [hp] at hterm <;> exact absurd hterm (by decide)

/-! ## Nothing is left over -/

theorem Bookkeeping.cap_dispatch (h : Bookkeeping [] s) :
    s.dispatch.2.wfq.concurrencyCap = s.wfq.concurrencyCap := by
  have hspec := dispatch_spec s h.known_token
  cases hres : s.dispatch with
  | mk o s' =>
    rw [hres] at hspec
    cases hspec with
    | idle hc _ => exact hc.cap
    | run hc hpop _ _ => exact (WfqCore.inFlight_pop hpop).2.trans hc.cap

theorem Bookkeeping.cap_complete (h : Bookkeeping [] s) (token : DispatchToken)
    (status : JobStatus) :
    (s.complete token status).2.wfq.concurrencyCap = s.wfq.concurrencyCap := by
  have hspec := complete_spec s token status h.known_token
  cases hres : s.complete token status with
  | mk effects s' =>
    rw [hres] at hspec
    cases hspec with
    | unknown _ => rfl
    | succeeded _ _ _ =>
      rw [promoteReadySteps_cap, decrementRdeps_frame (·.wfq.concurrencyCap) fun _ _ _ => rfl]
      rfl
    | failed _ _ _ hc =>
      rw [hc.state, skipAll_wfq]
      rfl

/-- A dispatch that answers nothing while nothing runs leaves nothing in the queue. -/
theorem Bookkeeping.empty_of_idle (h : Bookkeeping [] s)
    (hcap : ∀ n, s.wfq.concurrencyCap = some n → 0 < n) (hidle : ∀ k t, ¬ s.RunsAs k t)
    (hd : s.dispatch.1 = none) :
    ∃ c, Swallowed s c ∧ c.pendingCount = 0 ∧ s.dispatch.2 = { s with wfq := c } := by
  have hspec := dispatch_spec s h.known_token
  cases hres : s.dispatch with
  | mk o s' =>
    rw [hres] at hspec hd
    obtain rfl : o = none := hd
    cases hspec with
    | @idle c hc hnone =>
      have htok := h.toTokens.swallowed hc
      -- no slot is taken, so the cap is not reached
      have hslots : c.inFlight.keys = [] := by
        refine List.eq_nil_iff_forall_not_mem.mpr fun t ht => ?_
        have hsome : (c.inFlight.lookup t).isSome = true := AList.lookup_isSome.mpr ht
        obtain ⟨d, st', hl', htk, hrun⟩ := (htok.slots t).mp hsome
        exact hidle d t ⟨st', hl', hrun, htk⟩
      have hfree : c.capReached = false := by
        unfold WfqCore.capReached
        cases hn : c.concurrencyCap with
        | none => rfl
        | some n =>
          have := hcap n (hc.cap ▸ hn)
          simp only [hslots, List.length_nil, decide_eq_false_iff_not]
          omega
      exact ⟨c, hc, (WfqCore.dispatch_eq_none_iff hfree).mp hnone, rfl⟩

/-- Then every Step that has a token has been started. -/
theorem Bookkeeping.not_live_of_idle (h : Bookkeeping [] s)
    (hcap : ∀ n, s.wfq.concurrencyCap = some n → 0 < n) (hidle : ∀ k t, ¬ s.RunsAs k t)
    (hd : s.dispatch.1 = none) {k : String} {st : Step} (hl : s.byDrv.lookup k = some st) :
    st.state.isLive = false := by
  obtain ⟨c, hc, hempty, -⟩ := h.empty_of_idle hcap hidle hd
  have htok := h.toTokens.swallowed hc
  by_contra hlive
  rw [Bool.not_eq_false] at hlive
  have hh := h.holds k st hl
  rw [hlive] at hh
  obtain ⟨t, ht⟩ := Option.isSome_iff_exists.mp hh
  rcases isLive_iff.mp hlive with hready | hrun
  · have hq := htok.queued t k st ((h.token t k).mpr ⟨st, hl, ht⟩) hl
    rw [if_pos hready, WfqCore.queuedCount_eq_zero_of_pendingCount hempty] at hq
    exact absurd hq (by simp)
  · exact hidle k t ⟨st, hl, hrun, ht⟩

theorem keys_finite (s : DagStrategy) (P : String → Prop)
    (hP : ∀ d, P d → ∃ st, s.byDrv.lookup d = some st) : {d | P d}.Finite := by
  refine (s.byDrv.keys.finite_toSet).subset fun d hd => ?_
  obtain ⟨st, hl⟩ := hP d hd
  exact AList.lookup_isSome.mp (by rw [hl]; rfl)

/-- **Nothing is left pending** once nothing is ready or running, if edges do not run in a
    circle. -/
theorem Bookkeeping.terminal_of_not_live (h : Bookkeeping [] s) (hset : Settled s)
    (hseal : Sealed (fun _ => False) s) (hacyc : Acyclic s.Edge)
    (hlive : ∀ k st, s.byDrv.lookup k = some st → st.state.isLive = false) {k : String} {st : Step}
    (hl : s.byDrv.lookup k = some st) : st.state.isTerminal = true := by
  have hpend : ¬ ∃ st, s.byDrv.lookup k = some st ∧ st.state = .pending := by
    refine hacyc.not_of_forall_exists (P := fun d => ∃ st, s.byDrv.lookup d = some st ∧
      st.state = .pending) (keys_finite s _ fun d hd => ?_) ?_ k
    · obtain ⟨st, hl, -⟩ := hd
      exact ⟨st, hl⟩
    · -- a pending Step waits for one that has not succeeded, and that one is pending too
      rintro d ⟨st, hl, hp⟩
      have hne : s.openEdges d ≠ 0 := by
        intro hz
        have hc := h.counter d st hl
        have := hset d st hl
        rw [← Bool.not_eq_true, Step.promotable_iff] at this
        exact this ⟨hp, by simpa [hz] using hc⟩
      obtain ⟨p, stp, hlp, hmem, hns⟩ := Counters.exists_edge_of_openEdges hne
      refine ⟨p, ⟨stp, hlp, ?_⟩, stp, hlp, hmem⟩
      rcases stp.state.pending_or_live_or_terminal with hpp | hpl | hpt
      · exact hpp
      · rw [hlive p stp hlp] at hpl
        exact absurd hpl (by simp)
      · have := hseal p d stp st id hlp hpt hns hmem hl
        rw [hp] at this
        exact absurd this (by decide)
  rcases st.state.pending_or_live_or_terminal with hp | hl' | ht
  · exact absurd ⟨st, hl, hp⟩ hpend
  · rw [hlive k st hl] at hl'
    exact absurd hl' (by simp)
  · exact ht

end DagStrategy

/-! ## Counting verdicts -/

open DagStrategy

/-- The event is a verdict for the Job: it is dispatched, or mirrored, or skipped. -/
def Event.announces (j : JobId) : Event → Bool
  | .dispatched d => d.headJob = some j
  | .aliased j' _ => j' = j
  | .skipped j' => j' = j
  | _ => false

namespace Session

/-- When nothing is in flight and a dispatch answers nothing, every Step is closed. -/
theorem Tracks.terminal_of_drained {cap : Option ℕ} {σ : Session} (h : Tracks σ)
    (hcap : ∀ n, cap = some n → 0 < n) (hσ : σ.strategy.wfq.concurrencyCap = cap)
    (hseal : Sealed (fun _ => False) σ.strategy) (hacyc : Acyclic σ.strategy.Edge)
    (hidle : σ.inFlight = [])
    {s₁ : DagStrategy} (hs : Shuffle σ.strategy s₁) (hnone : s₁.dispatch.1 = none) {k : String}
    {st : Step} (hl : σ.strategy.byDrv.lookup k = some st) : st.state.isTerminal = true := by
  have hb := h.books.shuffle hs
  have hruns : ∀ k t, ¬ s₁.RunsAs k t := by
    intro k t hr
    obtain ⟨d, hmem, -⟩ := (h.runs k t).mp ((hs.runsAs k t).mp hr)
    rw [hidle] at hmem
    exact absurd hmem (by simp)
  have hlive : ∀ k st, s₁.byDrv.lookup k = some st → st.state.isLive = false := fun k st hl =>
    hb.not_live_of_idle (fun n hn => hcap n (hσ ▸ hs.wfq.concurrencyCap ▸ hn)) hruns hnone hl
  refine hb.terminal_of_not_live (h.settled.shuffle hs) (hseal.shuffle hs)
    (hacyc.mono fun p r he => ?_) hlive ((hs.step k).trans hl)
  exact (hs.sameLinks.edge p r).mp he

/-- How many verdicts a Job has received, if its head Step is in this state. -/
def due (jobs : List JobId) (j : JobId) : StepState → ℕ
  | .pending | .ready => 0
  | .running => if jobs.head? = some j then 1 else 0
  | .success | .cached | .failure | .cancelled | .skipped => 1

theorem due_of_terminal {jobs : List JobId} {j : JobId} {x : StepState}
    (h : x.isTerminal = true) : due jobs j x = 1 := by
  cases x <;> simp_all [due, StepState.isTerminal]

/-- What the run keeps, once `items` are loaded. -/
structure Draining (cap : Option ℕ) (items : List ScheduleItem) (σ : Session) : Prop where
  tracks : Tracks σ
  sealed : Sealed (fun _ => False) σ.strategy
  headJobs : ∀ d, σ.strategy.headJobsOf d = jobsAt items d
  edge : ∀ p r, σ.strategy.Edge p r → Needs items p r
  tracked : ∀ item ∈ items, σ.strategy.jobMeta.lookup item.jobId = some (item.repoId, item.evalId)
  present : ∀ item ∈ items, ∃ st, σ.strategy.byDrv.lookup item.headDrv.drvPath = some st
  cap : σ.strategy.wfq.concurrencyCap = cap
  counts : ∀ k st, σ.strategy.byDrv.lookup k = some st → ∀ j ∈ jobsAt items k,
    σ.log.countP (Event.announces j) = due (jobsAt items k) j st.state

theorem countP_announces_skipped (j : JobId) (skips : List CascadedSkip) :
    (skips.map fun skip => Event.skipped skip.jobId).countP (Event.announces j)
      = (skips.map (·.jobId)).count j := by
  induction skips with
  | nil => rfl
  | cons skip skips ih =>
    simp only [List.map_cons, List.countP_cons, List.count_cons, ih, Event.announces,
      decide_eq_true_eq, beq_iff_eq]

theorem countP_announces_aliased (j : JobId) (status : JobStatus) (aliases : List AliasCompletion) :
    (aliases.map fun al => Event.aliased al.jobId status).countP (Event.announces j)
      = (aliases.map (·.jobId)).count j := by
  induction aliases with
  | nil => rfl
  | cons al aliases ih =>
    simp only [List.map_cons, List.countP_cons, List.count_cons, ih, Event.announces,
      decide_eq_true_eq, beq_iff_eq]

theorem countP_announces_completed (j : JobId) (status : JobStatus) (ds : List Dispatched) :
    (ds.map fun d => Event.completed d status).countP (Event.announces j) = 0 := by
  simp [List.countP_eq_zero, Event.announces]

namespace Draining

variable {cap : Option ℕ} {items : List ScheduleItem} {σ : Session}

/-- The Jobs of a Step are the Jobs at its path. -/
theorem jobs_of_lookup (h : Draining cap items σ) {k : String} {st : Step}
    (hl : σ.strategy.byDrv.lookup k = some st) : st.headJobs = jobsAt items k := by
  rw [← h.headJobs k, headJobsOf, hl]
  rfl

theorem start {s : DagStrategy} (h : Loaded cap items s) (hnd : (items.map (·.jobId)).Nodup) :
    Draining cap items (Session.start s) := by
  have hidle : ∀ k t, ¬ s.RunsAs k t := by
    rintro k t ⟨st, hl, hrun, -⟩
    rcases h.fresh k st hl with hp | hp <;> rw [hp] at hrun <;> exact absurd hrun (by decide)
  refine ⟨.start h.reachable hidle, h.sealed, h.headJobs, h.edge, h.tracked hnd, ?_, h.cap, ?_⟩
  · intro item hi
    exact h.present item hi item.headDrv (by simp [mentions])
  · intro k st hl j _
    rcases h.fresh k st hl with hp | hp <;> simp [Session.start, hp, due]

/-- All Jobs of a Step are tracked, so none is left out of an answer. -/
theorem filter_tracked (h : Draining cap items σ) {s : DagStrategy}
    (hm : ∀ j, s.jobMeta.lookup j = σ.strategy.jobMeta.lookup j) (d : String) (n : ℕ) :
    ((jobsAt items d).drop n).filter (fun j => (s.jobMeta.lookup j).isSome)
      = (jobsAt items d).drop n := by
  refine List.filter_eq_self.mpr fun j hj => ?_
  obtain ⟨item, hi, -, rfl⟩ := mem_jobsAt_iff.mp (List.mem_of_mem_drop hj)
  rw [hm, h.tracked item hi]
  rfl

/-- Everything but the counts is fixed by the shape of the graph. -/
theorem of_sameLinks (h : Draining cap items σ) {σ' : Session} (ht : Tracks σ')
    (hseal : Sealed (fun _ => False) σ'.strategy) (hlinks : SameLinks σ.strategy σ'.strategy)
    (hmeta : ∀ j, σ'.strategy.jobMeta.lookup j = σ.strategy.jobMeta.lookup j)
    (hcap : σ'.strategy.wfq.concurrencyCap = σ.strategy.wfq.concurrencyCap)
    (hcounts : ∀ k st, σ'.strategy.byDrv.lookup k = some st → ∀ j ∈ jobsAt items k,
      σ'.log.countP (Event.announces j) = due (jobsAt items k) j st.state) :
    Draining cap items σ' := by
  refine ⟨ht, hseal, ?_, ?_, ?_, ?_, hcap.trans h.cap, hcounts⟩
  · intro d
    rw [hlinks.headJobsOf, h.headJobs]
  · intro p r he
    exact h.edge p r ((hlinks.edge p r).mp he)
  · intro item hi
    rw [hmeta, h.tracked item hi]
  · intro item hi
    obtain ⟨st, hl⟩ := h.present item hi
    obtain ⟨st', hl', -⟩ := hlinks.lookup hl
    exact ⟨st', hl'⟩

theorem reorder (h : Draining cap items σ) {s : DagStrategy} (hs : Shuffle σ.strategy s) :
    Draining cap items { σ with strategy := s } :=
  h.of_sameLinks (h.tracks.reorder hs) (h.sealed.shuffle hs) hs.sameLinks hs.job
    hs.wfq.concurrencyCap fun k st hl => h.counts k st ((hs.step k).symm.trans hl)

/-- One dispatch: the Step that starts is announced to its primary Job. -/
theorem dispatch (h : Draining cap items σ) (hnd : (items.map (·.jobId)).Nodup)
    {s₁ : DagStrategy} (hs : Shuffle σ.strategy s₁) :
    Draining cap items (σ.record s₁.dispatch.2 .dispatch (.dispatched s₁.dispatch.1)) := by
  have hb := h.tracks.books.shuffle hs
  have htr := h.tracks.step hs .dispatch
  have hspec := dispatch_spec s₁ hb.known_token
  refine h.of_sameLinks htr ?_ ?_ ?_ ?_ ?_
  · rw [record_strategy]
    exact (h.sealed.shuffle hs).dispatch hb
  · rw [record_strategy]
    exact hs.sameLinks.trans hb.sameLinks_dispatch
  · intro j
    rw [record_strategy, hb.jobMeta_dispatch, hs.job]
  · rw [record_strategy, hb.cap_dispatch, hs.wfq.concurrencyCap]
  · rw [record_strategy]
    cases hres : s₁.dispatch with
    | mk o s' =>
      rw [hres] at hspec
      intro k st hl j hj
      cases hspec with
      | idle _ _ => exact h.counts k st ((hs.step k).symm.trans hl) j hj
      | @run c c' p d step hc hpop ht hld =>
        have hready := (hb.toTokens.swallowed hc).ready_of_pop hpop ht hld
        have hjobs : step.headJobs = jobsAt items d := by
          rw [← h.headJobs d, ← hs.sameLinks.headJobsOf d, headJobsOf, hld]
          rfl
        have hadd : (σ.record { s₁ with wfq := c', byDrv := s₁.byDrv.modify d (·.makeRunning) }
              .dispatch (.dispatched (some (dispatchedOf p step)))).log.countP (Event.announces j)
            = σ.log.countP (Event.announces j)
              + if (jobsAt items d).head? = some j then 1 else 0 := by
          simp only [record, List.countP_append, List.countP_singleton, Event.announces,
            dispatchedOf, hjobs, decide_eq_true_eq]
        rw [hadd]
        rcases HashMap.lookup_modify_cases hl with ⟨rfl, st', hl', rfl⟩ | ⟨hne, hl'⟩
        · rw [hld, Option.some.injEq] at hl'
          subst hl'
          rw [h.counts k step ((hs.step k).symm.trans hld) j hj, hready]
          simp [due]
        · rw [h.counts k st ((hs.step k).symm.trans hl') j hj, if_neg ?_, Nat.add_zero]
          intro hhead
          exact hne (jobsAt_unique hnd hj (List.mem_of_head? hhead))

theorem head_add_count_tail {l : List JobId} {j : JobId} (hnd : l.Nodup) (hj : j ∈ l) :
    (if l.head? = some j then 1 else 0) + (l.drop 1).count j = 1 := by
  have := List.count_eq_one_of_mem hnd hj
  cases l with
  | nil => exact absurd hj (by simp)
  | cons a l =>
    rw [List.count_cons] at this
    simp only [List.head?_cons, Option.some.injEq, List.drop_succ_cons, List.drop_zero]
    simp only [beq_iff_eq] at this
    omega

/-- One completion: the aliases of the Step that ends are told, and the Jobs behind it. -/
theorem complete (h : Draining cap items σ) (hnd : (items.map (·.jobId)).Nodup)
    {s₁ : DagStrategy} (hs : Shuffle σ.strategy s₁) {token : DispatchToken} (status : JobStatus)
    (hflight : ∃ d ∈ σ.inFlight, d.token = token) :
    Draining cap items (σ.record (s₁.complete token status).2 (.complete token status)
      (.completed (s₁.complete token status).1)) := by
  have hb := h.tracks.books.shuffle hs
  have htr := h.tracks.step hs (.complete token status)
  refine h.of_sameLinks htr ?_ ?_ ?_ ?_ ?_
  · exact (h.sealed.shuffle hs).complete hb token status
  · exact hs.sameLinks.trans (hb.sameLinks_complete token status)
  · intro j
    rw [record_strategy, hb.jobMeta_complete, hs.job]
  · rw [record_strategy, hb.cap_complete, hs.wfq.concurrencyCap]
  -- the Step in flight is running
  obtain ⟨d₀, hmem, htok₀⟩ := hflight
  obtain ⟨std, hld, hrun, htok⟩ := (hs.runsAs d₀.drvPath d₀.token).mpr
    ((h.tracks.runs d₀.drvPath d₀.token).mpr ⟨d₀, hmem, rfl, rfl⟩)
  rw [htok₀] at htok
  have hknown := (hb.token token d₀.drvPath).mpr ⟨std, hld, htok⟩
  have hjobs : std.headJobs = jobsAt items d₀.drvPath := by
    rw [← h.headJobs, ← hs.sameLinks.headJobsOf, headJobsOf, hld]
    rfl
  have halias : (s₁.aliasesFor std.headJobs).map (·.jobId) = (jobsAt items d₀.drvPath).drop 1 := by
    rw [map_aliasesFor, hjobs, h.filter_tracked hs.job]
  obtain ⟨sk, hc⟩ := hb.completed hknown hld status
  have hskips : (s₁.complete token status).1.cascadedSkips.map (·.jobId) =
      sk.flatMap (jobsAt items) := by
    rw [hc.skips, map_flatMap_skipsFor]
    refine List.flatMap_congr fun d _ => ?_
    rw [hs.sameLinks.headJobsOf, h.headJobs]
    exact h.filter_tracked hs.job d 0
  intro k st hl j hj
  rw [record_strategy] at hl
  obtain ⟨item, hi, rfl, rfl⟩ := mem_jobsAt_iff.mp hj
  obtain ⟨st₀, hl₀⟩ := h.present item hi
  rw [← hs.step] at hl₀
  have hbefore := h.counts _ st₀ ((hs.step _).symm.trans hl₀) _ hj
  simp only [record, List.countP_append, countP_announces_completed, countP_announces_aliased,
    countP_announces_skipped, hc.aliases, halias, hskips, Nat.add_zero, hbefore,
    count_flatMap_jobsAt hnd hj hc.nodup]
  by_cases hk : item.headDrv.drvPath = d₀.drvPath
  · rw [hk] at hl hl₀ hj ⊢
    obtain rfl : std = st₀ := Option.some.inj (hld.symm.trans hl₀)
    rw [if_neg hc.fresh, hc.ended st hl, hrun,
      due_of_terminal (StepState.isTerminal_fromStatus status), Nat.add_zero]
    exact head_add_count_tail (jobsAt_nodup hnd _) hj
  · have hzero : ((jobsAt items d₀.drvPath).drop 1).count item.jobId = 0 :=
      List.count_eq_zero.mpr fun hm => hk (jobsAt_unique hnd hj (List.mem_of_mem_drop hm))
    rw [hzero, Nat.add_zero]
    by_cases hsk : item.headDrv.drvPath ∈ sk
    · obtain ⟨st', hl', hp⟩ := hc.pending _ hsk
      obtain rfl : st' = st₀ := Option.some.inj (hl'.symm.trans hl₀)
      rw [if_pos hsk, hc.skipped _ hsk st hl, hp]
      rfl
    · rw [if_neg hsk, Nat.add_zero]
      rcases hc.others _ st₀ st hk hsk hl₀ hl with hsame | ⟨hp, hready⟩
      · rw [hsame]
      · rw [hp, hready]
        rfl

theorem run {σ₀ : Session} (h : Draining cap items σ₀) (hnd : (items.map (·.jobId)).Nodup)
    (hr : Run Drives σ₀ σ) : Draining cap items σ := by
  induction hr with
  | refl => exact h
  | step _ hok hs hd ih =>
    cases hd with
    | setWeight r w => exact absurd hok (by simp [Drives])
    | enqueue item _ => exact absurd hok (by simp [Drives])
    | dispatch => exact ih.dispatch hnd hs
    | complete token status => exact ih.complete hnd hs status hok
    | cancelEval e => exact absurd hok (by simp [Drives])

end Draining

/-- **A drained run closes every Step and gives every Job exactly one verdict**: it was the head
    Job of one dispatch, or was mirrored once, or was skipped once. -/
theorem drained_once {cap : Option ℕ} {items : List ScheduleItem} {s₀ s₁ : DagStrategy}
    {σ : Session} (hcap : ∀ n, cap = some n → 0 < n) (hnd : (items.map (·.jobId)).Nodup)
    (hacyc : Acyclic (Needs items)) (hload : Enqueued cap items s₀)
    (hrun : Run Drives (Session.start s₀) σ) (hidle : σ.inFlight = [])
    (hs : Shuffle σ.strategy s₁) (hnone : s₁.dispatch.1 = none) :
    (∀ k st, σ.strategy.byDrv.lookup k = some st → st.state.isTerminal = true) ∧
      ∀ item ∈ items, σ.log.countP (Event.announces item.jobId) = 1 := by
  have h := (Draining.start hload.loaded hnd).run hnd hrun
  have hterm : ∀ k st, σ.strategy.byDrv.lookup k = some st → st.state.isTerminal = true :=
    fun k st hl => h.tracks.terminal_of_drained hcap h.cap h.sealed (hacyc.mono h.edge) hidle hs
      hnone hl
  refine ⟨hterm, fun item hi => ?_⟩
  obtain ⟨st, hl⟩ := h.present item hi
  have hj : item.jobId ∈ jobsAt items item.headDrv.drvPath :=
    mem_jobsAt_iff.mpr ⟨item, hi, rfl, rfl⟩
  rw [h.counts _ st hl _ hj, due_of_terminal (hterm _ st hl)]

/-- `a` under two names, and `b` behind it. -/
def aliasAndDependent : List ScheduleItem :=
  [⟨⟨1⟩, ⟨1⟩, ⟨1⟩, ⟨"a", none, [], []⟩, []⟩, ⟨⟨1⟩, ⟨1⟩, ⟨2⟩, ⟨"a", none, [], []⟩, []⟩,
    ⟨⟨1⟩, ⟨1⟩, ⟨3⟩, ⟨"b", none, [], ["a"]⟩, []⟩]

/-- The primary Job fails: its alias is mirrored, the dependent is skipped. -/
def failedDrain : Session :=
  (Session.start (load none aliasAndDependent)).runOps [.dispatch, .complete ⟨0⟩ .failure]

theorem acyclic_aliasAndDependent : Acyclic (Needs aliasAndDependent) := by
  refine .of_rank (fun d => if d = "a" then 0 else 1) ?_
  rintro p r ⟨item, hi, drv, hm, rfl, hp⟩
  simp only [aliasAndDependent, List.mem_cons, List.not_mem_nil, or_false] at hi
  rcases hi with rfl | rfl | rfl <;> simp_all [mentions]

theorem drained_once_failed :
    (∀ k st, failedDrain.strategy.byDrv.lookup k = some st → st.state.isTerminal = true) ∧
      ∀ item ∈ aliasAndDependent, failedDrain.log.countP (Event.announces item.jobId) = 1 :=
  drained_once (fun _ h => absurd h (by simp)) (by decide) acyclic_aliasAndDependent
    (enqueued_load none aliasAndDependent) (.of_ops (by decide)) (by decide)
    (.refl _) (by decide)

end Session

end Argunix.Sched
