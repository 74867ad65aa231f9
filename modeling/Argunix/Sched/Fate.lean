import Mathlib.Algebra.BigOperators.Ring.Finset
import Argunix.Sched.Drain

/-!
# The order of a run does not decide its verdicts

Fix the outcome `o d` that a build of each derivation `d` will have. Then the state alone says
what becomes of every Step, whatever order the dispatches and completions come in:

* `Runs`: it is ready or running, or everything it waits for succeeds;
* `Skips`: something it waits for, possibly through other Steps, is built and fails;
* neither: it waits behind a Step that was closed without success before it was enqueued, and
  stays pending.

So the verdicts that a Job will receive can be read off the state (`owed`), and a run that goes on
until nothing is ready or running has handed out exactly those (`verdicts_of_drained`). The
argument is a potential: at each call, what is added to the log is taken off what is owed.
-/

set_option autoImplicit false

namespace Argunix.Sched

open Argunix.Lib

namespace DagStrategy

variable {s s' : DagStrategy} {o : String → JobStatus}

/-! ## What becomes of a Step -/

/-- The Step will be built. -/
inductive Runs (s : DagStrategy) (o : String → JobStatus) : String → Prop
  | live {k : String} {st : Step} : s.byDrv.lookup k = some st → st.state.isLive = true → Runs s o k
  | waits {k : String} {st : Step} : s.byDrv.lookup k = some st → st.state = .pending →
      (∀ p stp, s.byDrv.lookup p = some stp → k ∈ stp.rdeps →
        stp.state.isSuccessfulTerminal = false → Runs s o p) →
      (∀ p stp, s.byDrv.lookup p = some stp → k ∈ stp.rdeps →
        stp.state.isSuccessfulTerminal = false → (o p).isSuccess = true) →
      Runs s o k

/-- The Step will be skipped. -/
inductive Skips (s : DagStrategy) (o : String → JobStatus) : String → Prop
  | failed {p k : String} {st : Step} : Runs s o p → (o p).isSuccess = false → s.Edge p k →
      s.byDrv.lookup k = some st → st.state = .pending → Skips s o k
  | behind {p k : String} {st : Step} : Skips s o p → s.Edge p k →
      s.byDrv.lookup k = some st → st.state = .pending → Skips s o k

theorem Runs.isOpen {k : String} (h : Runs s o k) :
    ∃ st, s.byDrv.lookup k = some st ∧ st.state.isTerminal = false := by
  cases h with
  | live hl hlive => exact ⟨_, hl, StepState.isTerminal_eq_false_of_isLive hlive⟩
  | waits hl hp _ _ => exact ⟨_, hl, by rw [hp]; rfl⟩

theorem Skips.pending {k : String} (h : Skips s o k) :
    ∃ st, s.byDrv.lookup k = some st ∧ st.state = .pending := by
  cases h with
  | failed _ _ _ hl hp => exact ⟨_, hl, hp⟩
  | behind _ _ hl hp => exact ⟨_, hl, hp⟩

/-- No Step is both built and skipped. -/
theorem Runs.not_skips {k : String} (h : Runs s o k) : ¬ Skips s o k := by
  induction h with
  | live hl hlive =>
    intro hsk
    obtain ⟨st, hl', hp⟩ := hsk.pending
    rw [hl, Option.some.injEq] at hl'
    rw [hl', hp] at hlive
    exact absurd hlive (by decide)
  | @waits k st hl hp _ hok ih =>
    -- whatever it waits for is open, so it has not succeeded before
    have hpred : ∀ {p}, s.Edge p k →
        (∃ stp, s.byDrv.lookup p = some stp ∧ stp.state.isTerminal = false) →
        (o p).isSuccess = true ∧ ¬ Skips s o p := by
      rintro p ⟨stp, hlp, hmem⟩ ⟨stp', hlp', hopen⟩
      obtain rfl : stp = stp' := by simpa [hlp] using hlp'
      have hns := StepState.isSuccessfulTerminal_eq_false_of_open hopen
      exact ⟨hok p stp hlp hmem hns, ih p stp hlp hmem hns⟩
    intro hsk
    cases hsk with
    | failed hrun hfail he _ _ =>
      rw [(hpred he hrun.isOpen).1] at hfail
      exact absurd hfail (by simp)
    | behind hsk' he _ _ =>
      obtain ⟨stp, hlp, hpp⟩ := hsk'.pending
      exact (hpred he ⟨stp, hlp, by rw [hpp]; rfl⟩).2 hsk'

/-! ## Verdicts -/

/-- What a Job is told in the end. -/
inductive Verdict
  | built (status : JobStatus)
  | skipped
  | cancelled
deriving DecidableEq, Repr

end DagStrategy

open DagStrategy

/-- The event tells the Job this verdict. -/
def Event.tells (j : JobId) (v : Verdict) : Event → Bool
  | .completed d status => d.headJob = some j ∧ v = .built status
  | .aliased j' status => j' = j ∧ v = .built status
  | .skipped j' => j' = j ∧ v = .skipped
  | .cancelled j' => j' = j ∧ v = .cancelled
  | _ => false

namespace Session

open Classical in
/-- What a Step in this state will tell a Job. A running Step has handed its primary Job to the
    caller; aliases and skips are told to tracked Jobs only. -/
noncomputable def owedIn (runs skips : Prop) (status : JobStatus) (tracked : JobId → Bool)
    (x : StepState) (jobs : List JobId) (j : JobId) (v : Verdict) : ℕ :=
  if x.isTerminal then 0
  else if runs then
    if v = .built status then
      (if x ≠ .running ∧ jobs.head? = some j then 1 else 0) + ((jobs.drop 1).filter tracked).count j
    else 0
  else if skips then
    if v = .skipped then (jobs.filter tracked).count j else 0
  else 0

noncomputable def owedBy (runs skips : String → Prop) (o : String → JobStatus) (s : DagStrategy)
    (j : JobId) (v : Verdict) (k : String) : ℕ :=
  match s.byDrv.lookup k with
  | none => 0
  | some st => owedIn (runs k) (skips k) (o k) (fun j => (s.jobMeta.lookup j).isSome) st.state
      st.headJobs j v

theorem owedBy_eq {runs skips : String → Prop} {o : String → JobStatus} {s : DagStrategy}
    {k : String} {st : Step} (hl : s.byDrv.lookup k = some st) (j : JobId) (v : Verdict) :
    owedBy runs skips o s j v k = owedIn (runs k) (skips k) (o k)
      (fun j => (s.jobMeta.lookup j).isSome) st.state st.headJobs j v := by
  simp only [owedBy, hl]

theorem owedIn_of_terminal {runs skips : Prop} {status : JobStatus} {tracked : JobId → Bool}
    {x : StepState} (hx : x.isTerminal = true) (jobs : List JobId) (j : JobId) (v : Verdict) :
    owedIn runs skips status tracked x jobs j v = 0 := by
  simp [owedIn, hx]

/-- A Step that is not started owes the same whether it is pending or ready. -/
theorem owedIn_congr {runs skips : Prop} {status : JobStatus} {tracked : JobId → Bool}
    {x x' : StepState} (h : x' = x ∨ (x = .pending ∧ x' = .ready)) (jobs : List JobId) (j : JobId)
    (v : Verdict) :
    owedIn runs skips status tracked x' jobs j v = owedIn runs skips status tracked x jobs j v := by
  rcases h with rfl | ⟨rfl, rfl⟩
  · rfl
  · simp [owedIn, StepState.isTerminal]

/-- Starting a Step hands its primary Job over. -/
theorem owedIn_ready {runs skips : Prop} (hr : runs) {status : JobStatus}
    {tracked : JobId → Bool} (jobs : List JobId) (j : JobId) (v : Verdict) :
    owedIn runs skips status tracked .ready jobs j v
      = owedIn runs skips status tracked .running jobs j v
        + if jobs.head? = some j ∧ v = .built status then 1 else 0 := by
  by_cases hv : v = .built status
  · simp [owedIn, StepState.isTerminal, hr, hv, Nat.add_comm]
  · simp [owedIn, StepState.isTerminal, hr, hv]

theorem owedIn_running {runs skips : Prop} (hr : runs) {status : JobStatus}
    {tracked : JobId → Bool} (jobs : List JobId) (j : JobId) (v : Verdict) :
    owedIn runs skips status tracked .running jobs j v
      = if v = .built status then ((jobs.drop 1).filter tracked).count j else 0 := by
  simp [owedIn, StepState.isTerminal, hr]

theorem owedIn_skipped {runs skips : Prop} (hr : ¬ runs) (hs : skips) {status : JobStatus}
    {tracked : JobId → Bool} (jobs : List JobId) (j : JobId) (v : Verdict) :
    owedIn runs skips status tracked .pending jobs j v
      = if v = .skipped then (jobs.filter tracked).count j else 0 := by
  simp [owedIn, StepState.isTerminal, hr, hs]

/-- What the builds in flight will tell a Job. -/
def owedByFlight (o : String → JobStatus) (ds : List Dispatched) (j : JobId) (v : Verdict) : ℕ :=
  ds.countP fun d => d.headJob = some j ∧ v = .built (o d.drvPath)

/-- What a Job will be told. -/
noncomputable def owed (o : String → JobStatus) (σ : Session) (j : JobId) (v : Verdict) : ℕ :=
  owedByFlight o σ.inFlight j v
    + ∑ k ∈ σ.strategy.byDrv.keys.toFinset,
        owedBy (Runs σ.strategy o) (Skips σ.strategy o) o σ.strategy j v k

/-- The dispatch loop when a build of `d` ends with `o d`. -/
def DrivesAs (o : String → JobStatus) (σ : Session) : Op → Prop
  | .dispatch => True
  | .complete token status => ∃ d ∈ σ.inFlight, d.token = token ∧ status = o d.drvPath
  | _ => False

/-- Nothing is ready and nothing is running. -/
def Drained (σ : Session) : Prop :=
  ∀ k st, σ.strategy.byDrv.lookup k = some st → st.state.isLive = false

/-! ## Following a run -/

/-- What may have become of a Step since the state `s₀`. -/
structure Since (s₀ : DagStrategy) (o : String → JobStatus) (k : String) (x₀ x : StepState) :
    Prop where
  closed : x₀.isTerminal = true → x = x₀
  live : x₀.isLive = true → x ≠ .pending
  ended : x₀.isTerminal = false → x.isTerminal = true →
    (Runs s₀ o k ∧ x = .fromStatus (o k)) ∨ (Skips s₀ o k ∧ x = .skipped)

theorem Since.refl (s₀ : DagStrategy) (o : String → JobStatus) (k : String) (x : StepState) :
    Since s₀ o k x x := by
  refine ⟨fun _ => rfl, ?_, fun h h' => absurd h' (by simp [h])⟩
  rintro h rfl
  exact absurd h (by decide)

theorem Since.pending {s₀ : DagStrategy} {o : String → JobStatus} {k : String}
    {x₀ x : StepState} (h : Since s₀ o k x₀ x) (hx : x = .pending) : x₀ = .pending := by
  rcases x₀.pending_or_live_or_terminal with hp | hl | ht
  · exact hp
  · exact absurd hx (h.live hl)
  · rw [h.closed ht] at hx
    exact hx

/-- Promotion and dispatch do not close anything. -/
theorem Since.advance {s₀ : DagStrategy} {o : String → JobStatus} {k : String}
    {x₀ x x' : StepState} (h : Since s₀ o k x₀ x)
    (hx : x' = x ∨ (x = .pending ∧ x' = .ready) ∨ (x = .ready ∧ x' = .running)) :
    Since s₀ o k x₀ x' := by
  rcases hx with rfl | ⟨rfl, rfl⟩ | ⟨rfl, rfl⟩
  · exact h
  · refine ⟨fun ht => ?_, fun _ => by decide, fun _ ht => absurd ht (by decide)⟩
    have := h.closed ht
    rw [← this] at ht
    exact absurd ht (by decide)
  · refine ⟨fun ht => ?_, fun _ => by decide, fun _ ht => absurd ht (by decide)⟩
    have := h.closed ht
    rw [← this] at ht
    exact absurd ht (by decide)

/-- A run that started in `s₀` and in which a build of `d` ends with `o d`. `total` is what each
    Job has been told or will be. -/
structure Follows (s₀ : DagStrategy) (o : String → JobStatus) (total : JobId → Verdict → ℕ)
    (σ : Session) : Prop where
  tracks : Tracks σ
  links : SameLinks s₀ σ.strategy
  jobs : ∀ j, σ.strategy.jobMeta.lookup j = s₀.jobMeta.lookup j
  since : ∀ k st₀ st, s₀.byDrv.lookup k = some st₀ → σ.strategy.byDrv.lookup k = some st →
    Since s₀ o k st₀.state st.state
  sealed : Sealed (fun p => ∃ st, s₀.byDrv.lookup p = some st ∧ st.state.isTerminal = true)
    σ.strategy
  count : ∀ j v, σ.log.countP (Event.tells j v)
    + (owedByFlight o σ.inFlight j v
      + ∑ k ∈ s₀.byDrv.keys.toFinset, owedBy (Runs s₀ o) (Skips s₀ o) o σ.strategy j v k)
    = total j v

namespace Follows

variable {s₀ : DagStrategy} {o : String → JobStatus} {total : JobId → Verdict → ℕ} {σ : Session}

theorem start (h : Tracks σ) : Follows σ.strategy o
    (fun j v => σ.log.countP (Event.tells j v) + owed o σ j v) σ := by
  refine ⟨h, .refl _, fun _ => rfl, ?_, ?_, fun _ _ => rfl⟩
  · intro k st₀ st hl₀ hl
    obtain rfl : st₀ = st := by simpa [hl₀] using hl
    exact .refl _ _ _ _
  · intro p r stp str hp hlp hterm
    exact absurd ⟨stp, hlp, hterm⟩ hp

/-- Whatever is ready or running by now was always going to be built. -/
theorem runs_of_live (h : Follows s₀ o total σ) {k : String} {st : Step}
    (hl : σ.strategy.byDrv.lookup k = some st) (hlive : st.state.isLive = true) :
    Runs s₀ o k := by
  obtain ⟨st₀, hl₀, -⟩ := h.links.symm.lookup hl
  have hsince := h.since k st₀ st hl₀ hl
  rcases st₀.state.pending_or_live_or_terminal with hp | hl' | ht
  · -- it was promoted: everything it waits for has succeeded by now
    have hpred : ∀ p stp₀, s₀.byDrv.lookup p = some stp₀ → k ∈ stp₀.rdeps →
        stp₀.state.isSuccessfulTerminal = false → Runs s₀ o p ∧ (o p).isSuccess = true := by
      intro p stp₀ hlp₀ hmem hns
      obtain ⟨stp, hlp, hr, -⟩ := h.links.lookup hlp₀
      have hdone : stp.state.isSuccessfulTerminal = true := by
        by_contra hno
        rw [Bool.not_eq_true] at hno
        have hpos := Counters.openEdges_pos hlp (hr ▸ hmem) hno
        have hzero := h.tracks.books.live_zero k st hl hlive
        have hcount := h.tracks.books.counter k st hl
        rw [List.count_nil] at hcount
        omega
      have hsp := h.since p stp₀ stp hlp₀ hlp
      cases ht₀ : stp₀.state.isTerminal with
      | true =>
        rw [hsp.closed ht₀, hns] at hdone
        exact absurd hdone (by simp)
      | false =>
        rcases hsp.ended ht₀ (StepState.isTerminal_of_isSuccessfulTerminal hdone) with
          ⟨hrun, hst⟩ | ⟨-, hst⟩
        · refine ⟨hrun, ?_⟩
          rwa [hst, StepState.isSuccessfulTerminal_fromStatus] at hdone
        · rw [hst] at hdone
          exact absurd hdone (by decide)
    exact .waits hl₀ hp (fun p stp₀ hlp₀ hm hns => (hpred p stp₀ hlp₀ hm hns).1)
      fun p stp₀ hlp₀ hm hns => (hpred p stp₀ hlp₀ hm hns).2
  · exact .live hl₀ hl'
  · rw [hsince.closed ht, StepState.isLive_eq_false_of_isTerminal ht] at hlive
    exact absurd hlive (by simp)

theorem mem_keys (h : Follows s₀ o total σ) {k : String} {st : Step}
    (hl : σ.strategy.byDrv.lookup k = some st) : k ∈ s₀.byDrv.keys.toFinset := by
  obtain ⟨st₀, hl₀, -⟩ := h.links.symm.lookup hl
  exact List.mem_toFinset.mpr (AList.lookup_isSome.mp (by rw [hl₀]; rfl))

/-- One dispatch: the Step that starts hands its primary Job over. -/
theorem dispatch (h : Follows s₀ o total σ) {s₁ : DagStrategy} (hs : Shuffle σ.strategy s₁) :
    Follows s₀ o total (σ.record s₁.dispatch.2 .dispatch (.dispatched s₁.dispatch.1)) := by
  have hb := h.tracks.books.shuffle hs
  have htr := h.tracks.step hs .dispatch
  have hlinks := hs.sameLinks.trans hb.sameLinks_dispatch
  have hjobs : ∀ j, s₁.dispatch.2.jobMeta.lookup j = σ.strategy.jobMeta.lookup j := by
    intro j
    rw [hb.jobMeta_dispatch, hs.job]
  have hspec := dispatch_spec s₁ hb.known_token
  refine ⟨htr, ?_, ?_, ?_, ?_, ?_⟩
  · rw [record_strategy]
    exact h.links.trans hlinks
  · intro j
    rw [record_strategy, hjobs, h.jobs]
  · rw [record_strategy]
    cases hres : s₁.dispatch with
    | mk d s' =>
      rw [hres] at hspec
      intro k st₀ st' hl₀ hl'
      cases hspec with
      | idle _ _ => exact h.since k st₀ st' hl₀ ((hs.step k).symm.trans hl')
      | @run c c' p d step hc hpop ht hld =>
        have hready := (hb.toTokens.swallowed hc).ready_of_pop hpop ht hld
        rcases HashMap.lookup_modify_cases hl' with ⟨rfl, st, hl, rfl⟩ | ⟨-, hl⟩
        · obtain rfl : step = st := by simpa [hld] using hl
          exact (h.since k st₀ step hl₀ ((hs.step k).symm.trans hl)).advance
            (Or.inr (Or.inr ⟨hready, rfl⟩))
        · exact h.since k st₀ st' hl₀ ((hs.step k).symm.trans hl)
  · rw [record_strategy]
    exact (h.sealed.shuffle hs).dispatch hb
  · intro j v
    rw [record_strategy, ← h.count j v]
    cases hres : s₁.dispatch with
    | mk o' s' =>
      rw [hres] at hspec hjobs
      cases hspec with
      | idle _ _ =>
        congr 2
        refine Finset.sum_congr rfl fun k _ => ?_
        unfold owedBy
        simp only [hs.step, hs.job]
      | @run c c' p d step hc hpop ht hld =>
        have hready := (hb.toTokens.swallowed hc).ready_of_pop hpop ht hld
        have hldσ : σ.strategy.byDrv.lookup d = some step := (hs.step d).symm.trans hld
        have hruns := h.runs_of_live hldσ (by rw [hready]; rfl)
        -- what the Step owed to its primary Job is owed by the dispatch
        have hpoint : ∀ k, owedBy (Runs s₀ o) (Skips s₀ o) o σ.strategy j v k
            = owedBy (Runs s₀ o) (Skips s₀ o) o
                { s₁ with wfq := c', byDrv := s₁.byDrv.modify d (·.makeRunning) } j v k
              + if k = d then (if step.headJobs.head? = some j ∧ v = .built (o d) then 1 else 0)
                else 0 := by
          intro k
          by_cases hk : k = d
          · subst hk
            have hl' : (s₁.byDrv.modify k (·.makeRunning)).lookup k = some step.makeRunning := by
              rw [HashMap.lookup_modify, if_pos rfl, hld]
              rfl
            rw [owedBy_eq hldσ, owedBy_eq (s := { s₁ with
              wfq := c', byDrv := s₁.byDrv.modify k (·.makeRunning) }) hl', hready, if_pos rfl,
              owedIn_ready hruns]
            simp only [hs.job, Step.makeRunning_state, Step.makeRunning_headJobs]
          · have hl' : (s₁.byDrv.modify d (·.makeRunning)).lookup k = σ.strategy.byDrv.lookup k := by
              rw [HashMap.lookup_modify, if_neg hk, hs.step]
            rw [if_neg hk, Nat.add_zero]
            unfold owedBy
            simp only [hl', hs.job]
        rw [Finset.sum_congr rfl fun k _ => hpoint k, Finset.sum_add_distrib,
          Finset.sum_ite_eq' , if_pos (h.mem_keys hldσ)]
        simp only [record, List.countP_append, List.countP_singleton, Event.tells, owedByFlight,
          dispatchedOf, hb.path d step hld, Bool.false_eq_true, if_false, decide_eq_true_eq]
        omega

/-- What a failed Step skips was always going to be skipped. -/
theorem skips_of_failed (h : Follows s₀ o total σ) {d : String} {sk : List String}
    (hruns : Runs s₀ o d) (hfail : (o d).isSuccess = false)
    (hpend : ∀ k ∈ sk, ∃ st, σ.strategy.byDrv.lookup k = some st ∧ st.state = .pending)
    {k : String}
    (hpath : Relation.TransGen
      (fun p r => σ.strategy.Edge p r ∧ (p = d ∨ p ∈ sk)) d k) (hk : k ∈ sk) :
    Skips s₀ o k := by
  have hpend₀ : ∀ k ∈ sk, ∃ st₀, s₀.byDrv.lookup k = some st₀ ∧ st₀.state = .pending := by
    intro k hk
    obtain ⟨st, hl, hp⟩ := hpend k hk
    obtain ⟨st₀, hl₀, -⟩ := h.links.symm.lookup hl
    exact ⟨st₀, hl₀, (h.since k st₀ st hl₀ hl).pending hp⟩
  induction hpath with
  | single he =>
    obtain ⟨st₀, hl₀, hp₀⟩ := hpend₀ _ hk
    exact .failed hruns hfail ((h.links.edge _ _).mp he.1) hl₀ hp₀
  | @tail b c _ he ih =>
    obtain ⟨st₀, hl₀, hp₀⟩ := hpend₀ _ hk
    rcases he.2 with rfl | hb
    · exact .failed hruns hfail ((h.links.edge _ _).mp he.1) hl₀ hp₀
    · exact .behind (ih hb) ((h.links.edge _ _).mp he.1) hl₀ hp₀

theorem countP_tells_skipped (j : JobId) (v : Verdict) (skips : List CascadedSkip) :
    (skips.map fun skip => Event.skipped skip.jobId).countP (Event.tells j v)
      = if v = .skipped then (skips.map (·.jobId)).count j else 0 := by
  rw [List.countP_map, List.count, List.countP_map]
  by_cases hv : v = .skipped
  · simp only [hv, Event.tells, Function.comp_def, and_true, if_true]
    rfl
  · simp [hv, Event.tells, Function.comp_def]

theorem countP_tells_aliased (j : JobId) (v : Verdict) (status : JobStatus)
    (aliases : List AliasCompletion) :
    (aliases.map fun al => Event.aliased al.jobId status).countP (Event.tells j v)
      = if v = .built status then (aliases.map (·.jobId)).count j else 0 := by
  rw [List.countP_map, List.count, List.countP_map]
  by_cases hv : v = .built status
  · simp only [hv, Event.tells, Function.comp_def, and_true, if_true]
    rfl
  · simp [hv, Event.tells, Function.comp_def]

theorem sum_ite_mem_list {K : Finset String} {sk : List String} (hnd : sk.Nodup)
    (hsub : ∀ k ∈ sk, k ∈ K) (f : String → ℕ) :
    (∑ k ∈ K, if k ∈ sk then f k else 0) = (sk.map f).sum := by
  have hfilter : K.filter (· ∈ sk) = sk.toFinset := by
    ext k
    simp only [Finset.mem_filter, List.mem_toFinset, and_iff_right_iff_imp]
    exact hsub k
  rw [← Finset.sum_filter, hfilter, List.sum_toFinset f hnd]

/-- One completion: what the Step and the Steps skipped behind it owed is paid. -/
theorem complete (h : Follows s₀ o total σ) {s₁ : DagStrategy} (hs : Shuffle σ.strategy s₁)
    {d : Dispatched} (hd : d ∈ σ.inFlight) :
    Follows s₀ o total (σ.record (s₁.complete d.token (o d.drvPath)).2
      (.complete d.token (o d.drvPath)) (.completed (s₁.complete d.token (o d.drvPath)).1)) := by
  have hb := h.tracks.books.shuffle hs
  obtain ⟨step, hldσ, hrun, htok⟩ := (h.tracks.runs d.drvPath d.token).mpr ⟨d, hd, rfl, rfl⟩
  have hld : s₁.byDrv.lookup d.drvPath = some step := (hs.step _).trans hldσ
  have hknown := (hb.token d.token d.drvPath).mpr ⟨step, hld, htok⟩
  obtain ⟨sk, heff⟩ := hb.completed hknown hld (o d.drvPath)
  have hlinks := hs.sameLinks.trans (hb.sameLinks_complete d.token (o d.drvPath))
  have hmeta := hb.jobMeta_complete d.token (o d.drvPath)
  have hruns := h.runs_of_live hldσ (by rw [hrun]; rfl)
  have hpend : ∀ k ∈ sk, ∃ st, σ.strategy.byDrv.lookup k = some st ∧ st.state = .pending := by
    intro k hk
    obtain ⟨st, hl, hp⟩ := heff.pending k hk
    exact ⟨st, (hs.step k).symm.trans hl, hp⟩
  have hskips : ∀ k ∈ sk, Skips s₀ o k := by
    intro k hk
    cases hsucc : (o d.drvPath).isSuccess with
    | true =>
      rw [heff.of_success hsucc] at hk
      exact absurd hk (by simp)
    | false =>
      refine h.skips_of_failed hruns hsucc hpend
        (Relation.TransGen.mono (fun p r he => ⟨?_, he.2⟩) _ _ ((heff.of_failure hsucc).1 k hk)) hk
      exact (hs.sameLinks.edge p r).mp he.1
  generalize hres : s₁.complete d.token (o d.drvPath) = res at heff hlinks hmeta
  refine ⟨?_, h.links.trans hlinks, ?_, ?_, ?_, ?_⟩
  · rw [← hres]
    exact h.tracks.step hs (.complete d.token (o d.drvPath))
  · intro j
    rw [record_strategy, hmeta, hs.job, h.jobs]
  · intro k st₀ st' hl₀ hl'
    obtain ⟨st, hl, -⟩ := hlinks.symm.lookup hl'
    have hsince := h.since k st₀ st hl₀ hl
    by_cases hk : k = d.drvPath
    · obtain rfl : step = st := by rw [hk, hldσ] at hl; simpa using hl
      have hst' := heff.ended st' (hk ▸ hl')
      refine ⟨fun ht => ?_, fun _ hp => ?_, fun _ _ => Or.inl ⟨hk ▸ hruns, hk ▸ hst'⟩⟩
      · have := hsince.closed ht
        rw [← this, hrun] at ht
        exact absurd ht (by decide)
      · have := StepState.isTerminal_fromStatus (o d.drvPath)
        rw [← hst', hp] at this
        exact absurd this (by decide)
    · by_cases hsk : k ∈ sk
      · obtain ⟨st₁, hl₁, hp₁⟩ := hpend k hsk
        obtain rfl : st = st₁ := by simpa [hl] using hl₁
        have hst' := heff.skipped k hsk st' hl'
        refine ⟨fun ht => ?_, fun _ => by rw [hst']; decide,
          fun _ _ => Or.inr ⟨hskips k hsk, hst'⟩⟩
        have := hsince.closed ht
        rw [← this, hp₁] at ht
        exact absurd ht (by decide)
      · refine hsince.advance ?_
        rcases heff.others k st st' hk hsk ((hs.step k).trans hl) hl' with heq | hpr
        · exact Or.inl heq
        · exact Or.inr (Or.inl hpr)
  · have := (h.sealed.shuffle hs).complete hb d.token (o d.drvPath)
    rw [hres] at this
    exact this
  · intro j v
    have hskipped : ∀ k, s₁.headJobsOf k = σ.strategy.headJobsOf k := hs.sameLinks.headJobsOf
    have hpoint : ∀ k, owedBy (Runs s₀ o) (Skips s₀ o) o σ.strategy j v k
        = owedBy (Runs s₀ o) (Skips s₀ o) o res.2 j v k
          + (if k = d.drvPath then
              (if v = .built (o d.drvPath) then ((s₁.aliasesFor step.headJobs).map (·.jobId)).count j
                else 0)
            else 0)
          + if k ∈ sk then
              (if v = .skipped then
                ((s₁.skipsFor d.drvPath (s₁.headJobsOf k)).map (·.jobId)).count j else 0)
            else 0 := by
      intro k
      cases hlk : σ.strategy.byDrv.lookup k with
      | none =>
        have hlk' : res.2.byDrv.lookup k = none := by
          cases hl' : res.2.byDrv.lookup k with
          | none => rfl
          | some st' =>
            obtain ⟨st, hl, -⟩ := hlinks.symm.lookup hl'
            rw [hlk] at hl
            exact absurd hl (by simp)
        have hkd : k ≠ d.drvPath := by
          rintro rfl
          rw [hldσ] at hlk
          exact absurd hlk (by simp)
        have hksk : k ∉ sk := by
          intro hk
          obtain ⟨st, hl, -⟩ := hpend k hk
          rw [hlk] at hl
          exact absurd hl (by simp)
        simp [owedBy, hlk, hlk', hkd, hksk]
      | some st =>
        obtain ⟨st', hl', -, hjobs⟩ := hlinks.lookup hlk
        rw [owedBy_eq hlk, owedBy_eq hl', hjobs, hmeta]
        simp only [hs.job]
        by_cases hk : k = d.drvPath
        · subst hk
          obtain rfl : st = step := by simpa [hlk] using hldσ
          have hterm : st'.state.isTerminal = true := by
            rw [heff.ended st' hl']
            exact StepState.isTerminal_fromStatus _
          rw [owedIn_of_terminal hterm, if_pos rfl, if_neg heff.fresh, hrun, owedIn_running hruns,
            map_aliasesFor]
          simp only [hs.job, Nat.zero_add, Nat.add_zero]
        · by_cases hsk : k ∈ sk
          · obtain ⟨st₁, hl₁, hp₁⟩ := hpend k hsk
            obtain rfl : st = st₁ := by simpa [hlk] using hl₁
            have hterm : st'.state.isTerminal = true := by
              rw [heff.skipped k hsk st' hl']
              rfl
            have hnr : ¬ Runs s₀ o k := fun hr => hr.not_skips (hskips k hsk)
            have hheads : σ.strategy.headJobsOf k = st.headJobs := by
              rw [headJobsOf, hlk]
              rfl
            rw [owedIn_of_terminal hterm, if_neg hk, if_pos hsk, hp₁,
              owedIn_skipped hnr (hskips k hsk), map_skipsFor, hskipped, hheads]
            simp only [hs.job, Nat.zero_add, Nat.add_zero]
          · rw [if_neg hk, if_neg hsk, Nat.add_zero,
              owedIn_congr (heff.others k st st' hk hsk ((hs.step k).trans hlk) hl')]
    rw [← h.count j v, Finset.sum_congr rfl fun k _ => hpoint k, Finset.sum_add_distrib,
      Finset.sum_add_distrib, Finset.sum_ite_eq', if_pos (h.mem_keys hldσ),
      sum_ite_mem_list heff.nodup fun k hk => (hpend k hk).elim fun st hl => h.mem_keys hl.1]
    have hpaid : (if v = .skipped then (res.1.cascadedSkips.map (·.jobId)).count j else 0)
        = (sk.map fun k => if v = .skipped then
            ((s₁.skipsFor d.drvPath (s₁.headJobsOf k)).map (·.jobId)).count j else 0).sum := by
      rw [heff.skips, List.map_flatMap, List.count_flatMap]
      split
      · rfl
      · simp
    have hflight : owedByFlight o σ.inFlight j v
        = (if d.headJob = some j ∧ v = .built (o d.drvPath) then 1 else 0)
          + owedByFlight o (σ.inFlight.filter fun d' => d'.token ≠ d.token) j v := by
      unfold owedByFlight
      rw [List.countP_eq_countP_filter_add _ _ fun d' => d'.token = d.token,
        filter_token h.tracks.nodup hd, List.countP_singleton]
      simp only [decide_eq_true_eq, decide_not]
    simp only [record, filter_token h.tracks.nodup hd, List.map_singleton, List.countP_append,
      List.countP_singleton, countP_tells_aliased, countP_tells_skipped, Event.tells, heff.aliases,
      decide_eq_true_eq]
    rw [hflight, ← hpaid]
    omega

theorem run {σ₀ : Session} (h : Follows s₀ o total σ₀) (hr : Run (DrivesAs o) σ₀ σ) :
    Follows s₀ o total σ := by
  induction hr with
  | refl => exact h
  | step _ hok hs hd ih =>
    cases hd with
    | setWeight r w => exact absurd hok (by simp [DrivesAs])
    | enqueue item _ => exact absurd hok (by simp [DrivesAs])
    | dispatch => exact ih.dispatch hs
    | complete token status =>
      obtain ⟨d, hmem, rfl, rfl⟩ := hok
      exact ih.complete hs hmem
    | cancelEval e => exact absurd hok (by simp [DrivesAs])

/-! ## The end of a run -/

/-- What closes at the end, closes as it was going to. -/
theorem ended (h : Follows s₀ o total σ) (hdr : Drained σ) {k : String} {st₀ st : Step}
    (hl₀ : s₀.byDrv.lookup k = some st₀) (hl : σ.strategy.byDrv.lookup k = some st)
    (hopen : st₀.state.isTerminal = false) (hnp : st.state ≠ .pending) :
    (Runs s₀ o k ∧ st.state = .fromStatus (o k)) ∨ (Skips s₀ o k ∧ st.state = .skipped) := by
  refine (h.since k st₀ st hl₀ hl).ended hopen ?_
  rcases st.state.pending_or_live_or_terminal with hp | hlive | ht
  · exact absurd hp hnp
  · rw [hdr k st hl] at hlive
    exact absurd hlive (by simp)
  · exact ht

theorem not_pending_of_runs (h : Follows s₀ o total σ) (hdr : Drained σ) {k : String}
    (hk : Runs s₀ o k) {st : Step} (hl : σ.strategy.byDrv.lookup k = some st) :
    st.state ≠ .pending := by
  induction hk generalizing st with
  | live hl₀ hlive => exact (h.since _ _ st hl₀ hl).live hlive
  | @waits k st₀ hl₀ hp₀ hrun hok ih =>
    intro hp
    -- a pending Step waits for one that has not succeeded
    have hne : σ.strategy.openEdges k ≠ 0 := by
      intro hz
      have hc := h.tracks.books.counter k st hl
      have := h.tracks.settled k st hl
      rw [← Bool.not_eq_true, Step.promotable_iff] at this
      exact this ⟨hp, by simpa [hz] using hc⟩
    obtain ⟨p, stp, hlp, hmem, hns⟩ := Counters.exists_edge_of_openEdges hne
    obtain ⟨stp₀, hlp₀, hr, -⟩ := h.links.symm.lookup hlp
    have hns₀ : stp₀.state.isSuccessfulTerminal = false := by
      by_contra hsucc
      rw [Bool.not_eq_false] at hsucc
      have := (h.since p stp₀ stp hlp₀ hlp).closed
        (StepState.isTerminal_of_isSuccessfulTerminal hsucc)
      rw [this, hsucc] at hns
      exact absurd hns (by simp)
    have hrunp := hrun p stp₀ hlp₀ (hr ▸ hmem) hns₀
    obtain ⟨stp₁, hlp₁, hopen⟩ := hrunp.isOpen
    obtain rfl : stp₀ = stp₁ := by simpa [hlp₀] using hlp₁
    rcases h.ended hdr hlp₀ hlp hopen (ih p stp₀ hlp₀ (hr ▸ hmem) hns₀ hlp) with
      ⟨-, hst⟩ | ⟨hsk, -⟩
    · rw [hst, StepState.isSuccessfulTerminal_fromStatus,
        hok p stp₀ hlp₀ (hr ▸ hmem) hns₀] at hns
      exact absurd hns (by simp)
    · exact hrunp.not_skips hsk

theorem not_pending_of_skips (h : Follows s₀ o total σ) (hdr : Drained σ) {k : String}
    (hk : Skips s₀ o k) {st : Step} (hl : σ.strategy.byDrv.lookup k = some st) :
    st.state ≠ .pending := by
  -- a Step that was open and is closed without success now has closed what is behind it
  have hseal : ∀ {p k : String} {stp₀ stp st : Step}, s₀.byDrv.lookup p = some stp₀ →
      stp₀.state.isTerminal = false → σ.strategy.byDrv.lookup p = some stp →
      stp.state.isTerminal = true → stp.state.isSuccessfulTerminal = false → s₀.Edge p k →
      σ.strategy.byDrv.lookup k = some st → st.state ≠ .pending := by
    intro p k stp₀ stp st hlp₀ hopen hlp hterm hns he hl hp
    obtain ⟨stp', hlp', hmem⟩ := (h.links.edge p k).mpr he
    obtain rfl : stp = stp' := by simpa [hlp] using hlp'
    have hnot : ¬ ∃ st, s₀.byDrv.lookup p = some st ∧ st.state.isTerminal = true := by
      rintro ⟨st', hl', ht'⟩
      obtain rfl : stp₀ = st' := by simpa [hlp₀] using hl'
      rw [hopen] at ht'
      exact absurd ht' (by simp)
    have := h.sealed p k stp st hnot hlp hterm hns hmem hl
    rw [hp] at this
    exact absurd this (by decide)
  induction hk generalizing st with
  | @failed p k _ hrun hfail he _ _ =>
    obtain ⟨stp₀, hlp₀, hopen⟩ := hrun.isOpen
    obtain ⟨stp, hlp, -⟩ := h.links.lookup hlp₀
    rcases h.ended hdr hlp₀ hlp hopen (h.not_pending_of_runs hdr hrun hlp) with
      ⟨-, hst⟩ | ⟨hsk, -⟩
    · refine hseal hlp₀ hopen hlp ?_ ?_ he hl
      · rw [hst]
        exact StepState.isTerminal_fromStatus _
      · rw [hst, StepState.isSuccessfulTerminal_fromStatus, hfail]
    · exact absurd hsk hrun.not_skips
  | @behind p k _ hsk he _ _ ih =>
    obtain ⟨stp₀, hlp₀, hp₀⟩ := hsk.pending
    obtain ⟨stp, hlp, -⟩ := h.links.lookup hlp₀
    have hopen : stp₀.state.isTerminal = false := by rw [hp₀]; rfl
    rcases h.ended hdr hlp₀ hlp hopen (ih hlp) with ⟨hrun, -⟩ | ⟨-, hst⟩
    · exact absurd hsk hrun.not_skips
    · exact hseal hlp₀ hopen hlp (by rw [hst]; rfl) (by rw [hst]; rfl) he hl

/-- Nothing is owed any more. -/
theorem owedBy_eq_zero (h : Follows s₀ o total σ) (hdr : Drained σ) (j : JobId) (v : Verdict)
    (k : String) : owedBy (Runs s₀ o) (Skips s₀ o) o σ.strategy j v k = 0 := by
  cases hl : σ.strategy.byDrv.lookup k with
  | none => simp [owedBy, hl]
  | some st =>
    rw [owedBy_eq hl]
    rcases st.state.pending_or_live_or_terminal with hp | hlive | ht
    · have hnr : ¬ Runs s₀ o k := fun hr => h.not_pending_of_runs hdr hr hl hp
      have hns : ¬ Skips s₀ o k := fun hk => h.not_pending_of_skips hdr hk hl hp
      simp [owedIn, hnr, hns]
    · rw [hdr k st hl] at hlive
      exact absurd hlive (by simp)
    · exact owedIn_of_terminal ht _ _ _

end Follows

/-- **The verdicts of a drained run are those the outcomes decide**, in whatever order it
    dispatched and completed. -/
theorem verdicts_of_drained {o : String → JobStatus} {σ₀ σ : Session} (h : Tracks σ₀)
    (hrun : Run (DrivesAs o) σ₀ σ) (hdr : Drained σ) (j : JobId) (v : Verdict) :
    σ.log.countP (Event.tells j v) = σ₀.log.countP (Event.tells j v) + owed o σ₀ j v := by
  have hf := (Follows.start (o := o) h).run hrun
  have hidle : σ.inFlight = [] := by
    refine List.eq_nil_iff_forall_not_mem.mpr fun d hd => ?_
    obtain ⟨st, hl, hst, -⟩ := (hf.tracks.runs d.drvPath d.token).mpr ⟨d, hd, rfl, rfl⟩
    have := hdr _ st hl
    rw [hst] at this
    exact absurd this (by decide)
  have hcount := hf.count j v
  rw [Finset.sum_eq_zero fun k _ => hf.owedBy_eq_zero hdr j v k, hidle] at hcount
  exact hcount

/-- A dispatch that answers nothing while nothing is in flight shows that the run is drained. -/
theorem Tracks.drained {σ : Session} (h : Tracks σ)
    (hcap : ∀ n, σ.strategy.wfq.concurrencyCap = some n → 0 < n) (hidle : σ.inFlight = [])
    {s₁ : DagStrategy} (hs : Shuffle σ.strategy s₁) (hnone : s₁.dispatch.1 = none) :
    Drained σ := by
  intro k st hl
  refine (h.books.shuffle hs).not_live_of_idle (fun n hn => hcap n (hs.wfq.concurrencyCap ▸ hn))
    ?_ hnone ((hs.step k).trans hl)
  intro k t hr
  obtain ⟨d, hmem, -⟩ := (h.runs k t).mp ((hs.runsAs k t).mp hr)
  rw [hidle] at hmem
  exact absurd hmem (by simp)

end Session

end Argunix.Sched
