import Argunix.Sched.Drain

/-!
# Verdicts across cancellation

`cancel_eval` walks the Jobs of one evaluation, in hash order, and closes the head Step of each
unless it is running or closed already. Each iteration changes what the later ones see: it
unlinks the Jobs of the Step it cancels, skips Steps behind it, and forgets its own Job.

That accounting is right as long as no two Jobs of the evaluation share a head Step:

* two Jobs on one Step that is **pending or ready** are both told when the first is reached; the
  second then finds no head Step and is told again (`told_twice`);
* an alias on a **running** Step is forgotten, so the completion of the Step does not mirror its
  status to it: it is never told (`never_told`).

`CancelSafe` excludes exactly these two situations at the moment of the call.
`settled_once` proves one verdict per Job of the evaluation for every run that cancels only in
safe states.
-/

set_option autoImplicit false

namespace Argunix.Sched

open Argunix.Lib

namespace DagStrategy

variable {s s' : DagStrategy} {e : EvalId}

/-- The Job is tracked as one of the evaluation's. -/
def TrackedBy (s : DagStrategy) (e : EvalId) (j : JobId) : Prop :=
  ∃ r, s.jobMeta.lookup j = some (r, e)

theorem mem_jobsOf_iff {j : JobId} : j ∈ s.jobsOf e ↔ s.TrackedBy e j := by
  unfold jobsOf TrackedBy
  simp only [List.mem_map, List.mem_filter, decide_eq_true_eq]
  constructor
  · rintro ⟨⟨j', r, e'⟩, ⟨hmem, he⟩, rfl⟩
    exact ⟨r, HashMap.mem_entries_iff.mp (he ▸ hmem)⟩
  · rintro ⟨r, hl⟩
    exact ⟨⟨j, (r, e)⟩, ⟨HashMap.mem_entries_iff.mpr hl, rfl⟩, rfl⟩

/-- At this moment, no Step that can still be cancelled stands for two Jobs of the evaluation,
    and no running Step has one of them as an alias. -/
def CancelSafe (s : DagStrategy) (e : EvalId) : Prop :=
  ∀ d st, s.byDrv.lookup d = some st →
    (st.state = .pending ∨ st.state = .ready →
      ∀ j ∈ st.headJobs, ∀ j' ∈ st.headJobs, s.TrackedBy e j → s.TrackedBy e j' → j = j') ∧
    (st.state = .running → ∀ j ∈ st.headJobs.drop 1, ¬ s.TrackedBy e j)

instance (s : DagStrategy) (e : EvalId) (j : JobId) : Decidable (s.TrackedBy e j) :=
  decidable_of_iff ((s.jobMeta.lookup j).map Prod.snd = some e) (by simp [TrackedBy])

instance (s : DagStrategy) (e : EvalId) : Decidable (s.CancelSafe e) :=
  decidable_of_iff (∀ x ∈ s.byDrv.entries,
      (x.2.state = .pending ∨ x.2.state = .ready →
        ∀ j ∈ x.2.headJobs, ∀ j' ∈ x.2.headJobs, s.TrackedBy e j → s.TrackedBy e j' → j = j') ∧
      (x.2.state = .running → ∀ j ∈ x.2.headJobs.drop 1, ¬ s.TrackedBy e j))
    ⟨fun h d st hl => h ⟨d, st⟩ (HashMap.mem_entries_iff.mpr hl),
      fun h x hx => h x.1 x.2 (HashMap.mem_entries_iff.mp hx)⟩

theorem CancelSafe.shuffle (h : CancelSafe s e) (hs : Shuffle s s') : CancelSafe s' e := by
  intro d st hl
  have := h d st ((hs.step d).symm.trans hl)
  simpa only [TrackedBy, hs.job] using this

/-! ## One iteration -/

/-- Every iteration forgets its Job. -/
theorem jobMeta_cancelJob (s : DagStrategy) (e : EvalId) (j j' : JobId) :
    (cancelJob e s j).2.jobMeta.lookup j' = if j' = j then none else s.jobMeta.lookup j' := by
  have hspec := cancelJob_spec s e j
  cases hres : cancelJob e s j with
  | mk skips s' =>
    rw [hres] at hspec
    cases hspec with
    | gone _ hm =>
      split
      · rename_i heq
        rw [heq, hm]
      · rfl
    | orphaned _ _ => exact HashMap.lookup_erase_eq _ _ _
    | kept _ _ => exact HashMap.lookup_erase_eq _ _ _
    | @cancelled d step sk out s₁ hf hp hc =>
      have hm : s₁.jobMeta = s.jobMeta := by
        rw [hc.state, skipAll_jobMeta]
        rfl
      rw [← hm]
      exact HashMap.lookup_erase_eq _ _ _

theorem TrackedBy.of_cancelJob {j j' : JobId} (h : (cancelJob e s j).2.TrackedBy e j') :
    s.TrackedBy e j' ∧ j' ≠ j := by
  obtain ⟨r, hr⟩ := h
  rw [jobMeta_cancelJob] at hr
  split at hr
  · exact absurd hr (by simp)
  · rename_i hne
    exact ⟨⟨r, hr⟩, hne⟩

theorem trackedBy_forgetJob_iff {j j' : JobId} :
    (s.forgetJob j).TrackedBy e j' ↔ s.TrackedBy e j' ∧ j' ≠ j := by
  unfold TrackedBy forgetJob
  simp only [HashMap.lookup_erase_eq]
  by_cases hj : j' = j <;> simp [hj]

theorem TrackedBy.of_forgetJob {j j' : JobId} (h : (s.forgetJob j).TrackedBy e j') :
    s.TrackedBy e j' ∧ j' ≠ j :=
  trackedBy_forgetJob_iff.mp h

/-- Afterwards no Job is tracked as one of the evaluation's. -/
theorem not_trackedBy_cancelEval (s : DagStrategy) (e : EvalId) (j : JobId) :
    ¬ (s.cancelEval e).2.TrackedBy e j := by
  by_cases hj : j ∈ s.jobsOf e
  · have hnone : (s.cancelEval e).2.jobMeta.lookup j = none := by
      unfold cancelEval
      refine foldl_establishes (I := fun _ => True)
        (Q := fun acc : List CascadedSkip × DagStrategy => acc.2.jobMeta.lookup j = none) (x := j)
        (fun _ _ _ => trivial) ?_ ?_ _ _ trivial hj
      · rintro ⟨skips, s'⟩ j' - hq
        simp only [jobMeta_cancelJob]
        split
        · rfl
        · exact hq
      · rintro ⟨skips, s'⟩ -
        simp only [jobMeta_cancelJob, if_true]
    rintro ⟨r, hr⟩
    rw [hnone] at hr
    exact absurd hr (by simp)
  · intro hin
    refine hj (mem_jobsOf_iff.mpr ?_)
    revert hin
    refine cancelEval_rec (P := fun _ s' => s'.TrackedBy e j → s.TrackedBy e j) id ?_
    intro _ s' j' _ ih h
    exact ih h.of_cancelJob.1

/-- A Step the iteration leaves open is left as it was. -/
theorem open_of_cancelJob {j : JobId} {k : String} {st' : Step}
    (hl : (cancelJob e s j).2.byDrv.lookup k = some st') (hopen : st'.state.isTerminal = false) :
    s.byDrv.lookup k = some st' := by
  have hspec := cancelJob_spec s e j
  cases hres : cancelJob e s j with
  | mk skips s' =>
    rw [hres] at hspec hl
    cases hspec with
    | gone _ _ => exact hl
    | orphaned _ _ => exact hl
    | kept _ _ => exact hl
    | @cancelled d step sk out s₁ hf hp hc =>
      have hl₁ : s₁.byDrv.lookup k = some st' := hl
      rw [hc.state, lookup_skipAll, lookup_cancelHead] at hl₁
      split at hl₁
      · obtain ⟨st, -, rfl⟩ := Option.map_eq_some_iff.mp hl₁
        exact absurd hopen (by simp [StepState.isTerminal])
      · split at hl₁
        · obtain ⟨st, -, rfl⟩ := Option.map_eq_some_iff.mp hl₁
          exact absurd hopen (by simp [StepState.isTerminal])
        · exact hl₁

theorem CancelSafe.cancelJob (h : CancelSafe s e) (j : JobId) :
    CancelSafe (DagStrategy.cancelJob e s j).2 e := by
  intro d st hl
  refine ⟨fun hp j₁ hj₁ j₂ hj₂ ht₁ ht₂ => ?_, fun hrun j₁ hj₁ ht₁ => ?_⟩
  · have hold := open_of_cancelJob hl (by rcases hp with hp | hp <;> rw [hp] <;> rfl)
    exact (h d st hold).1 hp j₁ hj₁ j₂ hj₂ ht₁.of_cancelJob.1 ht₂.of_cancelJob.1
  · have hold := open_of_cancelJob hl (by rw [hrun]; rfl)
    exact (h d st hold).2 hrun j₁ hj₁ ht₁.of_cancelJob.1

/-! ## The verdicts of one evaluation's Jobs -/

/-- Each Job of the evaluation has one verdict if its head Step is closed, and none before.
    `count` says how many each has received. -/
structure Accounted (e : EvalId) (items : List ScheduleItem) (count : JobId → ℕ)
    (s : DagStrategy) : Prop where
  /-- A Step stands for the Jobs it was loaded with, until it is cancelled; then none of the
      evaluation's Jobs behind it is tracked any more. -/
  linked : ∀ d st, s.byDrv.lookup d = some st → st.headJobs = jobsAt items d ∨
    (st.state = .cancelled ∧ st.headJobs = [] ∧ ∀ j ∈ jobsAt items d, ¬ s.TrackedBy e j)
  present : ∀ item ∈ items, ∃ st, s.byDrv.lookup item.headDrv.drvPath = some st
  once : ∀ item ∈ items, item.evalId = e → ∀ st, s.byDrv.lookup item.headDrv.drvPath = some st →
    count item.jobId = if st.state.isTerminal then 1 else 0
  /-- A Job that is no longer tracked is closed, or is the primary Job of a running Step. -/
  held : ∀ item ∈ items, item.evalId = e → ∀ st, s.byDrv.lookup item.headDrv.drvPath = some st →
    ¬ s.TrackedBy e item.jobId → st.state.isTerminal = true ∨
      (st.state = .running ∧ (jobsAt items item.headDrv.drvPath).head? = some item.jobId)
  owner : ∀ item ∈ items, s.TrackedBy e item.jobId → item.evalId = e

namespace Accounted

variable {items : List ScheduleItem} {count : JobId → ℕ}

theorem congr (h : Accounted e items count s) {count' : JobId → ℕ}
    (hc : ∀ j, count' j = count j) : Accounted e items count' s :=
  ⟨h.linked, h.present, fun item hi he st hl => (hc _).trans (h.once item hi he st hl), h.held,
    h.owner⟩

theorem shuffle (h : Accounted e items count s) (hs : Shuffle s s') :
    Accounted e items count s' := by
  refine ⟨?_, ?_, ?_, ?_, ?_⟩
  · simpa only [hs.step, TrackedBy, hs.job] using h.linked
  · simpa only [hs.step] using h.present
  · simpa only [hs.step] using h.once
  · simpa only [hs.step, TrackedBy, hs.job] using h.held
  · simpa only [TrackedBy, hs.job] using h.owner

/-- An open Step still stands for all of its Jobs. -/
theorem jobs_of_open (h : Accounted e items count s) {d : String} {st : Step}
    (hl : s.byDrv.lookup d = some st) (hopen : st.state.isTerminal = false) :
    st.headJobs = jobsAt items d := by
  rcases h.linked d st hl with hj | ⟨hc, -⟩
  · exact hj
  · rw [hc] at hopen
    exact absurd hopen (by decide)

/-- A Job whose head Step has not been started is tracked. -/
theorem tracked_of_waiting (h : Accounted e items count s) {item : ScheduleItem} (hi : item ∈ items)
    (he : item.evalId = e) {st : Step} (hl : s.byDrv.lookup item.headDrv.drvPath = some st)
    (hp : st.state = .pending ∨ st.state = .ready) : s.TrackedBy e item.jobId := by
  by_contra hno
  rcases h.held item hi he st hl hno with ht | ⟨hr, -⟩
  · rcases hp with hp | hp <;> rw [hp] at ht <;> exact absurd ht (by decide)
  · rcases hp with hp | hp <;> rw [hp] at hr <;> exact absurd hr (by decide)

/-- How often a skip list tells a Job of the evaluation: once if its head Step is skipped. -/
theorem count_cascade (h : Accounted e items count s) (hnd : (items.map (·.jobId)).Nodup)
    {sk : List String} (hsk : sk.Nodup) {reason : String}
    (hp : ∀ d ∈ sk, ∃ st, s.byDrv.lookup d = some st ∧ st.state = .pending)
    {item : ScheduleItem} (hi : item ∈ items) (he : item.evalId = e) :
    ((sk.flatMap fun d => s.skipsFor reason (s.headJobsOf d)).map (·.jobId)).count item.jobId
      = if item.headDrv.drvPath ∈ sk then 1 else 0 := by
  have hj : item.jobId ∈ jobsAt items item.headDrv.drvPath :=
    mem_jobsAt_iff.mpr ⟨item, hi, rfl, rfl⟩
  rw [map_flatMap_skipsFor, List.count_flatMap, ← count_flatMap_jobsAt hnd hj hsk,
    List.count_flatMap]
  congr 1
  refine List.map_congr_left fun d hd => ?_
  obtain ⟨st, hl, hst⟩ := hp d hd
  have hjobs : s.headJobsOf d = jobsAt items d := by
    rw [headJobsOf, hl]
    exact h.jobs_of_open hl (by rw [hst]; rfl)
  simp only [Function.comp_apply, hjobs]
  by_cases hmem : item.jobId ∈ jobsAt items d
  · -- its head Step is pending, so it is tracked and not filtered out
    obtain rfl := jobsAt_unique hnd hmem hj
    obtain ⟨r, hr⟩ := h.tracked_of_waiting hi he hl (Or.inl hst)
    exact List.count_filter (by rw [hr]; rfl)
  · rw [List.count_eq_zero.mpr hmem, List.count_eq_zero]
    exact fun hm => hmem (List.mem_of_mem_filter hm)

/-- A Job is forgotten once its verdict no longer depends on being tracked. -/
theorem forgetJob (h : Accounted e items count s) {j : JobId}
    (hj : ∀ item ∈ items, item.jobId = j → item.evalId = e → ∀ st,
      s.byDrv.lookup item.headDrv.drvPath = some st → st.state.isTerminal = true ∨
        (st.state = .running ∧ (jobsAt items item.headDrv.drvPath).head? = some j)) :
    Accounted e items count (s.forgetJob j) := by
  refine ⟨?_, h.present, h.once, ?_, ?_⟩
  · intro d st hl
    rcases h.linked d st hl with hjobs | ⟨hc, hnil, hno⟩
    · exact Or.inl hjobs
    · exact Or.inr ⟨hc, hnil, fun j' hj' ht => hno j' hj' ht.of_forgetJob.1⟩
  · intro item hi he st hl hno
    by_cases heq : item.jobId = j
    · rw [heq]
      exact hj item hi heq he st hl
    · refine h.held item hi he st hl fun ht => hno ?_
      exact trackedBy_forgetJob_iff.mpr ⟨ht, heq⟩
  · intro item hi ht
    exact h.owner item hi ht.of_forgetJob.1

/-- A Job found at a Step was loaded there. -/
theorem loaded_of_head (h : Accounted e items count s) {d : String} {st : Step} {j : JobId}
    (hl : s.byDrv.lookup d = some st) (hj : j ∈ st.headJobs) :
    st.headJobs = jobsAt items d ∧ j ∈ jobsAt items d := by
  rcases h.linked d st hl with hjobs | ⟨-, hnil, -⟩
  · exact ⟨hjobs, hjobs ▸ hj⟩
  · rw [hnil] at hj
    exact absurd hj (by simp)

/-- The head Step of a Job is not cancelled: it is closed already, or the Job is its primary. -/
theorem kept (h : Accounted e items count s) (hsafe : CancelSafe s e)
    (hnd : (items.map (·.jobId)).Nodup) {j : JobId} {d : String} {step : Step}
    (hld : s.byDrv.lookup d = some step) (hj : j ∈ step.headJobs)
    (hst : step.state = .running ∨ step.state.isTerminal = true) :
    Accounted e items count (s.forgetJob j) := by
  obtain ⟨hjobs, hmem⟩ := h.loaded_of_head hld hj
  refine h.forgetJob fun item hi hij he st hl => ?_
  obtain rfl : item.headDrv.drvPath = d :=
    jobsAt_unique hnd (mem_jobsAt_iff.mpr ⟨item, hi, rfl, hij⟩) hmem
  obtain rfl : step = st := by simpa [hld] using hl
  rcases hst with hrun | hterm
  · by_cases htr : s.TrackedBy e item.jobId
    · refine Or.inr ⟨hrun, ?_⟩
      have hnot : j ∉ (jobsAt items item.headDrv.drvPath).drop 1 := by
        rw [← hjobs, ← hij]
        exact fun hm => (hsafe _ step hld).2 hrun _ hm htr
      cases hall : jobsAt items item.headDrv.drvPath with
      | nil =>
        rw [hall] at hmem
        exact absurd hmem (by simp)
      | cons a l =>
        rw [hall] at hmem hnot
        rcases List.mem_cons.mp hmem with rfl | hm
        · rfl
        · exact absurd hm hnot
    · rw [← hij]
      exact h.held item hi he step hl htr
  · exact Or.inl hterm

/-- The head Step of a Job is cancelled, with everything behind it. -/
theorem cancelled (h : Accounted e items count s) (hb : Bookkeeping [] s) (hsafe : CancelSafe s e)
    (hnd : (items.map (·.jobId)).Nodup) {j : JobId} {d : String} {step : Step} {sk : List String}
    {out : List CascadedSkip} (hij : ∀ item ∈ items, item.jobId = j → item.evalId = e)
    (hld : s.byDrv.lookup d = some step) (hj : j ∈ step.headJobs)
    (hp : step.state = .pending ∨ step.state = .ready)
    (hc : Cascaded (s.cancelHead d) d sk out s') :
    Accounted e items
      (fun j' => count j' + (step.headJobs.count j' + (out.map (·.jobId)).count j'))
      (s'.forgetJob j) := by
  obtain ⟨hjobs, hmem⟩ := h.loaded_of_head hld hj
  obtain ⟨itemj, hij₁, hij₂, hij₃⟩ := mem_jobsAt_iff.mp hmem
  have hold : step.state.isTerminal = false := by rcases hp with hp | hp <;> rw [hp] <;> rfl
  have hdsk : d ∉ sk := by
    intro hm
    obtain ⟨st, hl, hopen⟩ := hc.isOpen d hm
    rw [lookup_cancelHead, if_pos rfl] at hl
    obtain ⟨st', -, rfl⟩ := Option.map_eq_some_iff.mp hl
    exact absurd hopen (by simp [StepState.isTerminal])
  have hpend : ∀ k ∈ sk, ∃ st, s.byDrv.lookup k = some st ∧ st.state = .pending := by
    intro k hk
    obtain ⟨st, hl, hst⟩ := hb.pending_of_cancelled hld hp hc k hk
    rw [lookup_cancelHead, if_neg (fun heq : k = d => hdsk (heq ▸ hk))] at hl
    exact ⟨st, hl, hst⟩
  have hmeta : s'.jobMeta = s.jobMeta := by
    rw [hc.state, skipAll_jobMeta]
    rfl
  have htr : ∀ j', (s'.forgetJob j).TrackedBy e j' ↔ s.TrackedBy e j' ∧ j' ≠ j := by
    intro j'
    rw [trackedBy_forgetJob_iff, TrackedBy, TrackedBy, hmeta]
  -- the only Job of the evaluation at this Step is the one at hand
  have honly : ∀ j' ∈ jobsAt items d, s.TrackedBy e j' → j' = j := by
    intro j' hj' ht'
    have htj : s.TrackedBy e j := by
      have := h.tracked_of_waiting hij₁ (hij itemj hij₁ hij₃) (hij₂ ▸ hld) hp
      rwa [hij₃] at this
    exact (hsafe d step hld).1 hp j' (hjobs ▸ hj') j hj ht' htj
  have hlook : ∀ k, (s'.forgetJob j).byDrv.lookup k
      = if k ∈ sk then (s.byDrv.lookup k).map (·.close .skipped)
        else if k = d then (s.byDrv.lookup d).map fun st => (st.close .cancelled).unlinkJobs
        else s.byDrv.lookup k := by
    intro k
    rw [show (s'.forgetJob j).byDrv = s'.byDrv from rfl, hc.state, lookup_skipAll,
      lookup_cancelHead]
    by_cases hk : k = d
    · subst hk
      simp [hdsk]
    · simp [hk]
  refine ⟨?_, ?_, ?_, ?_, ?_⟩
  · intro k st hl
    rw [hlook] at hl
    split at hl
    · rename_i hk
      obtain ⟨st₀, hl₀, rfl⟩ := Option.map_eq_some_iff.mp hl
      obtain ⟨st₁, hl₁, hst₁⟩ := hpend k hk
      obtain rfl : st₀ = st₁ := by simpa [hl₀] using hl₁
      have hjobs₀ := h.jobs_of_open hl₀ (by rw [hst₁]; rfl)
      exact Or.inl hjobs₀
    · split at hl
      · rename_i hk
        subst hk
        obtain ⟨st₀, hl₀, rfl⟩ := Option.map_eq_some_iff.mp hl
        refine Or.inr ⟨rfl, rfl, fun j' hj' ht' => ?_⟩
        obtain ⟨ht', hne⟩ := (htr j').mp ht'
        exact hne (honly j' hj' ht')
      · rcases h.linked k st hl with hk | ⟨hcan, hnil, hno⟩
        · exact Or.inl hk
        · exact Or.inr ⟨hcan, hnil, fun j' hj' ht' => hno j' hj' ((htr j').mp ht').1⟩
  · intro item hi
    obtain ⟨st, hl⟩ := h.present item hi
    rw [hlook]
    split
    · exact ⟨_, by rw [hl]; rfl⟩
    · split
      · exact ⟨_, by rw [hld]; rfl⟩
      · exact ⟨st, hl⟩
  · intro item hi he st hl
    have hat : item.jobId ∈ jobsAt items item.headDrv.drvPath :=
      mem_jobsAt_iff.mpr ⟨item, hi, rfl, rfl⟩
    have hout : (out.map (·.jobId)).count item.jobId
        = if item.headDrv.drvPath ∈ sk then 1 else 0 := by
      have hsame : (sk.flatMap fun k =>
            (s.cancelHead d).skipsFor d ((s.cancelHead d).headJobsOf k))
          = sk.flatMap fun k => s.skipsFor d (s.headJobsOf k) := by
        refine List.flatMap_congr fun k hk => ?_
        have : (s.cancelHead d).headJobsOf k = s.headJobsOf k := by
          rw [headJobsOf, headJobsOf, lookup_cancelHead,
            if_neg (fun heq : k = d => hdsk (heq ▸ hk))]
        rw [this]
        rfl
      rw [hc.skips, hsame]
      exact h.count_cascade hnd hc.nodup hpend hi he
    simp only [hout, hjobs, count_jobsAt hnd hat]
    rw [hlook] at hl
    split at hl
    · rename_i hk
      obtain ⟨st₀, hl₀, rfl⟩ := Option.map_eq_some_iff.mp hl
      obtain ⟨st₁, hl₁, hst₁⟩ := hpend _ hk
      rw [h.once item hi he st₁ hl₁, hst₁, if_neg (fun heq : d = _ => hdsk (heq ▸ hk)), if_pos hk]
      rfl
    · split at hl
      · rename_i hk
        subst hk
        obtain ⟨st₀, hl₀, rfl⟩ := Option.map_eq_some_iff.mp hl
        rw [h.once item hi he step hld, hold, if_pos rfl, if_neg hdsk]
        rfl
      · rename_i hsk hk
        rw [h.once item hi he st hl, if_neg (fun heq : d = _ => hk heq.symm), if_neg hsk,
          Nat.add_zero]
  · intro item hi he st hl hno
    rw [htr, not_and_or, not_not] at hno
    have hat : item.jobId ∈ jobsAt items item.headDrv.drvPath :=
      mem_jobsAt_iff.mpr ⟨item, hi, rfl, rfl⟩
    rw [hlook] at hl
    split at hl
    · obtain ⟨st₀, -, rfl⟩ := Option.map_eq_some_iff.mp hl
      exact Or.inl rfl
    · split at hl
      · obtain ⟨st₀, -, rfl⟩ := Option.map_eq_some_iff.mp hl
        exact Or.inl rfl
      · rename_i hk
        rcases hno with hno | hno
        · exact h.held item hi he st hl hno
        · exact absurd (jobsAt_unique hnd (hno ▸ hat) hmem) hk
  · intro item hi ht
    exact h.owner item hi ((htr _).mp ht).1

/-- One iteration of a safe cancellation. -/
theorem cancelJob (h : Accounted e items count s) (hb : Bookkeeping [] s) (hsafe : CancelSafe s e)
    (hnd : (items.map (·.jobId)).Nodup) {j : JobId}
    (hij : ∀ item ∈ items, item.jobId = j → item.evalId = e)
    (howner : ∀ o, s.jobMeta.lookup j = some o → o.2 = e) :
    Accounted e items
      (fun j' => count j' + ((DagStrategy.cancelJob e s j).1.map (·.jobId)).count j')
      (DagStrategy.cancelJob e s j).2 := by
  have hspec := cancelJob_spec s e j
  cases hres : DagStrategy.cancelJob e s j with
  | mk skips s' =>
    rw [hres] at hspec
    cases hspec with
    | gone _ _ => exact h
    | @orphaned owner hf hm =>
      -- a tracked Job still has its head Step, so this one was never loaded
      have hnone : ∀ item ∈ items, item.jobId ≠ j := by
        intro item hi heq
        obtain ⟨st, hl⟩ := h.present item hi
        have hat : j ∈ jobsAt items item.headDrv.drvPath := mem_jobsAt_iff.mpr ⟨item, hi, rfl, heq⟩
        rcases h.linked _ st hl with hjobs | ⟨-, -, hno⟩
        · exact findHead_eq_none_iff.mp hf _ st hl (hjobs ▸ hat)
        · exact hno j hat ⟨owner.1, by rw [hm, ← howner owner hm]⟩
      have hforget := h.forgetJob (j := j) fun item hi heq => absurd heq (hnone item hi)
      refine ⟨hforget.linked, hforget.present, fun item hi he st hl => ?_, hforget.held,
        hforget.owner⟩
      rw [← hforget.once item hi he st hl, List.map_singleton,
        List.count_singleton, if_neg (by simpa using (hnone item hi).symm), Nat.add_zero]
    | kept hf hst =>
      obtain ⟨hld, hj⟩ := findHead_eq_some hf
      exact h.kept hsafe hnd hld hj hst
    | @cancelled d step sk out s₁ hf hp hc =>
      obtain ⟨hld, hj⟩ := findHead_eq_some hf
      refine (h.cancelled hb hsafe hnd hij hld hj hp hc).congr fun j' => ?_
      simp only [List.map_append, List.count_append, directSkips, List.map_map, Function.comp_def,
        List.map_id']

/-- **A safe cancellation tells every Job it closes, and no Job twice.** -/
theorem cancelEval (h : Accounted e items count s) (hb : Bookkeeping [] s) (hsafe : CancelSafe s e)
    (hnd : (items.map (·.jobId)).Nodup) :
    Accounted e items
      (fun j => count j + ((s.cancelEval e).1.map (·.jobId)).count j) (s.cancelEval e).2 := by
  suffices hsuff : Bookkeeping [] (s.cancelEval e).2 ∧ CancelSafe (s.cancelEval e).2 e ∧
      (∀ j o, (s.cancelEval e).2.jobMeta.lookup j = some o → s.jobMeta.lookup j = some o) ∧
      Accounted e items (fun j => count j + ((s.cancelEval e).1.map (·.jobId)).count j)
        (s.cancelEval e).2 from hsuff.2.2.2
  refine cancelEval_rec (P := fun skips s' => Bookkeeping [] s' ∧ CancelSafe s' e ∧
    (∀ j o, s'.jobMeta.lookup j = some o → s.jobMeta.lookup j = some o) ∧
    Accounted e items (fun j => count j + (skips.map (·.jobId)).count j) s')
    ⟨hb, hsafe, fun _ _ => id, h⟩ ?_
  rintro skips s' j hj ⟨hb', hsafe', hsub, hacc⟩
  obtain ⟨r, hr⟩ := mem_jobsOf_iff.mp hj
  refine ⟨hb'.cancelJob e j, hsafe'.cancelJob j, fun j' o ho => ?_, ?_⟩
  · rw [jobMeta_cancelJob] at ho
    split at ho
    · exact absurd ho (by simp)
    · exact hsub j' o ho
  · refine (hacc.cancelJob hb' hsafe' hnd ?_ ?_).congr fun j' => ?_
    · rintro item hi rfl
      exact h.owner item hi ⟨r, hr⟩
    · intro o ho
      rw [hsub j o ho, Option.some.injEq] at hr
      rw [hr]
    · rw [List.map_append, List.count_append, Nat.add_assoc]

/-- While the graph keeps its shape, only the verdicts of Steps that close change. -/
theorem of_sameLinks (h : Accounted e items count s) {count' : JobId → ℕ} (hlinks : SameLinks s s')
    (hmeta : s'.jobMeta = s.jobMeta)
    (hstate : ∀ d st st', s.byDrv.lookup d = some st → s'.byDrv.lookup d = some st' →
      (st.state.isTerminal = true → st'.state = st.state) ∧
      (st.state = .running → st'.state = .running ∨ st'.state.isTerminal = true))
    (honce : ∀ item ∈ items, item.evalId = e → ∀ st,
      s'.byDrv.lookup item.headDrv.drvPath = some st →
      count' item.jobId = if st.state.isTerminal then 1 else 0) :
    Accounted e items count' s' := by
  have htr : ∀ j, s'.TrackedBy e j ↔ s.TrackedBy e j := by
    intro j
    rw [TrackedBy, TrackedBy, hmeta]
  refine ⟨?_, ?_, honce, ?_, ?_⟩
  · intro d st' hl'
    obtain ⟨st, hl, -, hjobs⟩ := hlinks.symm.lookup hl'
    rcases h.linked d st hl with hj | ⟨hc, hnil, hno⟩
    · exact Or.inl (hjobs ▸ hj)
    · refine Or.inr ⟨((hstate d st st' hl hl').1 (by rw [hc]; rfl)).trans hc, hjobs ▸ hnil, ?_⟩
      intro j hj ht
      exact hno j hj ((htr j).mp ht)
  · intro item hi
    obtain ⟨st, hl⟩ := h.present item hi
    obtain ⟨st', hl', -⟩ := hlinks.lookup hl
    exact ⟨st', hl'⟩
  · intro item hi he st' hl' hno
    obtain ⟨st, hl, -⟩ := hlinks.symm.lookup hl'
    rcases h.held item hi he st hl fun ht => hno ((htr _).mpr ht) with hterm | ⟨hrun, hhead⟩
    · exact Or.inl (((hstate _ st st' hl hl').1 hterm) ▸ hterm)
    · rcases (hstate _ st st' hl hl').2 hrun with hrun' | hterm'
      · exact Or.inr ⟨hrun', hhead⟩
      · exact Or.inl hterm'
  · intro item hi ht
    exact h.owner item hi ((htr _).mp ht)

/-- A dispatch tells nobody: the verdict counts when the Step completes. -/
theorem dispatch (h : Accounted e items count s) (hb : Bookkeeping [] s) :
    Accounted e items count s.dispatch.2 := by
  have hstate : ∀ d st st', s.byDrv.lookup d = some st → s.dispatch.2.byDrv.lookup d = some st' →
      st'.state = st.state ∨ (st.state = .ready ∧ st'.state = .running) := by
    have hspec := dispatch_spec s hb.known_token
    cases hres : s.dispatch with
    | mk o s' =>
      rw [hres] at hspec
      intro d st st' hl hl'
      cases hspec with
      | idle _ _ =>
        obtain rfl : st = st' := by simpa [hl] using hl'
        exact Or.inl rfl
      | @run c c' p k step hc hpop ht hlk =>
        have hready := (hb.toTokens.swallowed hc).ready_of_pop hpop ht hlk
        rcases HashMap.lookup_modify_cases hl' with ⟨rfl, st₀, hl₀, rfl⟩ | ⟨-, hl₀⟩
        · obtain rfl : st = step := by simpa [hl] using hlk
          exact Or.inr ⟨hready, rfl⟩
        · obtain rfl : st = st' := by simpa [hl] using hl₀
          exact Or.inl rfl
  refine h.of_sameLinks hb.sameLinks_dispatch hb.jobMeta_dispatch ?_ ?_
  · intro d st st' hl hl'
    rcases hstate d st st' hl hl' with heq | ⟨hready, hrun⟩
    · exact ⟨fun _ => heq, fun hr => Or.inl (heq.trans hr)⟩
    · refine ⟨fun ht => ?_, fun hr => ?_⟩
      · rw [hready] at ht
        exact absurd ht (by decide)
      · exact Or.inl hrun
  · intro item hi he st' hl'
    obtain ⟨st, hl, -⟩ := hb.sameLinks_dispatch.symm.lookup hl'
    rw [h.once item hi he st hl]
    rcases hstate _ st st' hl hl' with heq | ⟨hready, hrun⟩
    · rw [heq]
    · rw [hready, hrun]
      rfl

/-- The Jobs of a Step that ends: its primary and the aliases that are still tracked. -/
theorem count_ended (h : Accounted e items count s) (hnd : (items.map (·.jobId)).Nodup)
    {d : String} {step : Step} (hld : s.byDrv.lookup d = some step) (hrun : step.state = .running)
    {item : ScheduleItem} (hi : item ∈ items) (he : item.evalId = e) :
    (if (jobsAt items d).head? = some item.jobId then 1 else 0)
        + ((s.aliasesFor step.headJobs).map (·.jobId)).count item.jobId
      = if item.headDrv.drvPath = d then 1 else 0 := by
  have hjobs : step.headJobs = jobsAt items d := h.jobs_of_open hld (by rw [hrun]; rfl)
  have hat : item.jobId ∈ jobsAt items item.headDrv.drvPath :=
    mem_jobsAt_iff.mpr ⟨item, hi, rfl, rfl⟩
  rw [map_aliasesFor, hjobs]
  by_cases hd : item.headDrv.drvPath = d
  · subst hd
    have hone := Session.Draining.head_add_count_tail (jobsAt_nodup hnd _) hat
    rw [if_pos rfl]
    by_cases htr : s.TrackedBy e item.jobId
    · obtain ⟨r, hr⟩ := htr
      rw [List.count_filter (by rw [hr]; rfl)]
      exact hone
    · -- forgotten by a cancellation: then it is the primary
      rcases h.held item hi he step hld htr with hterm | ⟨-, hhead⟩
      · rw [hrun] at hterm
        exact absurd hterm (by decide)
      · rw [if_pos hhead] at hone ⊢
        have hzero : ((jobsAt items item.headDrv.drvPath).drop 1).count item.jobId = 0 := by omega
        rw [List.count_eq_zero.mpr fun hm =>
          List.count_eq_zero.mp hzero (List.mem_of_mem_filter hm)]
  · have hnot : item.jobId ∉ jobsAt items d := fun hm => hd (jobsAt_unique hnd hat hm)
    rw [if_neg fun hhead => hnot (List.mem_of_head? hhead), if_neg hd,
      List.count_eq_zero.mpr fun hm => hnot (List.mem_of_mem_drop (List.mem_of_mem_filter hm))]

/-- A completion tells the Jobs of the Step it closes and of every Step it skips. -/
theorem complete (h : Accounted e items count s) (hb : Bookkeeping [] s)
    (hnd : (items.map (·.jobId)).Nodup) {token : DispatchToken} (status : JobStatus) {d : String}
    {step : Step} (ht : s.tokenToDrv.lookup token = some d) (hld : s.byDrv.lookup d = some step)
    (hrun : step.state = .running) :
    Accounted e items
      (fun j => count j + ((if (jobsAt items d).head? = some j then 1 else 0)
        + ((s.complete token status).1.aliasCompletions.map (·.jobId)).count j
        + ((s.complete token status).1.cascadedSkips.map (·.jobId)).count j))
      (s.complete token status).2 := by
  obtain ⟨sk, heff⟩ := hb.completed ht hld status
  have hlinks := hb.sameLinks_complete token status
  have hopen : step.state.isTerminal = false := by rw [hrun]; rfl
  refine h.of_sameLinks hlinks (hb.jobMeta_complete token status) ?_ ?_
  · intro k st st' hl hl'
    by_cases hk : k = d
    · subst hk
      obtain rfl : step = st := by simpa [hld] using hl
      have hterm := heff.ended st' hl'
      refine ⟨fun ht => absurd ht (by simp [hopen]), fun _ => Or.inr ?_⟩
      rw [hterm]
      exact StepState.isTerminal_fromStatus status
    · by_cases hsk : k ∈ sk
      · obtain ⟨st₀, hl₀, hp⟩ := heff.pending k hsk
        obtain rfl : st = st₀ := by simpa [hl] using hl₀
        rw [hp]
        exact ⟨fun ht => absurd ht (by decide), fun hr => absurd hr (by decide)⟩
      · rcases heff.others k st st' hk hsk hl hl' with heq | ⟨hp, -⟩
        · exact ⟨fun _ => heq, fun hr => Or.inl (heq.trans hr)⟩
        · rw [hp]
          exact ⟨fun ht => absurd ht (by decide), fun hr => absurd hr (by decide)⟩
  · intro item hi he st' hl'
    obtain ⟨st, hl, -⟩ := hlinks.symm.lookup hl'
    rw [heff.aliases, h.count_ended hnd hld hrun hi he, heff.skips,
      h.count_cascade hnd heff.nodup heff.pending hi he, h.once item hi he st hl]
    by_cases hk : item.headDrv.drvPath = d
    · obtain rfl : step = st := by rw [hk, hld] at hl; simpa using hl
      rw [hopen, heff.ended st' (hk ▸ hl'), StepState.isTerminal_fromStatus, if_pos hk,
        if_neg (fun hm => heff.fresh (hk ▸ hm))]
      rfl
    · by_cases hsk : item.headDrv.drvPath ∈ sk
      · obtain ⟨st₀, hl₀, hp⟩ := heff.pending _ hsk
        obtain rfl : st = st₀ := by simpa [hl] using hl₀
        rw [hp, heff.skipped _ hsk st' hl', if_neg hk, if_pos hsk]
        rfl
      · rw [if_neg hk, if_neg hsk, Nat.add_zero]
        rcases heff.others _ st st' hk hsk hl hl' with heq | ⟨hp, hr⟩
        · rw [heq]
        · rw [hp, hr]
          rfl

end Accounted

theorem Loaded.accounted {cap : Option ℕ} {items : List ScheduleItem} (h : Loaded cap items s)
    (hnd : (items.map (·.jobId)).Nodup) : Accounted e items (fun _ => 0) s := by
  refine ⟨?_, ?_, ?_, ?_, ?_⟩
  · intro d st hl
    refine Or.inl ?_
    rw [← h.headJobs d, headJobsOf, hl]
    rfl
  · intro item hi
    exact h.present item hi item.headDrv (by simp [mentions])
  · intro item _ _ st hl
    rcases h.fresh _ st hl with hp | hp <;> rw [hp] <;> rfl
  · intro item hi he st _ hno
    exact absurd ⟨item.repoId, by rw [h.tracked hnd item hi, he]⟩ hno
  · rintro item hi ⟨r, hr⟩
    rw [h.tracked hnd item hi, Option.some.injEq, Prod.mk.injEq] at hr
    exact hr.2

/-! ## What a cancellation leaves alone -/

theorem edge_cancelJob (s : DagStrategy) (e : EvalId) (j : JobId) (p r : String) :
    (cancelJob e s j).2.Edge p r ↔ s.Edge p r := by
  have hspec := cancelJob_spec s e j
  cases hres : cancelJob e s j with
  | mk skips s' =>
    rw [hres] at hspec
    cases hspec with
    | gone _ _ => rfl
    | orphaned _ _ => rfl
    | kept _ _ => rfl
    | @cancelled d step sk out s₁ hf hp hc =>
      have hforget : (s₁.forgetJob j).Edge p r ↔ s₁.Edge p r := Iff.rfl
      rw [hforget, hc.state, (sameLinks_skipAll _ sk).edge]
      unfold Edge
      rw [lookup_cancelHead]
      split
      · rename_i hk
        subst hk
        simp
      · rfl

theorem edge_cancelEval (s : DagStrategy) (e : EvalId) (p r : String) :
    (s.cancelEval e).2.Edge p r ↔ s.Edge p r :=
  cancelEval_rec (P := fun _ s' => s'.Edge p r ↔ s.Edge p r) Iff.rfl
    fun _ s' j _ ih => (edge_cancelJob s' e j p r).trans ih

theorem cap_cancelEval (s : DagStrategy) (e : EvalId) :
    (s.cancelEval e).2.wfq.concurrencyCap = s.wfq.concurrencyCap := by
  rw [(cancelEval_core s e).1]

end DagStrategy

/-! ## Whole runs -/

open DagStrategy

/-- The event is a final verdict for the Job: the build it heads completed, or it was mirrored,
    skipped or cancelled. -/
def Event.settles (j : JobId) : Event → Bool
  | .completed d _ => d.headJob = some j
  | .aliased j' _ => j' = j
  | .skipped j' => j' = j
  | .cancelled j' => j' = j
  | _ => false

namespace Session

/-- The calls of a dispatch loop that may also cancel the evaluation, in safe states. -/
def DrivesOrCancels (e : EvalId) (σ : Session) : Op → Prop
  | .cancelEval e' => e' = e ∧ CancelSafe σ.strategy e
  | op => Drives σ op

/-- The same with cancellations in any state. -/
def DrivesOrCancelsAnytime (e : EvalId) (σ : Session) : Op → Prop
  | .cancelEval e' => e' = e
  | op => Drives σ op

instance (e : EvalId) (σ : Session) (op : Op) : Decidable (DrivesOrCancels e σ op) :=
  match op with
  | .cancelEval e' => inferInstanceAs (Decidable (e' = e ∧ CancelSafe σ.strategy e))
  | .dispatch => isTrue trivial
  | .complete token status => inferInstanceAs (Decidable (Drives σ (.complete token status)))
  | .setWeight .. | .enqueue _ => isFalse id

instance (e : EvalId) (σ : Session) (op : Op) : Decidable (DrivesOrCancelsAnytime e σ op) :=
  match op with
  | .cancelEval e' => inferInstanceAs (Decidable (e' = e))
  | .dispatch => isTrue trivial
  | .complete token status => inferInstanceAs (Decidable (Drives σ (.complete token status)))
  | .setWeight .. | .enqueue _ => isFalse id

/-- What such a run keeps, once `items` are loaded. -/
structure Settling (cap : Option ℕ) (items : List ScheduleItem) (e : EvalId) (σ : Session) :
    Prop where
  tracks : Tracks σ
  sealed : Sealed (fun _ => False) σ.strategy
  edge : ∀ p r, σ.strategy.Edge p r → Needs items p r
  cap : σ.strategy.wfq.concurrencyCap = cap
  heads : ∀ d ∈ σ.inFlight, d.headJob = (jobsAt items d.drvPath).head?
  accounted : Accounted e items (fun j => σ.log.countP (Event.settles j)) σ.strategy
  forgotten : .cancelCalled e ∈ σ.log → ∀ j, ¬ σ.strategy.TrackedBy e j

namespace Settling

variable {cap : Option ℕ} {items : List ScheduleItem} {e : EvalId} {σ : Session}

theorem start {s : DagStrategy} (h : Loaded cap items s) (hnd : (items.map (·.jobId)).Nodup) :
    Settling cap items e (Session.start s) := by
  have hidle : ∀ k t, ¬ s.RunsAs k t := by
    rintro k t ⟨st, hl, hrun, -⟩
    rcases h.fresh k st hl with hp | hp <;> rw [hp] at hrun <;> exact absurd hrun (by decide)
  exact ⟨.start h.reachable hidle, h.sealed, h.edge, h.cap, by simp [Session.start],
    h.accounted hnd, by simp [Session.start]⟩

theorem dispatch (h : Settling cap items e σ) {s₁ : DagStrategy} (hs : Shuffle σ.strategy s₁) :
    Settling cap items e (σ.record s₁.dispatch.2 .dispatch (.dispatched s₁.dispatch.1)) := by
  have hb := h.tracks.books.shuffle hs
  have htr := h.tracks.step hs .dispatch
  have hspec := dispatch_spec s₁ hb.known_token
  have hacc := (h.accounted.shuffle hs).dispatch hb
  have hlinks := hs.sameLinks.trans hb.sameLinks_dispatch
  refine ⟨htr, ?_, ?_, ?_, ?_, ?_, ?_⟩
  · rw [record_strategy]
    exact (h.sealed.shuffle hs).dispatch hb
  · intro p r he
    rw [record_strategy] at he
    exact h.edge p r ((hlinks.edge p r).mp he)
  · rw [record_strategy, hb.cap_dispatch, hs.wfq.concurrencyCap, h.cap]
  · cases hres : s₁.dispatch with
    | mk o s' =>
      rw [hres] at hspec
      cases hspec with
      | idle _ _ => exact h.heads
      | @run c c' p d step hc hpop ht hld =>
        intro d' hd'
        rcases List.mem_append.mp hd' with hd' | hd'
        · exact h.heads d' hd'
        · obtain rfl := List.mem_singleton.mp hd'
          have hopen := (hb.open_of_token ht hld).2
          have hjobs := (h.accounted.shuffle hs).jobs_of_open hld hopen
          simp only [dispatchedOf, hb.path d step hld, hjobs]
  · rw [record_strategy]
    refine hacc.congr fun j => ?_
    cases hres : s₁.dispatch with
    | mk o s' =>
      cases o with
      | none => rfl
      | some d => simp [record, Event.settles]
  · intro hmem j
    rw [record_strategy, TrackedBy, hb.jobMeta_dispatch]
    have hmem' : .cancelCalled e ∈ σ.log := by
      revert hmem
      cases s₁.dispatch.1 with
      | none => exact id
      | some d => simp [record]
    simpa only [TrackedBy, hs.job] using h.forgotten hmem' j

theorem countP_settles_skipped (j : JobId) (skips : List CascadedSkip) :
    (skips.map fun skip => Event.skipped skip.jobId).countP (Event.settles j)
      = (skips.map (·.jobId)).count j := by
  rw [List.countP_map, List.count, List.countP_map]
  rfl

theorem countP_settles_cancelled (j : JobId) (skips : List CascadedSkip) :
    (skips.map fun skip => Event.cancelled skip.jobId).countP (Event.settles j)
      = (skips.map (·.jobId)).count j := by
  rw [List.countP_map, List.count, List.countP_map]
  rfl

theorem countP_settles_aliased (j : JobId) (status : JobStatus) (aliases : List AliasCompletion) :
    (aliases.map fun al => Event.aliased al.jobId status).countP (Event.settles j)
      = (aliases.map (·.jobId)).count j := by
  rw [List.countP_map, List.count, List.countP_map]
  rfl

theorem complete (h : Settling cap items e σ) (hnd : (items.map (·.jobId)).Nodup)
    {s₁ : DagStrategy} (hs : Shuffle σ.strategy s₁) {token : DispatchToken} (status : JobStatus)
    (hflight : ∃ d ∈ σ.inFlight, d.token = token) :
    Settling cap items e (σ.record (s₁.complete token status).2 (.complete token status)
      (.completed (s₁.complete token status).1)) := by
  have hb := h.tracks.books.shuffle hs
  have htr := h.tracks.step hs (.complete token status)
  have hlinks := hs.sameLinks.trans (hb.sameLinks_complete token status)
  obtain ⟨d, hmem, rfl⟩ := hflight
  obtain ⟨step, hld, hrun, htok⟩ := (hs.runsAs d.drvPath d.token).mpr
    ((h.tracks.runs d.drvPath d.token).mpr ⟨d, hmem, rfl, rfl⟩)
  have hknown := (hb.token d.token d.drvPath).mpr ⟨step, hld, htok⟩
  refine ⟨htr, ?_, ?_, ?_, ?_, ?_, ?_⟩
  · exact (h.sealed.shuffle hs).complete hb d.token status
  · intro p r he
    exact h.edge p r ((hlinks.edge p r).mp he)
  · rw [record_strategy, hb.cap_complete, hs.wfq.concurrencyCap, h.cap]
  · intro d' hd'
    exact h.heads d' (List.mem_of_mem_filter hd')
  · refine ((h.accounted.shuffle hs).complete hb hnd status hknown hld hrun).congr fun j => ?_
    simp only [record, filter_token h.tracks.nodup hmem, List.map_singleton, List.countP_append,
      List.countP_singleton, countP_settles_aliased, countP_settles_skipped, Event.settles,
      h.heads d hmem, decide_eq_true_eq]
    omega
  · intro hcalled j
    rw [record_strategy, TrackedBy, hb.jobMeta_complete]
    have hcalled' : .cancelCalled e ∈ σ.log := by simpa [record] using hcalled
    simpa only [TrackedBy, hs.job] using h.forgotten hcalled' j

theorem cancelEval (h : Settling cap items e σ) (hnd : (items.map (·.jobId)).Nodup)
    {s₁ : DagStrategy} (hs : Shuffle σ.strategy s₁) (hsafe : CancelSafe σ.strategy e) :
    Settling cap items e (σ.record (s₁.cancelEval e).2 (.cancelEval e)
      (.cancelled (s₁.cancelEval e).1)) := by
  have hb := h.tracks.books.shuffle hs
  refine ⟨h.tracks.step hs (.cancelEval e), (h.sealed.shuffle hs).cancelEval e, ?_, ?_, h.heads,
    ?_, fun _ => not_trackedBy_cancelEval s₁ e⟩
  · intro p r he
    exact h.edge p r ((hs.sameLinks.edge p r).mp ((edge_cancelEval s₁ e p r).mp he))
  · rw [record_strategy, cap_cancelEval, hs.wfq.concurrencyCap, h.cap]
  · refine ((h.accounted.shuffle hs).cancelEval hb (hsafe.shuffle hs) hnd).congr fun j => ?_
    simp only [record, List.countP_append, List.countP_cons, countP_settles_cancelled,
      Event.settles, Bool.false_eq_true, if_false, Nat.add_zero]

theorem run {σ₀ : Session} (h : Settling cap items e σ₀) (hnd : (items.map (·.jobId)).Nodup)
    (hr : Run (DrivesOrCancels e) σ₀ σ) : Settling cap items e σ := by
  induction hr with
  | refl => exact h
  | step _ hok hs hd ih =>
    cases hd with
    | setWeight r w => exact absurd hok (by simp [DrivesOrCancels, Drives])
    | enqueue item _ => exact absurd hok (by simp [DrivesOrCancels, Drives])
    | dispatch => exact ih.dispatch hs
    | complete token status => exact ih.complete hnd hs status hok
    | cancelEval e' =>
      obtain ⟨rfl, hsafe⟩ := hok
      exact ih.cancelEval hnd hs hsafe

/-- With nothing in flight, a Job that is not tracked any more has its verdict. -/
theorem settled_of_untracked (h : Settling cap items e σ) (hidle : σ.inFlight = [])
    {item : ScheduleItem} (hi : item ∈ items) (he : item.evalId = e)
    (hno : ¬ σ.strategy.TrackedBy e item.jobId) :
    σ.log.countP (Event.settles item.jobId) = 1 := by
  obtain ⟨st, hl⟩ := h.accounted.present item hi
  have honce := h.accounted.once item hi he st hl
  rcases h.accounted.held item hi he st hl hno with hterm | ⟨hrun, -⟩
  · rw [honce, if_pos hterm]
  · have hh := h.tracks.books.holds _ st hl
    rw [hrun] at hh
    obtain ⟨t, ht⟩ := Option.isSome_iff_exists.mp hh
    obtain ⟨d, hd, -⟩ := (h.tracks.runs _ t).mp ⟨st, hl, hrun, ht⟩
    rw [hidle] at hd
    exact absurd hd (by simp)

end Settling

/-- **Every Job of the evaluation has exactly one verdict** when nothing is in flight and the
    evaluation was cancelled, or there is nothing left to dispatch. Any number of cancellations
    may be anywhere in the run, as long as each is called in a safe state. -/
theorem settled_once {cap : Option ℕ} {items : List ScheduleItem} {e : EvalId}
    {s₀ : DagStrategy} {σ : Session} (hcap : ∀ n, cap = some n → 0 < n)
    (hnd : (items.map (·.jobId)).Nodup) (hacyc : Acyclic (Needs items))
    (hload : Enqueued cap items s₀) (hrun : Run (DrivesOrCancels e) (Session.start s₀) σ)
    (hidle : σ.inFlight = [])
    (hend : .cancelCalled e ∈ σ.log ∨ ∃ s₁, Shuffle σ.strategy s₁ ∧ s₁.dispatch.1 = none) :
    ∀ item ∈ items, item.evalId = e → σ.log.countP (Event.settles item.jobId) = 1 := by
  intro item hi he
  have h := (Settling.start (e := e) hload.loaded hnd).run hnd hrun
  rcases hend with hcalled | ⟨s₁, hs, hnone⟩
  · exact h.settled_of_untracked hidle hi he (h.forgotten hcalled _)
  · obtain ⟨st, hl⟩ := h.accounted.present item hi
    rw [h.accounted.once item hi he st hl, if_pos]
    exact h.tracks.terminal_of_drained hcap h.cap h.sealed (hacyc.mono h.edge) hidle hs hnone hl

/-- The dependent `b` is pending while the Step of `a` runs; then the evaluation is cancelled. -/
def aThenB : List ScheduleItem :=
  [⟨⟨1⟩, ⟨1⟩, ⟨1⟩, ⟨"a", none, [], []⟩, []⟩, ⟨⟨1⟩, ⟨1⟩, ⟨2⟩, ⟨"b", none, [], ["a"]⟩, []⟩]

def cancelledWhileRunning : Session :=
  (Session.start (load none aThenB)).runOps
    [.dispatch, .cancelEval ⟨1⟩, .complete ⟨0⟩ .success, .cancelEval ⟨1⟩]

theorem acyclic_aThenB : Acyclic (Needs aThenB) := by
  refine .of_rank (fun d => if d = "a" then 0 else 1) ?_
  rintro p r ⟨item, hi, drv, hm, rfl, hp⟩
  simp only [aThenB, List.mem_cons, List.not_mem_nil, or_false] at hi
  rcases hi with rfl | rfl <;> simp_all [mentions]

theorem settled_once_while_running :
    cancelledWhileRunning.log.countP (Event.settles ⟨1⟩) = 1 ∧
      cancelledWhileRunning.log.countP (Event.settles ⟨2⟩) = 1 := by
  have h : ∀ item ∈ aThenB, item.evalId = ⟨1⟩ →
      cancelledWhileRunning.log.countP (Event.settles item.jobId) = 1 :=
    settled_once (fun _ h => absurd h (by simp)) (by decide) acyclic_aThenB
      (enqueued_load none aThenB) (.of_ops (by decide)) (by decide)
      (Or.inl (by decide))
  exact ⟨h ⟨⟨1⟩, ⟨1⟩, ⟨1⟩, ⟨"a", none, [], []⟩, []⟩ (by decide) rfl,
    h ⟨⟨1⟩, ⟨1⟩, ⟨2⟩, ⟨"b", none, [], ["a"]⟩, []⟩ (by decide) rfl⟩

/-! ## Two Jobs of one evaluation on one Step -/

/-- One derivation under two names. -/
def twoNames : List ScheduleItem :=
  [⟨⟨1⟩, ⟨1⟩, ⟨1⟩, ⟨"a", none, [], []⟩, []⟩, ⟨⟨1⟩, ⟨1⟩, ⟨2⟩, ⟨"a", none, [], []⟩, []⟩]

theorem acyclic_twoNames : Acyclic (Needs twoNames) := by
  refine .of_rank (fun _ => 0) ?_
  rintro p r ⟨item, hi, drv, hm, rfl, hp⟩
  simp only [twoNames, List.mem_cons, List.not_mem_nil, or_false] at hi
  rcases hi with rfl | rfl <;> simp_all [mentions]

def cancelledBeforeStart : Session :=
  (Session.start (load none twoNames)).runOps [.cancelEval ⟨1⟩]

def cancelledWhileAliased : Session :=
  (Session.start (load none twoNames)).runOps
    [.dispatch, .cancelEval ⟨1⟩, .complete ⟨0⟩ .success]

theorem told_twice : cancelledBeforeStart.log.countP (Event.settles ⟨1⟩) = 2 := by
  decide

theorem never_told : cancelledWhileAliased.log.countP (Event.settles ⟨2⟩) = 0 := by
  decide

/-- Without the condition on the cancellations, verdicts are doubled and lost. -/
theorem not_settled_once_anytime :
    ¬ (∀ (items : List ScheduleItem) (e : EvalId) (s₀ : DagStrategy) (σ : Session),
        (items.map (·.jobId)).Nodup → Acyclic (Needs items) → Enqueued none items s₀ →
        Run (DrivesOrCancelsAnytime e) (Session.start s₀) σ → σ.inFlight = [] →
        .cancelCalled e ∈ σ.log →
        ∀ item ∈ items, item.evalId = e → 1 ≤ σ.log.countP (Event.settles item.jobId)) ∧
    ¬ (∀ (items : List ScheduleItem) (e : EvalId) (s₀ : DagStrategy) (σ : Session),
        (items.map (·.jobId)).Nodup → Acyclic (Needs items) → Enqueued none items s₀ →
        Run (DrivesOrCancelsAnytime e) (Session.start s₀) σ → σ.inFlight = [] →
        .cancelCalled e ∈ σ.log →
        ∀ item ∈ items, item.evalId = e → σ.log.countP (Event.settles item.jobId) ≤ 1) := by
  constructor
  · intro h
    have := h twoNames ⟨1⟩ _ cancelledWhileAliased (by decide) acyclic_twoNames
      (enqueued_load none twoNames) (.of_ops (by decide)) (by decide)
      (by decide) ⟨⟨1⟩, ⟨1⟩, ⟨2⟩, ⟨"a", none, [], []⟩, []⟩ (by decide) rfl
    rw [never_told] at this
    exact absurd this (by decide)
  · intro h
    have := h twoNames ⟨1⟩ _ cancelledBeforeStart (by decide) acyclic_twoNames
      (enqueued_load none twoNames) (.of_ops (by decide)) (by decide)
      (by decide) ⟨⟨1⟩, ⟨1⟩, ⟨1⟩, ⟨"a", none, [], []⟩, []⟩ (by decide) rfl
    rw [told_twice] at this
    exact absurd this (by decide)

end Session

end Argunix.Sched
