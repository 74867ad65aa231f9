import Argunix.Sched.Cancel

/-!
# What a cancellation tells, aliases or not

`Sched.Cancel` counts verdicts, and for that it has to exclude Steps with aliases. A daemon that
runs one evaluation per strategy only needs to know *which* Jobs `cancel_eval` tells: all Jobs of
the Steps that were pending or ready, and no others. A Job may be told twice; a Job of a running
or a closed Step is never told.

The loop invariant is `Swept`: what was running or closed is untouched, what is still waiting has
all its Jobs tracked, and the Jobs of what is no longer waiting have been told.
-/

set_option autoImplicit false

namespace Argunix.Sched

open Argunix.Lib

/-- The Step can still be cancelled. -/
def Step.waits (st : Step) : Bool := st.state = .pending ∨ st.state = .ready

theorem Step.waits_iff {st : Step} :
    st.waits = true ↔ st.state = .pending ∨ st.state = .ready := by
  simp [Step.waits]

namespace DagStrategy

variable {s s' : DagStrategy} {e : EvalId}

/-- Every Job of a Step is one of the evaluation's, and every Job of the evaluation has exactly
    one Step. -/
structure OneEval (e : EvalId) (s : DagStrategy) : Prop where
  tracked : ∀ k st, s.byDrv.lookup k = some st → ∀ j ∈ st.headJobs, s.TrackedBy e j
  placed : ∀ j, s.TrackedBy e j → ∃ k st, s.byDrv.lookup k = some st ∧ j ∈ st.headJobs
  unique : ∀ k k' st st' j, s.byDrv.lookup k = some st → s.byDrv.lookup k' = some st' →
    j ∈ st.headJobs → j ∈ st'.headJobs → k = k'

/-- The cancellation has told `skips` so far. -/
structure Swept (s : DagStrategy) (e : EvalId) (skips : List CascadedSkip) (s' : DagStrategy) :
    Prop where
  books : Bookkeeping [] s'
  kept : ∀ k st, s.byDrv.lookup k = some st → st.waits = false → s'.byDrv.lookup k = some st
  still : ∀ k st', s'.byDrv.lookup k = some st' → st'.waits = true → s.byDrv.lookup k = some st'
  heads : ∀ k st', s'.byDrv.lookup k = some st' →
    ∃ st, s.byDrv.lookup k = some st ∧ st'.headJobs ⊆ st.headJobs
  sound : ∀ x ∈ skips, ∃ k st, s.byDrv.lookup k = some st ∧ st.waits = true ∧ x.jobId ∈ st.headJobs
  told : ∀ k st, s.byDrv.lookup k = some st → st.waits = true →
    (s'.byDrv.lookup k = some st ∧ ∀ j ∈ st.headJobs, s'.TrackedBy e j) ∨
      ∀ j ∈ st.headJobs, ∃ x ∈ skips, x.jobId = j

namespace Swept

variable {skips : List CascadedSkip}

theorem start (hone : OneEval e s) (hb : Bookkeeping [] s) : Swept s e [] s :=
  ⟨hb, fun _ _ hl _ => hl, fun _ _ hl _ => hl, fun _ st hl => ⟨st, hl, List.Subset.refl _⟩, by simp,
    fun k st hl _ => Or.inl ⟨hl, hone.tracked k st hl⟩⟩

/-- A Job whose Step does not wait is forgotten. -/
theorem forget (h : Swept s e skips s') {j : JobId}
    (hj : ∀ k st, s.byDrv.lookup k = some st → st.waits = true →
      s'.byDrv.lookup k = some st → j ∉ st.headJobs)
    (hb : Bookkeeping [] (s'.forgetJob j)) : Swept s e skips (s'.forgetJob j) := by
  refine ⟨hb, h.kept, h.still, h.heads, h.sound, fun k st hl hw => ?_⟩
  rcases h.told k st hl hw with ⟨hl', htr⟩ | htold
  · refine Or.inl ⟨hl', fun j' hj' => trackedBy_forgetJob_iff.mpr ⟨htr j' hj', ?_⟩⟩
    rintro rfl
    exact hj k st hl hw hl' hj'
  · exact Or.inr htold

/-- More has been told than before. -/
theorem append (h : Swept s e skips s') {more : List CascadedSkip}
    (hmore : ∀ x ∈ more, ∃ k st, s.byDrv.lookup k = some st ∧ st.waits = true ∧
      x.jobId ∈ st.headJobs) : Swept s e (skips ++ more) s' := by
  refine ⟨h.books, h.kept, h.still, h.heads, fun x hx => ?_, fun k st hl hw => ?_⟩
  · exact (List.mem_append.mp hx).elim (h.sound x) (hmore x)
  · refine (h.told k st hl hw).imp_right fun htold j hj => ?_
    obtain ⟨x, hx, hxj⟩ := htold j hj
    exact ⟨x, List.mem_append_left _ hx, hxj⟩

/-- The Step of a Job is cancelled, with everything behind it. -/
theorem cancelled (h : Swept s e skips s') (hone : OneEval e s) {j : JobId} {d : String}
    {step : Step} {sk : List String} {out : List CascadedSkip} {s₁ : DagStrategy}
    (hf : s'.findHead j = some (d, step)) (hp : step.state = .pending ∨ step.state = .ready)
    (hc : Cascaded (s'.cancelHead d) d sk out s₁) (hb : Bookkeeping [] (s₁.forgetJob j)) :
    Swept s e (skips ++ (s'.directSkips e step.repoId step.headJobs
      ++ out.map fun skip => { skip with reasonDrv := cancelReason e })) (s₁.forgetJob j) := by
  obtain ⟨hld, hjd⟩ := findHead_eq_some hf
  have hwaits : step.waits = true := Step.waits_iff.mpr hp
  have hstep := h.still d step hld hwaits
  have hdsk : d ∉ sk := by
    intro hm
    obtain ⟨st, hl, hopen⟩ := hc.isOpen d hm
    rw [lookup_cancelHead, if_pos rfl] at hl
    obtain ⟨st', -, rfl⟩ := Option.map_eq_some_iff.mp hl
    exact absurd hopen (by simp [StepState.isTerminal])
  -- what is skipped behind it was pending
  have hpend : ∀ k ∈ sk, ∃ st, s'.byDrv.lookup k = some st ∧ st.waits = true := by
    intro k hk
    obtain ⟨st, hl, hst⟩ := h.books.pending_of_cancelled hld hp hc k hk
    rw [lookup_cancelHead, if_neg (fun heq : k = d => hdsk (heq ▸ hk))] at hl
    exact ⟨st, hl, Step.waits_iff.mpr (Or.inl hst)⟩
  have hlook : ∀ k, (s₁.forgetJob j).byDrv.lookup k
      = if k ∈ sk then (s'.byDrv.lookup k).map (·.close .skipped)
        else if k = d then (s'.byDrv.lookup d).map fun st => (st.close .cancelled).unlinkJobs
        else s'.byDrv.lookup k := by
    intro k
    rw [show (s₁.forgetJob j).byDrv = s₁.byDrv from rfl, hc.state, lookup_skipAll,
      lookup_cancelHead]
    by_cases hk : k = d
    · subst hk
      simp [hdsk]
    · simp [hk]
  have hmeta : s₁.jobMeta = s'.jobMeta := by
    rw [hc.state, skipAll_jobMeta]
    rfl
  have hdirect : ∀ j', (∃ x ∈ s'.directSkips e step.repoId step.headJobs, x.jobId = j') ↔
      j' ∈ step.headJobs := by
    intro j'
    simp [directSkips]
  have hout : ∀ j', (∃ x ∈ out, x.jobId = j') ↔
      ∃ k ∈ sk, ∃ st, s'.byDrv.lookup k = some st ∧ j' ∈ st.headJobs ∧
        (s'.jobMeta.lookup j').isSome = true := by
    intro j'
    have hmem : (∃ x ∈ out, x.jobId = j') ↔ j' ∈ out.map (·.jobId) := List.mem_map.symm
    rw [hmem, hc.skips, map_flatMap_skipsFor, List.mem_flatMap]
    refine exists_congr fun k => and_congr_right fun hk => ?_
    obtain ⟨st, hl, -⟩ := hpend k hk
    have hheads : (s'.cancelHead d).headJobsOf k = st.headJobs := by
      rw [headJobsOf, lookup_cancelHead, if_neg (fun heq : k = d => hdsk (heq ▸ hk)), hl]
      rfl
    rw [hheads, List.mem_filter]
    constructor
    · exact fun hj' => ⟨st, hl, hj'⟩
    · rintro ⟨st', hl', hj'⟩
      rw [hl, Option.some.injEq] at hl'
      exact hl' ▸ hj'
  refine ⟨hb, fun k st hl hw => ?_, fun k st' hl' hw => ?_, fun k st' hl' => ?_, fun x hx => ?_,
    fun k st hl hw => ?_⟩
  · have hl' := h.kept k st hl hw
    have hksk : k ∉ sk := by
      intro hk
      obtain ⟨st₁, hl₁, hw₁⟩ := hpend k hk
      rw [hl', Option.some.injEq] at hl₁
      rw [← hl₁, hw] at hw₁
      exact absurd hw₁ (by simp)
    have hkd : k ≠ d := by
      rintro rfl
      rw [hl', Option.some.injEq] at hld
      rw [← hld, hw] at hwaits
      exact absurd hwaits (by simp)
    rw [hlook, if_neg hksk, if_neg hkd, hl']
  · rw [hlook] at hl'
    split at hl'
    · obtain ⟨st₀, -, rfl⟩ := Option.map_eq_some_iff.mp hl'
      exact absurd hw (by simp [Step.waits])
    · split at hl'
      · obtain ⟨st₀, -, rfl⟩ := Option.map_eq_some_iff.mp hl'
        exact absurd hw (by simp [Step.waits])
      · exact h.still k st' hl' hw
  · rw [hlook] at hl'
    split at hl'
    · obtain ⟨st₀, hl₀, rfl⟩ := Option.map_eq_some_iff.mp hl'
      exact h.heads k st₀ hl₀
    · split at hl'
      · rename_i hk
        obtain ⟨st₀, hl₀, rfl⟩ := Option.map_eq_some_iff.mp hl'
        obtain ⟨st, hl, -⟩ := h.heads d st₀ hl₀
        exact ⟨st, hk ▸ hl, by simp [Step.unlinkJobs]⟩
      · exact h.heads k st' hl'
  · rcases List.mem_append.mp hx with hx | hx
    · exact h.sound x hx
    rcases List.mem_append.mp hx with hx | hx
    · exact ⟨d, step, hstep, hwaits, (hdirect _).mp ⟨x, hx, rfl⟩⟩
    · obtain ⟨y, hy, rfl⟩ := List.mem_map.mp hx
      obtain ⟨k, hk, st, hl, hjs, -⟩ := (hout y.jobId).mp ⟨y, hy, rfl⟩
      obtain ⟨st₁, hl₁, hw₁⟩ := hpend k hk
      rw [hl, Option.some.injEq] at hl₁
      exact ⟨k, st, h.still k st hl (hl₁ ▸ hw₁), hl₁ ▸ hw₁, hjs⟩
  · rcases h.told k st hl hw with ⟨hl', htr⟩ | htold
    · by_cases hk : k ∈ sk
      · refine Or.inr fun j' hj' => ?_
        obtain ⟨r, hr⟩ := htr j' hj'
        obtain ⟨x, hx, hxj⟩ := (hout j').mpr ⟨k, hk, st, hl', hj', by rw [hr]; rfl⟩
        refine ⟨{ x with reasonDrv := cancelReason e }, ?_, hxj⟩
        exact List.mem_append_right _ (List.mem_append_right _ (List.mem_map.mpr ⟨x, hx, rfl⟩))
      · by_cases hkd : k = d
        · subst hkd
          rw [hl', Option.some.injEq] at hld
          subst hld
          refine Or.inr fun j' hj' => ?_
          obtain ⟨x, hx, hxj⟩ := (hdirect j').mpr hj'
          exact ⟨x, by simp [hx], hxj⟩
        · refine Or.inl ⟨by rw [hlook, if_neg hk, if_neg hkd, hl'], fun j' hj' => ?_⟩
          refine trackedBy_forgetJob_iff.mpr ⟨?_, ?_⟩
          · unfold TrackedBy
            rw [hmeta]
            exact htr j' hj'
          · rintro rfl
            exact hkd (hone.unique k d st step j' hl hstep hj' hjd)
    · refine Or.inr fun j' hj' => ?_
      obtain ⟨x, hx, hxj⟩ := htold j' hj'
      exact ⟨x, List.mem_append_left _ hx, hxj⟩

/-- One iteration. -/
theorem cancelJob (h : Swept s e skips s') (hone : OneEval e s) {j : JobId}
    (hj : s.TrackedBy e j) :
    Swept s e (skips ++ (DagStrategy.cancelJob e s' j).1) (DagStrategy.cancelJob e s' j).2 := by
  have hb := h.books.cancelJob e j
  have hspec := cancelJob_spec s' e j
  cases hres : DagStrategy.cancelJob e s' j with
  | mk out s'' =>
    rw [hres] at hspec hb
    cases hspec with
    | gone hf hm =>
      rw [List.append_nil]
      exact h
    | @orphaned owner hf hm =>
      have hnone := findHead_eq_none_iff.mp hf
      refine (h.forget (fun k st _ _ hl' => hnone k st hl') hb).append ?_
      rintro x hx
      obtain rfl := List.mem_singleton.mp hx
      -- its Step has been closed by now, so it was waiting at first
      obtain ⟨k, st, hl, hjs⟩ := hone.placed j hj
      refine ⟨k, st, hl, ?_, hjs⟩
      by_contra hw
      exact hnone k st (h.kept k st hl (by simpa using hw)) hjs
    | @kept d step hf hst =>
      obtain ⟨hld, hjd⟩ := findHead_eq_some hf
      rw [List.append_nil]
      refine h.forget (fun k st hl hw hl' hjs => ?_) hb
      obtain ⟨st₀, hl₀, hsub⟩ := h.heads d step hld
      obtain rfl := hone.unique k d st st₀ j hl hl₀ hjs (hsub hjd)
      rw [hl', Option.some.injEq] at hld
      subst hld
      rcases Step.waits_iff.mp hw with hp | hp <;> rw [hp] at hst <;> exact absurd hst (by decide)
    | @cancelled d step sk out s₁ hf hp hc => exact h.cancelled hone hf hp hc hb

theorem cancelEval (hone : OneEval e s) (hb : Bookkeeping [] s) :
    Swept s e (s.cancelEval e).1 (s.cancelEval e).2 := by
  refine cancelEval_rec (P := fun skips s' => Swept s e skips s') (.start hone hb) ?_
  intro skips s' j hj h
  exact h.cancelJob hone (mem_jobsOf_iff.mp hj)

end Swept

/-- **A cancellation tells all Jobs of the Steps that wait, and no others.** -/
theorem OneEval.cancelled_iff (hone : OneEval e s) (hb : Bookkeeping [] s) (j : JobId) :
    (∃ x ∈ (s.cancelEval e).1, x.jobId = j) ↔
      ∃ k st, s.byDrv.lookup k = some st ∧ st.waits = true ∧ j ∈ st.headJobs := by
  have h := Swept.cancelEval hone hb
  constructor
  · rintro ⟨x, hx, rfl⟩
    exact h.sound x hx
  · rintro ⟨k, st, hl, hw, hj⟩
    rcases h.told k st hl hw with ⟨-, htr⟩ | htold
    · exact absurd (htr j hj) (not_trackedBy_cancelEval s e j)
    · exact htold j hj

end DagStrategy

end Argunix.Sched
