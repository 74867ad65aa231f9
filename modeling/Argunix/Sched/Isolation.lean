import Argunix.Sched.Cancel
import Argunix.Sched.Fate

/-!
# What a cancellation does to other evaluations

Steps are shared by derivation path, so the head Step of one evaluation's Job may be an alias of
another evaluation's, or an input of it. `cancel_eval` looks at neither: it closes every head Step
of the evaluation that is not running yet, tells **all** Jobs on it, and cascades through **all**
recorded edges.

Isolation therefore holds exactly when nothing it closes is needed by anybody else
(`isolated_iff_not_exposed`). The interesting direction is that then the verdicts of the others
are decided by Steps the cancellation did not touch: the set of Steps they need is closed under
going back along edges, and `Sched.Fate` reads every verdict off that set.
-/

set_option autoImplicit false

namespace Argunix.Sched

open Argunix.Lib

namespace DagStrategy

variable {s s' : DagStrategy} {e : EvalId}

/-! ## Who needs a Step -/

/-- The Step is the head of a Job of another evaluation, or such a head waits for it. -/
def NeededByOther (s : DagStrategy) (e : EvalId) (k : String) : Prop :=
  ∃ r st j e', Relation.ReflTransGen s.Edge k r ∧ s.byDrv.lookup r = some st ∧ j ∈ st.headJobs ∧
    e' ≠ e ∧ s.TrackedBy e' j

/-- The evaluation has a head Step that is not started yet and is needed by another evaluation. -/
def Exposed (s : DagStrategy) (e : EvalId) : Prop :=
  ∃ h st j, s.byDrv.lookup h = some st ∧ (st.state = .pending ∨ st.state = .ready) ∧
    j ∈ st.headJobs ∧ s.TrackedBy e j ∧ s.NeededByOther e h

theorem NeededByOther.back {p k : String} (h : s.NeededByOther e k) (he : s.Edge p k) :
    s.NeededByOther e p := by
  obtain ⟨r, st, j, e', hpath, h⟩ := h
  exact ⟨r, st, j, e', hpath.head he, h⟩

theorem NeededByOther.of_job {k : String} {st : Step} {j : JobId} {e' : EvalId}
    (hl : s.byDrv.lookup k = some st) (hj : j ∈ st.headJobs) (hne : e' ≠ e)
    (ht : s.TrackedBy e' j) : s.NeededByOther e k :=
  ⟨k, st, j, e', .refl, hl, hj, hne, ht⟩

theorem Shuffle.neededByOther (hs : Shuffle s s') (k : String) :
    s'.NeededByOther e k ↔ s.NeededByOther e k := by
  have hedge : s'.Edge = s.Edge := by
    funext p r
    exact propext (hs.sameLinks.edge p r)
  unfold NeededByOther TrackedBy
  rw [hedge]
  simp only [hs.step, hs.job]

theorem Shuffle.exposed (hs : Shuffle s s') : s'.Exposed e ↔ s.Exposed e := by
  unfold Exposed
  simp only [hs.neededByOther, hs.step, TrackedBy, hs.job]

/-- Head Steps that nobody waits for and that stand for Jobs of the evaluation only expose
    nothing. -/
theorem not_exposed_of_leaves
    (h : ∀ x ∈ s.byDrv.entries, x.2.state = .pending ∨ x.2.state = .ready →
      (∃ j ∈ x.2.headJobs, s.TrackedBy e j) →
        x.2.rdeps = [] ∧ ∀ j ∈ x.2.headJobs, s.TrackedBy e j) : ¬ s.Exposed e := by
  rintro ⟨k, st, j, hl, hp, hj, ht, r, st', j', e', hpath, hl', hj', hne, ht'⟩
  obtain ⟨hnil, hown⟩ := h ⟨k, st⟩ (HashMap.mem_entries_iff.mpr hl) hp ⟨j, hj, ht⟩
  rcases hpath.cases_head with rfl | ⟨c, ⟨st'', hl'', hmem⟩, -⟩
  · obtain rfl : st = st' := by simpa [hl] using hl'
    obtain ⟨x, hx⟩ := hown j' hj'
    obtain ⟨y, hy⟩ := ht'
    rw [hx, Option.some.injEq, Prod.mk.injEq] at hy
    exact hne hy.2.symm
  · obtain rfl : st = st'' := by simpa [hl] using hl''
    have hnil' : st.rdeps = [] := hnil
    rw [hnil'] at hmem
    exact absurd hmem (by simp)

/-! ## The loop, when nothing is exposed -/

/-- What the loop of `cancel_eval` over the Jobs of `s` has done so far. -/
structure Confined (s : DagStrategy) (e : EvalId) (skips : List CascadedSkip) (s' : DagStrategy) :
    Prop where
  own : ∀ skip ∈ skips, skip.evalId = e
  strangers : ∀ skip ∈ skips, ∀ e', e' ≠ e → ¬ s.TrackedBy e' skip.jobId
  needed : ∀ k, s.NeededByOther e k → s'.byDrv.lookup k = s.byDrv.lookup k
  openSteps : ∀ k st, s'.byDrv.lookup k = some st → st.state.isTerminal = false →
    s.byDrv.lookup k = some st
  heads : ∀ k st', s'.byDrv.lookup k = some st' →
    ∃ st, s.byDrv.lookup k = some st ∧ ∀ j ∈ st'.headJobs, j ∈ st.headJobs
  present : ∀ k st, s.byDrv.lookup k = some st → ∃ st', s'.byDrv.lookup k = some st'
  edge : ∀ p r, s'.Edge p r ↔ s.Edge p r
  jobs : ∀ j o, s'.jobMeta.lookup j = some o → s.jobMeta.lookup j = some o
  others : ∀ j e', e' ≠ e → s.TrackedBy e' j → s'.jobMeta.lookup j = s.jobMeta.lookup j

namespace Confined

variable {skips : List CascadedSkip}

theorem start (s : DagStrategy) (e : EvalId) : Confined s e [] s :=
  ⟨by simp, by simp, fun _ _ => rfl, fun _ _ hl _ => hl, fun _ st hl => ⟨st, hl, fun _ => id⟩,
    fun _ st hl => ⟨st, hl⟩, fun _ _ => Iff.rfl, fun _ _ => id, fun _ _ _ _ => rfl⟩

/-- A Job of a Step nobody else needs is told as one of the evaluation's. -/
theorem owner_of_not_needed (h : Confined s e skips s') {k : String} {st : Step} {j : JobId}
    (hl : s.byDrv.lookup k = some st) (hn : ¬ s.NeededByOther e k) (hj : j ∈ st.headJobs)
    {o : RepoId × EvalId} (ho : s'.jobMeta.lookup j = some o) : o.2 = e := by
  by_contra hne
  exact hn (.of_job hl hj hne ⟨o.1, h.jobs j o ho⟩)

theorem stranger_of_not_needed {k : String} {st : Step} {j : JobId}
    (hl : s.byDrv.lookup k = some st) (hn : ¬ s.NeededByOther e k) (hj : j ∈ st.headJobs)
    {e' : EvalId} (hne : e' ≠ e) : ¬ s.TrackedBy e' j :=
  fun ht => hn (.of_job hl hj hne ht)

/-- Forgetting a Job of the evaluation. -/
theorem forgetJob (h : Confined s e skips s') {j : JobId} (hj : s.TrackedBy e j) :
    Confined s e skips (s'.forgetJob j) := by
  have hlook : ∀ j', (s'.forgetJob j).jobMeta.lookup j'
      = if j' = j then none else s'.jobMeta.lookup j' :=
    fun j' => HashMap.lookup_erase_eq _ _ _
  refine ⟨h.own, h.strangers, h.needed, h.openSteps, h.heads, h.present, h.edge, ?_, ?_⟩
  · intro j' o ho
    rw [hlook] at ho
    split at ho
    · exact absurd ho (by simp)
    · exact h.jobs j' o ho
  · intro j' e' hne ht
    rw [hlook, if_neg ?_]
    · exact h.others j' e' hne ht
    · rintro rfl
      obtain ⟨r, hr⟩ := hj
      obtain ⟨r', hr'⟩ := ht
      rw [hr, Option.some.injEq, Prod.mk.injEq] at hr'
      exact hne hr'.2.symm

/-- Cancelling a head Step that nobody else needs. -/
theorem cancelled (h : Confined s e skips s') {d : String} {step : Step} {sk : List String}
    {out : List CascadedSkip} {s₁ : DagStrategy} (hn : ¬ s.NeededByOther e d)
    (hld : s'.byDrv.lookup d = some step) (hp : step.state = .pending ∨ step.state = .ready)
    (hc : Cascaded (s'.cancelHead d) d sk out s₁) :
    Confined s e (skips ++ (s'.directSkips e step.repoId step.headJobs
      ++ out.map fun skip => { skip with reasonDrv := cancelReason e })) s₁ := by
  have hopen : step.state.isTerminal = false := by rcases hp with hp | hp <;> rw [hp] <;> rfl
  have hlds := h.openSteps d step hld hopen
  have hedge₀ : ∀ p r, (s'.cancelHead d).Edge p r ↔ s.Edge p r := by
    intro p r
    refine Iff.trans ?_ (h.edge p r)
    unfold Edge
    rw [lookup_cancelHead]
    split
    · rename_i hk
      subst hk
      simp
    · rfl
  have hdsk : d ∉ sk := by
    intro hm
    obtain ⟨st, hl, hop⟩ := hc.isOpen d hm
    rw [lookup_cancelHead, if_pos rfl] at hl
    obtain ⟨st', -, rfl⟩ := Option.map_eq_some_iff.mp hl
    exact absurd hop (by simp [StepState.isTerminal])
  have hlook₀ : ∀ k ∈ sk, (s'.cancelHead d).byDrv.lookup k = s'.byDrv.lookup k := by
    intro k hk
    rw [lookup_cancelHead, if_neg fun heq : k = d => hdsk (heq ▸ hk)]
  have hlook : ∀ k, s₁.byDrv.lookup k
      = if k ∈ sk then (s'.byDrv.lookup k).map (·.close .skipped)
        else if k = d then (s'.byDrv.lookup d).map fun st => (st.close .cancelled).unlinkJobs
        else s'.byDrv.lookup k := by
    intro k
    rw [hc.state, lookup_skipAll]
    split
    · rename_i hk
      rw [hlook₀ k hk]
    · rw [lookup_cancelHead]
  have hmeta : s₁.jobMeta = s'.jobMeta := by
    rw [hc.state, skipAll_jobMeta]
    rfl
  -- what is behind the cancelled Step is not needed either
  have hskn : ∀ k ∈ sk, ¬ s.NeededByOther e k := by
    intro k hk hneed
    refine hn ?_
    have hpath := hc.behind k hk
    clear hk
    induction hpath with
    | single he => exact hneed.back ((hedge₀ _ _).mp he.1)
    | tail _ he ih => exact ih (hneed.back ((hedge₀ _ _).mp he.1))
  have hsks : ∀ k ∈ sk, ∃ st, s.byDrv.lookup k = some st ∧ s'.headJobsOf k = st.headJobs := by
    intro k hk
    obtain ⟨st, hl, hop⟩ := hc.isOpen k hk
    rw [hlook₀ k hk] at hl
    refine ⟨st, h.openSteps k st hl hop, ?_⟩
    rw [headJobsOf, hl]
    rfl
  -- each new skip is for a Job of one of these Steps
  have hnew : ∀ skip ∈ s'.directSkips e step.repoId step.headJobs
      ++ out.map (fun skip => { skip with reasonDrv := cancelReason e }),
      skip.evalId = e ∧ ∀ e', e' ≠ e → ¬ s.TrackedBy e' skip.jobId := by
    intro skip hmem
    rcases List.mem_append.mp hmem with hmem | hmem
    · obtain ⟨j, hj, rfl⟩ := List.mem_map.mp hmem
      refine ⟨?_, fun e' hne => stranger_of_not_needed hlds hn hj hne⟩
      cases ho : s'.jobMeta.lookup j with
      | none => rfl
      | some o => exact h.owner_of_not_needed hlds hn hj ho
    · obtain ⟨skip', hmem', rfl⟩ := List.mem_map.mp hmem
      rw [hc.skips, List.mem_flatMap] at hmem'
      obtain ⟨k, hk, hmem'⟩ := hmem'
      obtain ⟨st, hl, hheads⟩ := hsks k hk
      have hheads₀ : (s'.cancelHead d).headJobsOf k = st.headJobs := by
        rw [← hheads, headJobsOf, headJobsOf, hlook₀ k hk]
      rw [hheads₀, skipsFor, List.mem_filterMap] at hmem'
      obtain ⟨j, hj, hskip⟩ := hmem'
      obtain ⟨o, ho, rfl⟩ := Option.map_eq_some_iff.mp hskip
      exact ⟨h.owner_of_not_needed hl (hskn k hk) hj ho,
        fun e' hne => stranger_of_not_needed hl (hskn k hk) hj hne⟩
  refine ⟨?_, ?_, ?_, ?_, ?_, ?_, ?_, ?_, ?_⟩
  · intro skip hmem
    rcases List.mem_append.mp hmem with hmem | hmem
    · exact h.own skip hmem
    · exact (hnew skip hmem).1
  · intro skip hmem
    rcases List.mem_append.mp hmem with hmem | hmem
    · exact h.strangers skip hmem
    · exact (hnew skip hmem).2
  · intro k hneed
    rw [hlook, if_neg fun hk => hskn k hk hneed, if_neg fun hk : k = d => hn (hk ▸ hneed)]
    exact h.needed k hneed
  · intro k st hl hop
    rw [hlook] at hl
    split at hl
    · obtain ⟨st', -, rfl⟩ := Option.map_eq_some_iff.mp hl
      exact absurd hop (by simp [StepState.isTerminal])
    · split at hl
      · obtain ⟨st', -, rfl⟩ := Option.map_eq_some_iff.mp hl
        exact absurd hop (by simp [StepState.isTerminal])
      · exact h.openSteps k st hl hop
  · intro k st' hl
    rw [hlook] at hl
    split at hl
    · obtain ⟨st₀, hl₀, rfl⟩ := Option.map_eq_some_iff.mp hl
      exact h.heads k st₀ hl₀
    · split at hl
      · rename_i hk
        obtain ⟨st₀, -, rfl⟩ := Option.map_eq_some_iff.mp hl
        exact ⟨step, hk ▸ hlds, by simp⟩
      · exact h.heads k st' hl
  · intro k st hl
    obtain ⟨st', hl'⟩ := h.present k st hl
    rw [hlook]
    split
    · exact ⟨_, by rw [hl']; rfl⟩
    · split
      · exact ⟨_, by rw [hld]; rfl⟩
      · exact ⟨st', hl'⟩
  · intro p r
    rw [hc.state, (sameLinks_skipAll _ sk).edge]
    exact hedge₀ p r
  · rw [hmeta]
    exact h.jobs
  · rw [hmeta]
    exact h.others

/-- One iteration. -/
theorem cancelJob (h : Confined s e skips s') (hx : ¬ s.Exposed e) {j : JobId}
    (hj : s.TrackedBy e j) :
    Confined s e (skips ++ (DagStrategy.cancelJob e s' j).1) (DagStrategy.cancelJob e s' j).2 := by
  have hspec := cancelJob_spec s' e j
  cases hres : DagStrategy.cancelJob e s' j with
  | mk new s'' =>
    rw [hres] at hspec
    cases hspec with
    | gone _ _ =>
      rw [List.append_nil]
      exact h
    | @orphaned owner hf hm =>
      obtain ⟨r, hr⟩ := hj
      have howner := h.jobs j owner hm
      rw [hr, Option.some.injEq] at howner
      subst howner
      have hforget := h.forgetJob ⟨r, hr⟩
      refine { hforget with own := ?_, strangers := ?_ }
      · intro skip hmem
        rcases List.mem_append.mp hmem with hmem | hmem
        · exact h.own skip hmem
        · obtain rfl := List.mem_singleton.mp hmem
          rfl
      · intro skip hmem e' hne
        rcases List.mem_append.mp hmem with hmem | hmem
        · exact h.strangers skip hmem e' hne
        · obtain rfl := List.mem_singleton.mp hmem
          rintro ⟨r', hr'⟩
          simp only [hr, Option.some.injEq, Prod.mk.injEq] at hr'
          exact hne hr'.2.symm
    | kept _ _ =>
      rw [List.append_nil]
      exact h.forgetJob hj
    | @cancelled d step sk out s₁ hf hp hc =>
      obtain ⟨hld, hmem⟩ := findHead_eq_some hf
      have hopen : step.state.isTerminal = false := by rcases hp with hp | hp <;> rw [hp] <;> rfl
      have hn : ¬ s.NeededByOther e d := fun hneed =>
        hx ⟨d, step, j, h.openSteps d step hld hopen, hp, hmem, hj, hneed⟩
      exact (h.cancelled hn hld hp hc).forgetJob hj

end Confined

theorem confined_cancelEval (hx : ¬ s.Exposed e) :
    Confined s e (s.cancelEval e).1 (s.cancelEval e).2 :=
  cancelEval_rec (P := fun skips s' => Confined s e skips s') (.start s e)
    fun _ _ _ hj ih => ih.cancelJob hx (mem_jobsOf_iff.mp hj)

/-! ## Verdicts read off an untouched part -/

section Transfer

variable {N : String → Prop} {o : String → JobStatus}
  (hback : ∀ p k, s'.Edge p k → N k → N p)
  (hsame : ∀ k, N k → s'.byDrv.lookup k = s.byDrv.lookup k)

include hback hsame

theorem Runs.transfer {k : String} (h : Runs s o k) (hk : N k) : Runs s' o k := by
  induction h with
  | live hl hlive => exact .live ((hsame _ hk).trans hl) hlive
  | @waits k st hl hp _ hok ih =>
    have hpred : ∀ p stp, s'.byDrv.lookup p = some stp → k ∈ stp.rdeps →
        N p ∧ s.byDrv.lookup p = some stp := by
      intro p stp hlp hmem
      have hp' := hback p k ⟨stp, hlp, hmem⟩ hk
      exact ⟨hp', (hsame p hp').symm.trans hlp⟩
    refine .waits ((hsame _ hk).trans hl) hp ?_ ?_
    · intro p stp hlp hmem hns
      obtain ⟨hNp, hlp'⟩ := hpred p stp hlp hmem
      exact ih p stp hlp' hmem hns hNp
    · intro p stp hlp hmem hns
      exact hok p stp (hpred p stp hlp hmem).2 hmem hns

theorem Skips.transfer (hback' : ∀ p k, s.Edge p k → N k → N p) {k : String} (h : Skips s o k)
    (hk : N k) : Skips s' o k := by
  have hedge : ∀ {p k}, s.Edge p k → N k → s'.Edge p k := by
    rintro p k ⟨stp, hlp, hmem⟩ hk
    exact ⟨stp, (hsame p (hback' p k ⟨stp, hlp, hmem⟩ hk)).trans hlp, hmem⟩
  induction h with
  | failed hr hfail he hl hp =>
    exact .failed (hr.transfer hback hsame (hback' _ _ he hk)) hfail (hedge he hk)
      ((hsame _ hk).trans hl) hp
  | behind _ he hl hp ih =>
    exact .behind (ih (hback' _ _ he hk)) (hedge he hk) ((hsame _ hk).trans hl) hp

end Transfer

/-! ## The loop, when something is exposed -/

theorem keys_cancelJob (s : DagStrategy) (e : EvalId) (j : JobId) :
    (cancelJob e s j).2.byDrv.keys = s.byDrv.keys := by
  have hretire : ∀ (s : DagStrategy) (sk : List String), (s.skipAll sk).byDrv.keys = s.byDrv.keys := by
    intro s sk
    induction sk using List.reverseRecOn with
    | nil => rfl
    | append_singleton sk k ih =>
      rw [skipAll_concat]
      exact (HashMap.keys_modify _ _ _).trans ih
  have hspec := cancelJob_spec s e j
  cases hres : cancelJob e s j with
  | mk skips s' =>
    rw [hres] at hspec
    cases hspec with
    | gone _ _ => rfl
    | orphaned _ _ => rfl
    | kept _ _ => rfl
    | @cancelled d step sk out s₁ hf hp hc =>
      have hkeys : s₁.byDrv.keys = s.byDrv.keys := by
        rw [hc.state, hretire]
        exact (HashMap.keys_modify _ _ _).trans (HashMap.keys_modify _ _ _)
      exact hkeys

/-- A Step that comes first in the iteration is the head that is found for its Jobs. -/
theorem findHead_of_first {h : String} {st : Step} {j : JobId} {ks : List String}
    (hkeys : s.byDrv.keys = h :: ks) (hl : s.byDrv.lookup h = some st) (hj : j ∈ st.headJobs) :
    s.findHead j = some (h, st) := by
  cases hent : s.byDrv.entries with
  | nil =>
    rw [show s.byDrv.keys = s.byDrv.entries.keys from rfl, hent] at hkeys
    exact absurd hkeys (by simp [List.keys])
  | cons x l =>
    have hmem : x ∈ s.byDrv.entries := by rw [hent]; simp
    have hx : x.1 = h := by
      rw [show s.byDrv.keys = s.byDrv.entries.keys from rfl, hent] at hkeys
      simp only [List.keys, List.map_cons, List.cons.injEq] at hkeys
      exact hkeys.1
    have hl' : s.byDrv.lookup x.1 = some x.2 := HashMap.mem_entries_iff.mp hmem
    rw [hx, hl, Option.some.injEq] at hl'
    unfold findHead
    rw [hent, List.find?_cons_of_pos (by rw [← hl']; simpa using hj)]
    simp [hx, hl']

/-- Some iteration order closes an exposed head Step. -/
theorem exists_shuffle_closed {h : String} {st : Step} {j : JobId}
    (hl : s.byDrv.lookup h = some st) (hp : st.state = .pending ∨ st.state = .ready)
    (hj : j ∈ st.headJobs) (ht : s.TrackedBy e j) :
    ∃ s₁, Shuffle s s₁ ∧
      ∃ st', (s₁.cancelEval e).2.byDrv.lookup h = some st' ∧ st'.state.isTerminal = true := by
  obtain ⟨m, l, hm, hent⟩ := HashMap.exists_shuffle_cons hl
  let s₁ : DagStrategy := { s with byDrv := m }
  have hs : Shuffle s s₁ := ⟨.refl _, hm, .refl _, rfl, .refl _⟩
  have hkeys₁ : s₁.byDrv.keys = h :: l.keys := by
    rw [show s₁.byDrv.keys = m.entries.keys from rfl, hent]
    rfl
  let closed : DagStrategy → Prop := fun s' =>
    ∃ st', s'.byDrv.lookup h = some st' ∧ st'.state.isTerminal = true
  refine ⟨s₁, hs, ?_⟩
  unfold cancelEval
  refine foldl_establishes
    (I := fun acc : List CascadedSkip × DagStrategy =>
      acc.2.byDrv.keys = h :: l.keys ∧ (acc.2.byDrv.lookup h = some st ∨ closed acc.2))
    (Q := fun acc => closed acc.2) (x := j) ?_ ?_ ?_ _ _
    ⟨hkeys₁, Or.inl ((hs.step h).trans hl)⟩ ?_
  · rintro ⟨skips, s'⟩ j' ⟨hkeys, hor⟩
    refine ⟨(keys_cancelJob s' e j').trans hkeys, ?_⟩
    rcases hor with hl' | ⟨st', hl', hterm⟩
    · -- the Step is still open, or this iteration closes it
      cases hafter : (cancelJob e s' j').2.byDrv.lookup h with
      | none =>
        have hmem : h ∈ (cancelJob e s' j').2.byDrv.keys := by
          rw [keys_cancelJob, hkeys]
          simp
        have hsome : ((cancelJob e s' j').2.byDrv.lookup h).isSome = true :=
          AList.lookup_isSome.mpr hmem
        rw [hafter] at hsome
        exact absurd hsome (by simp)
      | some st' =>
        cases hterm : st'.state.isTerminal with
        | true => exact Or.inr ⟨st', hafter, hterm⟩
        | false =>
          have hsame := open_of_cancelJob hafter hterm
          rw [hl', Option.some.injEq] at hsame
          rw [hsame]
          exact Or.inl rfl
    · obtain ⟨st'', hl'', hst''⟩ := cancelJob_keeps_terminal e j' hl' hterm
      exact Or.inr ⟨st'', hl'', hst'' ▸ hterm⟩
  · rintro ⟨skips, s'⟩ j' - ⟨st', hl', hterm⟩
    obtain ⟨st'', hl'', hst''⟩ := cancelJob_keeps_terminal e j' hl' hterm
    exact ⟨st'', hl'', hst'' ▸ hterm⟩
  · rintro ⟨skips, s'⟩ ⟨hkeys, hor⟩
    rcases hor with hl' | ⟨st', hl', hterm⟩
    · have hfind := findHead_of_first hkeys hl' hj
      have hspec := cancelJob_spec s' e j
      simp only
      cases hres : cancelJob e s' j with
      | mk new s'' =>
        rw [hres] at hspec
        cases hspec with
        | gone hf _ =>
          rw [hfind] at hf
          exact absurd hf (by simp)
        | orphaned hf _ =>
          rw [hfind] at hf
          exact absurd hf (by simp)
        | kept hf hst =>
          rw [hfind, Option.some.injEq, Prod.mk.injEq] at hf
          obtain ⟨rfl, rfl⟩ := hf
          rcases hp with hp | hp <;> rw [hp] at hst <;> exact absurd hst (by decide)
        | @cancelled d step sk out s₂ hf _ hc =>
          rw [hfind, Option.some.injEq, Prod.mk.injEq] at hf
          obtain ⟨rfl, rfl⟩ := hf
          have hlook := lookup_skipAll (s'.cancelHead h) sk h
          rw [← hc.state, lookup_cancelHead, if_pos rfl, hl'] at hlook
          split at hlook
          · exact ⟨_, hlook, rfl⟩
          · exact ⟨_, hlook, rfl⟩
    · obtain ⟨st'', hl'', hst''⟩ := cancelJob_keeps_terminal e j hl' hterm
      exact ⟨st'', hl'', hst'' ▸ hterm⟩
  · refine mem_jobsOf_iff.mpr ?_
    exact ht

end DagStrategy

open DagStrategy

namespace Session

variable {σ : Session} {e : EvalId}

/-- The session after a cancellation that found the maps as in `s₁`. -/
def afterCancel (σ : Session) (e : EvalId) (s₁ : DagStrategy) : Session :=
  σ.record (s₁.cancelEval e).2 (.cancelEval e) (.cancelled (s₁.cancelEval e).1)

/-- Cancelling the evaluation does not touch the others, whatever order the maps are in. -/
structure Isolated (σ : Session) (e : EvalId) : Prop where
  /-- Only Jobs of the evaluation are told that they are cancelled. -/
  skips : ∀ s₁, Shuffle σ.strategy s₁ → ∀ skip ∈ (s₁.cancelEval e).1, skip.evalId = e
  /-- What other evaluations need stays as it is. -/
  steps : ∀ s₁, Shuffle σ.strategy s₁ → ∀ k, σ.strategy.NeededByOther e k →
    (s₁.cancelEval e).2.byDrv.lookup k = σ.strategy.byDrv.lookup k
  /-- What of it is ready can still be dispatched. -/
  queued : ∀ s₁, Shuffle σ.strategy s₁ → ∀ k st, σ.strategy.NeededByOther e k →
    σ.strategy.byDrv.lookup k = some st → st.state = .ready →
    ∃ token, st.inFlightToken = some token ∧
      (s₁.cancelEval e).2.tokenToDrv.lookup token = some k ∧
      (s₁.cancelEval e).2.wfq.queuedCount token = 1
  /-- Every Job of another evaluation is told the same, with and without the cancellation. -/
  verdicts : ∀ s₁, Shuffle σ.strategy s₁ → ∀ (o : String → JobStatus) (σ' σ'' : Session),
    Run (DrivesAs o) σ σ' → Drained σ' → Run (DrivesAs o) (σ.afterCancel e s₁) σ'' → Drained σ'' →
    ∀ j e', e' ≠ e → σ.strategy.TrackedBy e' j → ∀ v,
      σ''.log.countP (Event.tells j v) = σ'.log.countP (Event.tells j v)

theorem owedIn_of_not_mem {runs skips : Prop} {status : JobStatus} {tracked : JobId → Bool}
    {x : StepState} {jobs : List JobId} {j : JobId} (hj : j ∉ jobs) (v : Verdict) :
    owedIn runs skips status tracked x jobs j v = 0 := by
  have hhead : jobs.head? ≠ some j := fun h => hj (List.mem_of_head? h)
  have hdrop : ((jobs.drop 1).filter tracked).count j = 0 :=
    List.count_eq_zero.mpr fun h => hj (List.mem_of_mem_drop (List.mem_of_mem_filter h))
  have hall : (jobs.filter tracked).count j = 0 :=
    List.count_eq_zero.mpr fun h => hj (List.mem_of_mem_filter h)
  unfold owedIn
  rw [hdrop, hall]
  simp [hhead]

/-- Only whether the Job itself is tracked matters to it. -/
theorem owedIn_tracked {runs skips : Prop} {status : JobStatus} {tracked tracked' : JobId → Bool}
    {j : JobId} (h : tracked j = true) (h' : tracked' j = true) (x : StepState) (jobs : List JobId)
    (v : Verdict) :
    owedIn runs skips status tracked x jobs j v = owedIn runs skips status tracked' x jobs j v := by
  unfold owedIn
  rw [List.count_filter h, List.count_filter h', List.count_filter h, List.count_filter h']

/-- What the others are owed does not change. -/
theorem owed_afterCancel {s₁ : DagStrategy} (hs : Shuffle σ.strategy s₁)
    (hx : ¬ σ.strategy.Exposed e) (o : String → JobStatus) {j : JobId} {e' : EvalId} (hne : e' ≠ e)
    (hj : σ.strategy.TrackedBy e' j) (v : Verdict) :
    owed o (σ.afterCancel e s₁) j v = owed o σ j v := by
  have hc := confined_cancelEval (s := s₁) (e := e) (hs.exposed.not.mpr hx)
  have hj₁ : s₁.TrackedBy e' j := by
    rw [TrackedBy, hs.job]
    exact hj
  have hsame : ∀ k, σ.strategy.NeededByOther e k →
      (s₁.cancelEval e).2.byDrv.lookup k = σ.strategy.byDrv.lookup k := fun k hk =>
    (hc.needed k ((hs.neededByOther k).mpr hk)).trans (hs.step k)
  have hedge : ∀ p r, (s₁.cancelEval e).2.Edge p r ↔ σ.strategy.Edge p r := fun p r =>
    (hc.edge p r).trans (hs.sameLinks.edge p r)
  have hback : ∀ p k, σ.strategy.Edge p k → σ.strategy.NeededByOther e k →
      σ.strategy.NeededByOther e p := fun p k he hk => hk.back he
  have hback' : ∀ p k, (s₁.cancelEval e).2.Edge p k → σ.strategy.NeededByOther e k →
      σ.strategy.NeededByOther e p := fun p k he hk => hk.back ((hedge p k).mp he)
  have hruns : ∀ k, σ.strategy.NeededByOther e k →
      (Runs (s₁.cancelEval e).2 o k ↔ Runs σ.strategy o k) := fun k hk =>
    ⟨fun h => h.transfer hback (fun k hk => (hsame k hk).symm) hk,
      fun h => h.transfer hback' hsame hk⟩
  have hskips : ∀ k, σ.strategy.NeededByOther e k →
      (Skips (s₁.cancelEval e).2 o k ↔ Skips σ.strategy o k) := fun k hk =>
    ⟨fun h => h.transfer hback (fun k hk => (hsame k hk).symm) hback' hk,
      fun h => h.transfer hback' hsame hback hk⟩
  have htracked : (s₁.cancelEval e).2.jobMeta.lookup j = σ.strategy.jobMeta.lookup j :=
    (hc.others j e' hne hj₁).trans (hs.job j)
  have hsome : (σ.strategy.jobMeta.lookup j).isSome = true := by
    obtain ⟨r, hr⟩ := hj
    rw [hr]
    rfl
  have hkeys : (s₁.cancelEval e).2.byDrv.keys.toFinset = σ.strategy.byDrv.keys.toFinset := by
    ext k
    simp only [List.mem_toFinset]
    rw [show (k ∈ (s₁.cancelEval e).2.byDrv.keys) = (k ∈ (s₁.cancelEval e).2.byDrv) from rfl,
      show (k ∈ σ.strategy.byDrv.keys) = (k ∈ σ.strategy.byDrv) from rfl,
      ← AList.lookup_isSome, ← AList.lookup_isSome, ← hs.step]
    constructor
    · intro h
      obtain ⟨st', hl'⟩ := Option.isSome_iff_exists.mp h
      obtain ⟨st, hl, -⟩ := hc.heads k st' hl'
      rw [hl]
      rfl
    · intro h
      obtain ⟨st, hl⟩ := Option.isSome_iff_exists.mp h
      obtain ⟨st', hl'⟩ := hc.present k st hl
      rw [hl']
      rfl
  have hpoint : ∀ k, owedBy (Runs (s₁.cancelEval e).2 o) (Skips (s₁.cancelEval e).2 o) o
        (s₁.cancelEval e).2 j v k
      = owedBy (Runs σ.strategy o) (Skips σ.strategy o) o σ.strategy j v k := by
    intro k
    by_cases hk : σ.strategy.NeededByOther e k
    · cases hl : σ.strategy.byDrv.lookup k with
      | none => simp [owedBy, hl, hsame k hk]
      | some st =>
        rw [owedBy_eq ((hsame k hk).trans hl), owedBy_eq hl, hruns k hk |> propext,
          hskips k hk |> propext]
        exact owedIn_tracked (by rw [htracked]; exact hsome) hsome _ _ _
    · -- the Job has no business with the Step, before or after
      have hzero : owedBy (Runs σ.strategy o) (Skips σ.strategy o) o σ.strategy j v k = 0 := by
        cases hl : σ.strategy.byDrv.lookup k with
        | none => simp [owedBy, hl]
        | some st =>
          rw [owedBy_eq hl]
          exact owedIn_of_not_mem (fun hm => hk (.of_job hl hm hne hj)) v
      rw [hzero]
      cases hl' : (s₁.cancelEval e).2.byDrv.lookup k with
      | none => simp [owedBy, hl']
      | some st' =>
        obtain ⟨st, hl, hsub⟩ := hc.heads k st' hl'
        rw [owedBy_eq hl']
        exact owedIn_of_not_mem
          (fun hm => hk (.of_job ((hs.step k).symm.trans hl) (hsub j hm) hne hj)) v
  unfold owed afterCancel
  rw [record_strategy, hkeys, Finset.sum_congr rfl fun k _ => hpoint k]
  rfl

/-- **A cancellation is isolated exactly when it exposes nothing**: no head Step of the evaluation
    that is still pending or ready is needed by another evaluation. -/
theorem isolated_iff_not_exposed {cap : Option ℕ}
    (hrun : Run (fun _ _ => True) (Session.start (DagStrategy.new cap)) σ) :
    Isolated σ e ↔ ¬ σ.strategy.Exposed e := by
  have hstart : Tracks (Session.start (DagStrategy.new cap)) := by
    refine .start .new ?_
    rintro k t ⟨st, hl, -⟩
    exact absurd hl (by simp [DagStrategy.new])
  have htr : Tracks σ := hstart.run hrun
  constructor
  · rintro hiso ⟨h, st, j, hl, hp, hj, ht, hneed⟩
    obtain ⟨s₁, hs, st', hl', hterm⟩ := exists_shuffle_closed hl hp hj ht
    rw [hiso.steps s₁ hs h hneed, hl, Option.some.injEq] at hl'
    rw [← hl'] at hterm
    rcases hp with hp | hp <;> rw [hp] at hterm <;> exact absurd hterm (by decide)
  · intro hx
    have hc : ∀ s₁, Shuffle σ.strategy s₁ →
        Confined s₁ e (s₁.cancelEval e).1 (s₁.cancelEval e).2 := fun s₁ hs =>
      confined_cancelEval (hs.exposed.not.mpr hx)
    have hsame : ∀ s₁, Shuffle σ.strategy s₁ → ∀ k, σ.strategy.NeededByOther e k →
        (s₁.cancelEval e).2.byDrv.lookup k = σ.strategy.byDrv.lookup k := fun s₁ hs k hk =>
      ((hc s₁ hs).needed k ((hs.neededByOther k).mpr hk)).trans (hs.step k)
    refine ⟨fun s₁ hs => (hc s₁ hs).own, hsame, ?_, ?_⟩
    · intro s₁ hs k st hneed hl hready
      have hb := (htr.books.shuffle hs).cancelEval e
      have hl' := (hsame s₁ hs k hneed).trans hl
      have hh := hb.holds k st hl'
      rw [hready] at hh
      obtain ⟨token, htok⟩ := Option.isSome_iff_exists.mp hh
      have hmap := (hb.token token k).mpr ⟨st, hl', htok⟩
      have hq := hb.queued token k st hmap hl'
      rw [if_pos hready] at hq
      exact ⟨token, htok, hmap, hq⟩
    · intro s₁ hs o σ' σ'' hr' hd' hr'' hd'' j e' hne hj v
      have htr' : Tracks (σ.afterCancel e s₁) := htr.step hs (.cancelEval e)
      have hsilent : (σ.afterCancel e s₁).log.countP (Event.tells j v)
          = σ.log.countP (Event.tells j v) := by
        unfold afterCancel
        simp only [record, List.countP_append, List.countP_cons, Event.tells, Bool.false_eq_true,
          if_false, Nat.add_zero, Nat.add_eq_left, List.countP_eq_zero, List.mem_map]
        rintro _ ⟨skip, hmem, rfl⟩
        have hnot := (hc s₁ hs).strangers skip hmem e' hne
        simp only [decide_eq_true_eq, not_and]
        rintro rfl
        refine absurd ?_ hnot
        rw [TrackedBy, hs.job]
        exact hj
      rw [verdicts_of_drained htr hr' hd', verdicts_of_drained htr' hr'' hd'', hsilent,
        owed_afterCancel hs hx o hne hj]

/-! ## Shared Steps -/

/-- Two evaluations whose Jobs read the same internal Step. -/
def sharedInput : Session :=
  (Session.start (DagStrategy.new none)).runOps
    [.enqueue ⟨⟨1⟩, ⟨1⟩, ⟨1⟩, ⟨"x", none, [], ["lib"]⟩, [⟨"lib", none, [], []⟩]⟩,
      .enqueue ⟨⟨1⟩, ⟨2⟩, ⟨2⟩, ⟨"y", none, [], ["lib"]⟩, [⟨"lib", none, [], []⟩]⟩]

/-- The Jobs of two evaluations have the same head. -/
def sharedHead : Session :=
  (Session.start (DagStrategy.new none)).runOps
    [.enqueue ⟨⟨1⟩, ⟨1⟩, ⟨1⟩, ⟨"a", none, [], []⟩, []⟩,
      .enqueue ⟨⟨1⟩, ⟨2⟩, ⟨2⟩, ⟨"a", none, [], []⟩, []⟩]

/-- A Job of one evaluation reads the head of another's. -/
def sharedDependency : Session :=
  (Session.start (DagStrategy.new none)).runOps
    [.enqueue ⟨⟨1⟩, ⟨1⟩, ⟨1⟩, ⟨"a", none, [], []⟩, []⟩,
      .enqueue ⟨⟨1⟩, ⟨2⟩, ⟨2⟩, ⟨"b", none, [], ["a"]⟩, [⟨"a", none, [], []⟩]⟩]

theorem run_any (ops : List Op) (σ : Session) : Run (fun _ _ => True) σ (σ.runOps ops) := by
  refine .of_ops ?_
  induction ops generalizing σ with
  | nil => trivial
  | cons op ops ih => exact ⟨trivial, ih _⟩

theorem isolated_sharedInput : Isolated sharedInput ⟨1⟩ := by
  refine (isolated_iff_not_exposed (run_any _ _)).mpr (not_exposed_of_leaves fun x hx => ?_)
  revert x
  decide

/-- Both failures: an alias of another evaluation is cancelled, and a dependent of another
    evaluation is skipped. -/
theorem not_isolated_shared :
    (Run (fun _ _ => True) (Session.start (DagStrategy.new none)) sharedHead ∧
      ¬ Isolated sharedHead ⟨1⟩) ∧
    (Run (fun _ _ => True) (Session.start (DagStrategy.new none)) sharedDependency ∧
      ¬ Isolated sharedDependency ⟨1⟩) := by
  have hfail : ∀ {σ : Session} {e : EvalId},
      (∃ skip ∈ (σ.strategy.cancelEval e).1, skip.evalId ≠ e) → ¬ Isolated σ e := by
    rintro σ e ⟨skip, hmem, hne⟩ hiso
    exact hne (hiso.skips _ (.refl _) skip hmem)
  refine ⟨⟨run_any _ _, hfail ?_⟩, run_any _ _, hfail ?_⟩
  · decide
  · decide

end Session

end Argunix.Sched
