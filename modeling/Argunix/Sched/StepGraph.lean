import Argunix.Sched.Dag
import Mathlib.Logic.Relation
import Mathlib.Data.List.Nodup

/-!
# What each operation does to the Step graph

One specification per function of `Sched.Dag`, in terms of what `byDrv.lookup` answers
afterwards. Every later argument about the strategy goes through these and never unfolds a
loop again.

* `cascadeSkip_spec`: the worklist skips exactly a list `sk` of open Steps, each once, that is
  closed under recorded edges up to Steps already terminal.
* `lookup_promoteReadySteps`: a Step is touched only if it is promotable.
* `dispatch_spec`: nothing but the WFQ core changes, or one Step turns `running`.
* `lookup_decrementRdeps`: a counter goes down by the number of recorded edges.
-/

set_option autoImplicit false

namespace Argunix.Sched

open Argunix.Lib

namespace StepState

theorem isTerminal_of_isSuccessfulTerminal {st : StepState} (h : st.isSuccessfulTerminal = true) :
    st.isTerminal = true := by
  cases st <;> simp_all [isSuccessfulTerminal, isTerminal]

theorem isLive_eq_false_of_isTerminal {st : StepState} (h : st.isTerminal = true) :
    st.isLive = false := by
  cases st <;> simp_all [isLive, isTerminal]

theorem isSuccessfulTerminal_eq_false_of_open {st : StepState} (h : st.isTerminal = false) :
    st.isSuccessfulTerminal = false := by
  cases st <;> simp_all [isSuccessfulTerminal, isTerminal]

theorem isTerminal_eq_false_of_isLive {st : StepState} (h : st.isLive = true) :
    st.isTerminal = false := by
  cases st <;> simp_all [isLive, isTerminal]

/-- The three ways a Step can be open or closed. -/
theorem pending_or_live_or_terminal (st : StepState) :
    st = pending ∨ st.isLive = true ∨ st.isTerminal = true := by
  cases st <;> simp [isLive, isTerminal]

theorem isTerminal_fromStatus (status : JobStatus) : (fromStatus status).isTerminal = true := by
  cases status <;> rfl

theorem isSuccessfulTerminal_fromStatus (status : JobStatus) :
    (fromStatus status).isSuccessfulTerminal = status.isSuccess := by
  cases status <;> rfl

end StepState

namespace DagStrategy

variable {s s' : DagStrategy}

/-- The same strategy with its hash maps iterated in another order. -/
structure Shuffle (s s' : DagStrategy) : Prop where
  wfq : WfqCore.Shuffle s.wfq s'.wfq
  byDrv : HashMap.Shuffle s.byDrv s'.byDrv
  tokenToDrv : HashMap.Shuffle s.tokenToDrv s'.tokenToDrv
  nextToken : s'.nextToken = s.nextToken
  jobMeta : HashMap.Shuffle s.jobMeta s'.jobMeta

theorem Shuffle.refl (s : DagStrategy) : Shuffle s s :=
  ⟨.refl _, .refl _, .refl _, rfl, .refl _⟩

theorem Shuffle.step (h : Shuffle s s') (d : String) : s'.byDrv.lookup d = s.byDrv.lookup d :=
  (HashMap.Shuffle.lookup h.byDrv d).symm

theorem Shuffle.token (h : Shuffle s s') (t : DispatchToken) :
    s'.tokenToDrv.lookup t = s.tokenToDrv.lookup t :=
  (HashMap.Shuffle.lookup h.tokenToDrv t).symm

theorem Shuffle.job (h : Shuffle s s') (j : JobId) : s'.jobMeta.lookup j = s.jobMeta.lookup j :=
  (HashMap.Shuffle.lookup h.jobMeta j).symm

/-- A recorded edge: `r` waits for `p`. -/
def Edge (s : DagStrategy) (p r : String) : Prop :=
  ∃ st, s.byDrv.lookup p = some st ∧ r ∈ st.rdeps

/-- The Jobs a Step stands for. -/
def headJobsOf (s : DagStrategy) (d : String) : List JobId :=
  ((s.byDrv.lookup d).map (·.headJobs)).getD []

@[simp]
theorem lookup_modifyStep (s : DagStrategy) (k d : String) (f : Step → Step) :
    (s.modifyStep k f).byDrv.lookup d
      = if d = k then (s.byDrv.lookup k).map f else s.byDrv.lookup d :=
  HashMap.lookup_modify _ _ _ _

@[simp]
theorem lookup_retire (s : DagStrategy) (k d : String) (st : StepState) :
    (s.retire k st).byDrv.lookup d
      = if d = k then (s.byDrv.lookup k).map (·.close st) else s.byDrv.lookup d :=
  HashMap.lookup_modify _ _ _ _

theorem mem_rdepsOf_iff {p r : String} : r ∈ s.rdepsOf p ↔ s.Edge p r := by
  unfold rdepsOf Edge
  cases h : s.byDrv.lookup p with
  | none => simp
  | some st => simp

/-! ## The cascade -/

/-- Skip a list of Steps, oldest first. -/
def skipAll (s : DagStrategy) (sk : List String) : DagStrategy :=
  sk.foldl (fun s d => s.retire d .skipped) s

theorem skipAll_concat (s : DagStrategy) (sk : List String) (d : String) :
    s.skipAll (sk ++ [d]) = (s.skipAll sk).retire d .skipped := by
  simp [skipAll]

theorem lookup_skipAll (s : DagStrategy) (sk : List String) (d : String) :
    (s.skipAll sk).byDrv.lookup d
      = if d ∈ sk then (s.byDrv.lookup d).map (·.close .skipped) else s.byDrv.lookup d := by
  induction sk using List.reverseRecOn with
  | nil => simp [skipAll]
  | append_singleton sk k ih =>
    rw [skipAll_concat, lookup_retire]
    by_cases hk : d = k
    · subst hk
      rw [ih]
      cases s.byDrv.lookup d with
      | none => simp
      | some st => by_cases hm : d ∈ sk <;> simp [hm, Step.close]
    · simp [hk, ih]

@[simp]
theorem skipAll_jobMeta (s : DagStrategy) (sk : List String) : (s.skipAll sk).jobMeta = s.jobMeta := by
  induction sk using List.reverseRecOn with
  | nil => rfl
  | append_singleton sk k ih => rw [skipAll_concat]; exact ih

@[simp]
theorem skipAll_wfq (s : DagStrategy) (sk : List String) : (s.skipAll sk).wfq = s.wfq := by
  induction sk using List.reverseRecOn with
  | nil => rfl
  | append_singleton sk k ih => rw [skipAll_concat]; exact ih

@[simp]
theorem skipAll_nextToken (s : DagStrategy) (sk : List String) :
    (s.skipAll sk).nextToken = s.nextToken := by
  induction sk using List.reverseRecOn with
  | nil => rfl
  | append_singleton sk k ih => rw [skipAll_concat]; exact ih

/-- What a cascade behind `fromDrv` does. -/
structure Cascaded (s : DagStrategy) (fromDrv : String) (sk : List String)
    (out : List CascadedSkip) (s' : DagStrategy) : Prop where
  nodup : sk.Nodup
  /-- Only open Steps are skipped. -/
  isOpen : ∀ d ∈ sk, ∃ st, s.byDrv.lookup d = some st ∧ st.state.isTerminal = false
  /-- Only Steps behind `fromDrv` are skipped, each through others that are. -/
  behind : ∀ d ∈ sk, Relation.TransGen (fun p r => s.Edge p r ∧ (p = fromDrv ∨ p ∈ sk)) fromDrv d
  /-- Every open Step behind `fromDrv` or behind a skipped Step is skipped. -/
  closed : ∀ p r st, p = fromDrv ∨ p ∈ sk → s.Edge p r → s.byDrv.lookup r = some st →
    st.state.isTerminal = true ∨ r ∈ sk
  state : s' = s.skipAll sk
  skips : out = sk.flatMap fun d => s.skipsFor fromDrv (s.headJobsOf d)

/-- Closing an open Step takes its recorded edges off the fuel. -/
theorem openRdeps_retire {d : String} {st : Step} (h : s.byDrv.lookup d = some st)
    (hopen : st.state.isTerminal = false) :
    (s.retire d .skipped).openRdeps + st.rdeps.length = s.openRdeps := by
  have := HashMap.sumOver_modify
    (w := fun _ (st : Step) => if st.state.isTerminal then 0 else st.rdeps.length) h
    (·.close .skipped)
  have hskipped : StepState.skipped.isTerminal = true := rfl
  simp only [hopen, Step.close_state, hskipped, Bool.false_eq_true, if_true, if_false,
    Nat.add_zero] at this
  exact this

/-- The worklist invariant: `sk` is skipped so far, every path still queued lies behind
    `fromDrv`, and an edge out of what is done leads to something done, closed or queued. -/
theorem cascadeLoop_spec (s : DagStrategy) (fromDrv : String) :
    ∀ (fuel : ℕ) (queue sk : List String),
      queue.length + (s.skipAll sk).openRdeps ≤ fuel →
      sk.Nodup →
      (∀ d ∈ sk, ∃ st, s.byDrv.lookup d = some st ∧ st.state.isTerminal = false) →
      (∀ d ∈ sk ++ queue,
        Relation.TransGen (fun p r => s.Edge p r ∧ (p = fromDrv ∨ p ∈ sk)) fromDrv d) →
      (∀ p r st, p = fromDrv ∨ p ∈ sk → s.Edge p r → s.byDrv.lookup r = some st →
        st.state.isTerminal = true ∨ r ∈ sk ∨ r ∈ queue) →
      ∃ sk' out s', cascadeLoop fromDrv fuel queue
          (sk.flatMap fun d => s.skipsFor fromDrv (s.headJobsOf d)) (s.skipAll sk) = (out, s') ∧
        Cascaded s fromDrv sk' out s' := by
  intro fuel
  induction fuel with
  | zero =>
    intro queue sk hfuel hnd hopen hbehind hclosed
    obtain rfl : queue = [] := List.length_eq_zero_iff.mp (by omega)
    refine ⟨sk, _, _, rfl, hnd, hopen, fun d hd => hbehind d (by simpa using hd),
      ?_, rfl, rfl⟩
    intro p r st hp he hl
    simpa using hclosed p r st hp he hl
  | succ fuel ih =>
    intro queue sk hfuel hnd hopen hbehind hclosed
    cases queue with
    | nil =>
      refine ⟨sk, _, _, rfl, hnd, hopen, fun d hd => hbehind d (by simpa using hd),
        ?_, rfl, rfl⟩
      intro p r st hp he hl
      simpa using hclosed p r st hp he hl
    | cons k queue =>
      have hk := hbehind k (by simp)
      have hrest : ∀ d ∈ sk ++ queue, d ∈ sk ++ k :: queue := by
        intro d hd
        simp only [List.mem_append, List.mem_cons] at hd ⊢
        tauto
      have hbehind' := fun d hd => hbehind d (hrest d hd)
      simp only [List.length_cons] at hfuel
      have hcur := lookup_skipAll s sk k
      simp only [cascadeLoop, hcur]
      cases hl : s.byDrv.lookup k with
      | none =>
        -- the path is not in the graph
        simp only [Option.map_none, ite_self]
        refine ih queue sk (by omega) hnd hopen hbehind' fun p r st hp he hr => ?_
        rcases hclosed p r st hp he hr with h | h | h
        · exact Or.inl h
        · exact Or.inr (Or.inl h)
        · rcases List.mem_cons.mp h with rfl | h
          · rw [hl] at hr; exact absurd hr (by simp)
          · exact Or.inr (Or.inr h)
      | some st =>
        by_cases hm : k ∈ sk
        · -- skipped earlier in this cascade
          simp only [hm, if_true, Option.map_some, Step.close, StepState.isTerminal]
          refine ih queue sk (by omega) hnd hopen hbehind' fun p r st' hp he hr => ?_
          rcases hclosed p r st' hp he hr with h | h | h
          · exact Or.inl h
          · exact Or.inr (Or.inl h)
          · rcases List.mem_cons.mp h with rfl | h
            · exact Or.inr (Or.inl hm)
            · exact Or.inr (Or.inr h)
        · simp only [hm, if_false]
          by_cases ht : st.state.isTerminal = true
          · simp only [ht, if_true]
            refine ih queue sk (by omega) hnd hopen hbehind' fun p r st' hp he hr => ?_
            rcases hclosed p r st' hp he hr with h | h | h
            · exact Or.inl h
            · exact Or.inr (Or.inl h)
            · rcases List.mem_cons.mp h with rfl | h
              · rw [hl, Option.some.injEq] at hr
                exact Or.inl (hr ▸ ht)
              · exact Or.inr (Or.inr h)
          · -- an open Step: it is skipped and its own rdeps are queued
            rw [Bool.not_eq_true] at ht
            simp only [ht, Bool.false_eq_true, if_false]
            have hlk : (s.skipAll sk).byDrv.lookup k = some st := by rw [hcur, if_neg hm, hl]
            have hmeas := openRdeps_retire hlk ht
            rw [← skipAll_concat] at hmeas
            have hout : (sk.flatMap fun d => s.skipsFor fromDrv (s.headJobsOf d))
                  ++ (s.skipAll sk).skipsFor fromDrv st.headJobs
                = (sk ++ [k]).flatMap fun d => s.skipsFor fromDrv (s.headJobsOf d) := by
              simp [skipsFor, headJobsOf, hl]
            rw [hout, ← skipAll_concat]
            have hwiden : ∀ {d}, Relation.TransGen
                (fun p r => s.Edge p r ∧ (p = fromDrv ∨ p ∈ sk)) fromDrv d →
                Relation.TransGen
                  (fun p r => s.Edge p r ∧ (p = fromDrv ∨ p ∈ sk ++ [k])) fromDrv d :=
              fun h => Relation.TransGen.mono
                (fun _ _ he => ⟨he.1, he.2.imp id fun hp => by simp [hp]⟩) _ _ h
            refine ih (queue ++ st.rdeps) (sk ++ [k]) ?_ ?_ ?_ ?_ ?_
            · rw [List.length_append]; omega
            · rw [List.nodup_append]
              refine ⟨hnd, by simp, ?_⟩
              rintro a ha b hb rfl
              obtain rfl : a = k := by simpa using hb
              exact hm ha
            · intro d hd
              rcases List.mem_append.mp hd with hd | hd
              · exact hopen d hd
              · obtain rfl : d = k := by simpa using hd
                exact ⟨st, hl, ht⟩
            · intro d hd
              simp only [List.append_assoc, List.mem_append, List.mem_singleton] at hd
              rcases hd with hd | rfl | hd | hd
              · exact hwiden (hbehind d (by simp [hd]))
              · exact hwiden hk
              · exact hwiden (hbehind d (by simp [hd]))
              · exact (hwiden hk).tail ⟨⟨st, hl, hd⟩, Or.inr (by simp)⟩
            · intro p r st' hp he hr
              have hdone : (p = fromDrv ∨ p ∈ sk) ∨ p = k := by
                simp only [List.mem_append, List.mem_singleton] at hp
                tauto
              rcases hdone with hp | rfl
              · rcases hclosed p r st' hp he hr with h | h | h
                · exact Or.inl h
                · exact Or.inr (Or.inl (by simp [h]))
                · rcases List.mem_cons.mp h with rfl | h
                  · exact Or.inr (Or.inl (by simp))
                  · exact Or.inr (Or.inr (by simp [h]))
              · obtain ⟨st'', hl'', hmem⟩ := he
                rw [hl, Option.some.injEq] at hl''
                subst hl''
                exact Or.inr (Or.inr (by simp [hmem]))

/-- **The cascade, completely.** In particular its fuel suffices. -/
theorem cascadeSkip_spec (s : DagStrategy) (fromDrv : String) :
    ∃ sk out s', s.cascadeSkip fromDrv = (out, s') ∧ Cascaded s fromDrv sk out s' := by
  refine cascadeLoop_spec s fromDrv _ (s.rdepsOf fromDrv) [] (by simp [skipAll]) (by simp)
    (by simp) ?_ ?_
  · intro d hd
    exact .single ⟨mem_rdepsOf_iff.mp (by simpa using hd), Or.inl rfl⟩
  · intro p r st hp he _
    simp only [List.not_mem_nil, or_false] at hp
    subst hp
    exact Or.inr (Or.inr (mem_rdepsOf_iff.mpr he))

/-- Each skipped Step waits for `fromDrv` itself or for another skipped Step. -/
theorem Cascaded.cause {fromDrv : String} {sk : List String} {out : List CascadedSkip}
    (h : Cascaded s fromDrv sk out s') {d : String} (hd : d ∈ sk) :
    ∃ p, (p = fromDrv ∨ p ∈ sk) ∧ s.Edge p d := by
  cases h.behind d hd with
  | single he => exact ⟨fromDrv, he.2, he.1⟩
  | tail _ he => exact ⟨_, he.2, he.1⟩

/-! ## Promotion -/

@[simp]
theorem lookup_promoteStep (s : DagStrategy) (p : String × RepoId) (d : String) :
    (s.promoteStep p).byDrv.lookup d
      = if d = p.1 then (s.byDrv.lookup p.1).map (·.makeReady ⟨s.nextToken⟩)
        else s.byDrv.lookup d :=
  HashMap.lookup_modify _ _ _ _

theorem lookup_foldl_promoteStep (d : String) :
    ∀ (ps : List (String × RepoId)) (s : DagStrategy), (ps.map Prod.fst).Nodup →
      ∃ token, (ps.foldl promoteStep s).byDrv.lookup d
        = (s.byDrv.lookup d).map fun st => if d ∈ ps.map Prod.fst then st.makeReady token else st := by
  intro ps
  induction ps with
  | nil => intro s _; exact ⟨⟨0⟩, by simp⟩
  | cons p ps ih =>
    intro s hnd
    rw [List.map_cons, List.nodup_cons] at hnd
    obtain ⟨token, ht⟩ := ih (s.promoteStep p) hnd.2
    by_cases hd : d = p.1
    · refine ⟨⟨s.nextToken⟩, ?_⟩
      subst hd
      rw [List.foldl_cons, ht, lookup_promoteStep, if_pos rfl]
      simp [hnd.1, Function.comp_def]
    · refine ⟨token, ?_⟩
      rw [List.foldl_cons, ht, lookup_promoteStep, if_neg hd]
      simp only [List.map_cons, List.mem_cons, hd, false_or]

theorem toPromote_sublist (l : List (Sigma fun _ : String => Step)) :
    ((l.filterMap fun e => if e.2.promotable then some (e.1, e.2.repoId) else none).map Prod.fst).Sublist
      l.keys := by
  induction l with
  | nil => simp
  | cons e l ih =>
    by_cases h : e.2.promotable = true
    · simpa [h, List.keys] using ih
    · simpa [h, List.keys] using ih.cons _

theorem toPromote_nodup (s : DagStrategy) : (s.toPromote.map Prod.fst).Nodup :=
  List.Nodup.sublist (toPromote_sublist _) s.byDrv.nodupKeys

theorem mem_toPromote_iff {p : String × RepoId} :
    p ∈ s.toPromote ↔
      ∃ st, s.byDrv.lookup p.1 = some st ∧ st.promotable = true ∧ st.repoId = p.2 := by
  unfold toPromote
  rw [List.mem_filterMap]
  constructor
  · rintro ⟨⟨d, st⟩, hmem, hp⟩
    split at hp
    · rename_i h
      obtain rfl := Option.some.inj hp
      exact ⟨st, HashMap.mem_entries_iff.mp hmem, h, rfl⟩
    · exact absurd hp (by simp)
  · rintro ⟨st, hl, hp, hr⟩
    exact ⟨⟨p.1, st⟩, HashMap.mem_entries_iff.mpr hl, by simp [hp, hr]⟩

/-- **Promotion touches the promotable Steps only**, and makes each of them ready. -/
theorem lookup_promoteReadySteps (s : DagStrategy) (d : String) :
    ∃ token, s.promoteReadySteps.byDrv.lookup d
      = (s.byDrv.lookup d).map fun st => if st.promotable then st.makeReady token else st := by
  obtain ⟨token, h⟩ := lookup_foldl_promoteStep d s.toPromote s s.toPromote_nodup
  refine ⟨token, h.trans ?_⟩
  cases hl : s.byDrv.lookup d with
  | none => rfl
  | some st =>
    have hiff : d ∈ s.toPromote.map Prod.fst ↔ st.promotable = true := by
      simp only [List.mem_map]
      constructor
      · rintro ⟨p, hp, rfl⟩
        obtain ⟨st', hl', hp', -⟩ := mem_toPromote_iff.mp hp
        rw [hl, Option.some.injEq] at hl'
        exact hl' ▸ hp'
      · intro hp
        exact ⟨(d, st.repoId), mem_toPromote_iff.mpr ⟨st, hl, hp, rfl⟩, rfl⟩
    simp [hiff]

/-- A component that `promoteStep` leaves alone is left alone by the whole promotion. -/
theorem promoteReadySteps_frame {α : Type} (f : DagStrategy → α)
    (hf : ∀ s p, f (promoteStep s p) = f s) (s : DagStrategy) : f s.promoteReadySteps = f s := by
  unfold promoteReadySteps
  generalize s.toPromote = ps
  induction ps generalizing s with
  | nil => rfl
  | cons p ps ih => rw [List.foldl_cons, ih, hf]

@[simp]
theorem promoteReadySteps_jobMeta (s : DagStrategy) : s.promoteReadySteps.jobMeta = s.jobMeta :=
  promoteReadySteps_frame (·.jobMeta) (fun _ _ => rfl) s

@[simp]
theorem promoteReadySteps_inFlight (s : DagStrategy) :
    s.promoteReadySteps.wfq.inFlight = s.wfq.inFlight :=
  promoteReadySteps_frame (·.wfq.inFlight) (fun _ _ => rfl) s

@[simp]
theorem promoteReadySteps_cap (s : DagStrategy) :
    s.promoteReadySteps.wfq.concurrencyCap = s.wfq.concurrencyCap :=
  promoteReadySteps_frame (·.wfq.concurrencyCap) (fun _ _ => rfl) s

/-! ## Completion counters -/

theorem lookup_decrementRdeps (d : String) :
    ∀ (rs : List String) (s : DagStrategy), (s.decrementRdeps rs).byDrv.lookup d
      = (s.byDrv.lookup d).map fun st => { st with depsUnfinished := st.depsUnfinished - rs.count d } := by
  intro rs
  induction rs with
  | nil => intro s; simp [decrementRdeps]
  | cons r rs ih =>
    intro s
    have hstep : s.decrementRdeps (r :: rs) = (s.modifyStep r (·.waitLess)).decrementRdeps rs := rfl
    rw [hstep, ih, lookup_modifyStep]
    by_cases hd : d = r
    · subst hd
      simp only [if_true, Option.map_map, Function.comp_def, Step.waitLess, List.count_cons_self,
        Nat.sub_sub, Nat.add_comm]
    · rw [if_neg hd, List.count_cons_of_ne (Ne.symm hd)]

/-- A component that `modifyStep` leaves alone is left alone by the decrements. -/
theorem decrementRdeps_frame {α : Type} (f : DagStrategy → α)
    (hf : ∀ s k g, f (modifyStep s k g) = f s) (rs : List String) (s : DagStrategy) :
    f (s.decrementRdeps rs) = f s := by
  unfold decrementRdeps
  induction rs generalizing s with
  | nil => rfl
  | cons r rs ih => rw [List.foldl_cons, ih, hf]

/-! ## Dispatch -/

/-- The WFQ cores the swallow loop goes through: stale tokens are popped and their slots freed. -/
inductive Swallowed (s : DagStrategy) : WfqCore DispatchToken → Prop
  | start : Swallowed s s.wfq
  | pop {c c' : WfqCore DispatchToken} {p : Popped DispatchToken} :
      Swallowed s c → c.dispatch = (some p, c') → s.tokenToDrv.lookup p.tag = none →
      Swallowed s (c'.complete p.tag).2

theorem Swallowed.cap {c : WfqCore DispatchToken} (hc : Swallowed s c) :
    c.concurrencyCap = s.wfq.concurrencyCap := by
  induction hc with
  | start => rfl
  | pop _ hd _ ih => exact (WfqCore.inFlight_pop hd).2.trans ih

/-- What `dispatch` hands out for a Step. -/
def dispatchedOf (p : Popped DispatchToken) (step : Step) : Dispatched :=
  { token := p.tag
    repoId := p.repoId
    evalId := step.evalId
    drvPath := step.drvPath
    system := step.system
    requiredFeatures := step.requiredFeatures
    headJob := step.headJobs.head? }

/-- What `dispatch` can do, given that a token is only mapped to Steps that exist. -/
inductive DispatchOutcome (s : DagStrategy) : Option Dispatched × DagStrategy → Prop
  | idle {c : WfqCore DispatchToken} : Swallowed s c → c.dispatch = (none, c) →
      DispatchOutcome s (none, { s with wfq := c })
  | run {c c' : WfqCore DispatchToken} {p : Popped DispatchToken} {d : String} {step : Step} :
      Swallowed s c → c.dispatch = (some p, c') → s.tokenToDrv.lookup p.tag = some d →
      s.byDrv.lookup d = some step →
      DispatchOutcome s (some (dispatchedOf p step),
        { s with wfq := c', byDrv := s.byDrv.modify d (·.makeRunning) })

theorem dispatchLoop_spec (s : DagStrategy)
    (hknown : ∀ t d, s.tokenToDrv.lookup t = some d → ∃ st, s.byDrv.lookup d = some st) :
    ∀ (fuel : ℕ) (c : WfqCore DispatchToken), Swallowed s c → c.pendingCount < fuel →
      DispatchOutcome s (dispatchLoop fuel { s with wfq := c }) := by
  intro fuel
  induction fuel with
  | zero => intro c _ h; omega
  | succ fuel ih =>
    intro c hc hfuel
    unfold dispatchLoop
    cases hd : c.dispatch with
    | mk o c' =>
      cases o with
      | none =>
        have hcc : c' = c := by
          rcases WfqCore.dispatch_cases c with ⟨h, -⟩ | ⟨_, _, _, _, _, -, -, -, -, h⟩
          · rw [h] at hd; simpa using hd.symm
          · rw [h] at hd; simp at hd
        subst hcc
        exact .idle hc hd
      | some p =>
        cases ht : s.tokenToDrv.lookup p.tag with
        | none =>
          simp only [ht]
          refine ih _ (.pop hc hd ht) ?_
          have := WfqCore.pendingCount_pop hd
          rw [WfqCore.pendingCount_complete]
          omega
        | some d =>
          obtain ⟨st, hst⟩ := hknown _ _ ht
          simp only [ht, hst]
          exact .run hc hd ht hst

/-- **Inversion of `dispatch`.** Its fuel suffices: every swallowed token shortens a queue. -/
theorem dispatch_spec (s : DagStrategy)
    (hknown : ∀ t d, s.tokenToDrv.lookup t = some d → ∃ st, s.byDrv.lookup d = some st) :
    DispatchOutcome s s.dispatch :=
  dispatchLoop_spec s hknown _ s.wfq .start (Nat.lt_succ_self _)

end DagStrategy

end Argunix.Sched
