import Argunix.Sched.Reachable

/-!
# Driving the strategy: dispatches in flight and the log of what Jobs were told

A caller keeps the `Dispatched` records it has not completed yet and acts on every answer. A
`Session` is a strategy together with that list and with the log of all answers, oldest first;
what is said of *verdicts* is said of the log.

`Run ok` is a run whose every call satisfies `ok`. `Drives` is what the daemon's dispatch loop
does: it dispatches, and it completes what it has in flight, each token once.

`Tracks` is the invariant that ties the list to the graph: in flight are exactly the running
Steps.
-/

set_option autoImplicit false

namespace Argunix.Sched

open Argunix.Lib

namespace DagStrategy

variable {s s' : DagStrategy}

/-! ## Which Steps run, under which token -/

def RunsAs (s : DagStrategy) (k : String) (t : DispatchToken) : Prop :=
  ∃ st, s.byDrv.lookup k = some st ∧ st.state = .running ∧ st.inFlightToken = some t

theorem Shuffle.runsAs (hs : Shuffle s s') (k : String) (t : DispatchToken) :
    s'.RunsAs k t ↔ s.RunsAs k t := by
  unfold RunsAs
  rw [hs.step]

theorem runsAs_promoteReadySteps (s : DagStrategy) (k : String) (t : DispatchToken) :
    s.promoteReadySteps.RunsAs k t ↔ s.RunsAs k t := by
  obtain ⟨fresh, hl⟩ := lookup_promoteReadySteps s k
  unfold RunsAs
  rw [hl]
  cases h : s.byDrv.lookup k with
  | none => simp
  | some st =>
    simp only [Option.map_some, Option.some.injEq, exists_eq_left']
    split
    · rename_i hp
      have := (Step.promotable_iff.mp hp).1
      simp [this]
    · rfl

theorem runsAs_insertItem (s : DagStrategy) (item : ScheduleItem) (k : String) (t : DispatchToken) :
    (s.insertItem item).RunsAs k t ↔ s.RunsAs k t := by
  have hspec := insertItem_spec s item
  constructor
  · rintro ⟨st', hl', hrun, htok⟩
    rcases hspec.new k st' hl' with ⟨st, hl⟩ | ⟨-, hp, -⟩
    · obtain ⟨st'', hl'', hst, htk⟩ := hspec.old k st hl
      rw [hl', Option.some.injEq] at hl''
      subst hl''
      exact ⟨st, hl, hst ▸ hrun, htk ▸ htok⟩
    · rw [hp] at hrun
      exact absurd hrun (by decide)
  · rintro ⟨st, hl, hrun, htok⟩
    obtain ⟨st', hl', hst, htk⟩ := hspec.old k st hl
    exact ⟨st', hl', hst.trans hrun, htk.trans htok⟩

theorem runsAs_skipAll {sk : List String}
    (h : ∀ d ∈ sk, ∃ st, s.byDrv.lookup d = some st ∧ st.state = .pending)
    (k : String) (t : DispatchToken) : (s.skipAll sk).RunsAs k t ↔ s.RunsAs k t := by
  unfold RunsAs
  rw [lookup_skipAll]
  split
  · rename_i hk
    obtain ⟨st, hl, hp⟩ := h k hk
    simp [hl, hp]
  · rfl

/-- Completing a token ends the run under it, and no other. -/
theorem Bookkeeping.runsAs_complete (h : Bookkeeping [] s) (token : DispatchToken)
    (status : JobStatus) (k : String) (t : DispatchToken) :
    (s.complete token status).2.RunsAs k t ↔ s.RunsAs k t ∧ t ≠ token := by
  have hspec := complete_spec s token status h.known_token
  have hclose : ∀ {d}, s.tokenToDrv.lookup token = some d →
      ((s.closeToken token d (.fromStatus status)).RunsAs k t ↔ s.RunsAs k t ∧ t ≠ token) := by
    intro d ht
    obtain ⟨std, hld, htokd, -⟩ := h.of_token ht
    unfold RunsAs
    rw [lookup_closeToken]
    by_cases hk : k = d
    · subst hk
      simp only [if_true, hld, Option.map_some, Option.some.injEq, exists_eq_left',
        Step.close_inFlightToken, reduceCtorEq, and_false, false_iff, not_and, not_not]
      rintro ⟨-, htok⟩
      rw [htokd] at htok
      exact (Option.some.inj htok).symm
    · rw [if_neg hk]
      constructor
      · rintro ⟨st, hl, hrun, htok⟩
        refine ⟨⟨st, hl, hrun, htok⟩, ?_⟩
        rintro rfl
        exact hk (h.injective hl htok hld htokd)
      · exact And.left
  cases hres : s.complete token status with
  | mk effects s' =>
    rw [hres] at hspec
    cases hspec with
    | unknown hn =>
      refine ⟨fun hr => ⟨hr, ?_⟩, And.left⟩
      obtain ⟨st, hl, -, htok⟩ := hr
      rintro rfl
      have := (h.token _ k).mpr ⟨st, hl, htok⟩
      rw [hn] at this
      exact absurd this (by simp)
    | @succeeded d step ht hl hs =>
      rw [runsAs_promoteReadySteps, ← hclose ht]
      unfold RunsAs
      rw [lookup_decrementRdeps]
      simp only [Option.map_eq_some_iff]
      constructor
      · rintro ⟨_, ⟨st, hl', rfl⟩, hrun, htok⟩
        exact ⟨st, hl', hrun, htok⟩
      · rintro ⟨st, hl', hrun, htok⟩
        exact ⟨_, ⟨st, hl', rfl⟩, hrun, htok⟩
    | failed ht hl hs hc =>
      rw [hc.state, runsAs_skipAll (h.pending_of_failed ht hl hs hc), hclose ht]

theorem Bookkeeping.runsAs_cancelJob (h : Bookkeeping [] s) (evalId : EvalId) (j : JobId)
    (k : String) (t : DispatchToken) :
    (DagStrategy.cancelJob evalId s j).2.RunsAs k t ↔ s.RunsAs k t := by
  have hspec := cancelJob_spec s evalId j
  cases hres : DagStrategy.cancelJob evalId s j with
  | mk skips s' =>
    rw [hres] at hspec
    cases hspec with
    | gone _ _ => rfl
    | orphaned _ _ => rfl
    | kept _ _ => rfl
    | @cancelled d step sk out s₁ hf hp hc =>
      obtain ⟨hld, -⟩ := findHead_eq_some hf
      have hforget : (s₁.forgetJob j).RunsAs k t ↔ s₁.RunsAs k t := Iff.rfl
      rw [hforget, hc.state, runsAs_skipAll (h.pending_of_cancelled hld hp hc)]
      unfold RunsAs
      rw [lookup_cancelHead]
      split
      · rename_i hk
        subst hk
        rcases hp with hp | hp <;> simp [hld, hp]
      · rfl

theorem Bookkeeping.runsAs_cancelEval (h : Bookkeeping [] s) (evalId : EvalId)
    (k : String) (t : DispatchToken) : (s.cancelEval evalId).2.RunsAs k t ↔ s.RunsAs k t := by
  refine (cancelEval_rec (P := fun _ s' => Bookkeeping [] s' ∧ (s'.RunsAs k t ↔ s.RunsAs k t))
    ⟨h, Iff.rfl⟩ ?_).2
  rintro _ s' j - ⟨hb, hiff⟩
  exact ⟨hb.cancelJob evalId j, (hb.runsAs_cancelJob evalId j k t).trans hiff⟩

/-- A dispatch starts the Step it hands out, and no other. -/
theorem Bookkeeping.runsAs_dispatch (h : Bookkeeping [] s) {o : Option Dispatched}
    (hd : s.dispatch = (o, s')) (k : String) (t : DispatchToken) :
    s'.RunsAs k t ↔ s.RunsAs k t ∨ ∃ d, o = some d ∧ d.drvPath = k ∧ d.token = t := by
  have hspec := dispatch_spec s h.known_token
  rw [hd] at hspec
  cases hspec with
  | idle _ _ => simp [RunsAs]
  | @run c c' p d step hc hpop ht hl =>
    have htok := (h.open_of_token ht hl).1
    have hpath := h.path d step hl
    have hready := (h.toTokens.swallowed hc).ready_of_pop hpop ht hl
    simp only [Option.some.injEq, exists_eq_left', dispatchedOf, hpath]
    unfold RunsAs
    by_cases hk : k = d
    · subst hk
      simp [HashMap.lookup_modify, hl, hready, htok]
    · simp [HashMap.lookup_modify, hk, Ne.symm hk]

end DagStrategy

/-! ## Sessions -/

open DagStrategy

/-- What a caller of the strategy sees. -/
inductive Event
  | dispatched (d : Dispatched)
  | completed (d : Dispatched) (status : JobStatus)
  | aliased (jobId : JobId) (status : JobStatus)
  | skipped (jobId : JobId)
  | cancelCalled (evalId : EvalId)
  | cancelled (jobId : JobId)
deriving DecidableEq, Repr

structure Session where
  strategy : DagStrategy
  inFlight : List Dispatched
  log : List Event

namespace Session

def start (s : DagStrategy) : Session := { strategy := s, inFlight := [], log := [] }

/-- Act on an answer. -/
def record (σ : Session) (s' : DagStrategy) : Op → Answer → Session
  | .dispatch, .dispatched (some d) =>
    { strategy := s', inFlight := σ.inFlight ++ [d], log := σ.log ++ [.dispatched d] }
  | .complete token status, .completed effects =>
    { strategy := s'
      inFlight := σ.inFlight.filter fun d => d.token ≠ token
      log := σ.log
        ++ (σ.inFlight.filter fun d => d.token = token).map (fun d => .completed d status)
        ++ effects.aliasCompletions.map (fun al => .aliased al.jobId status)
        ++ effects.cascadedSkips.map (fun skip => .skipped skip.jobId) }
  | .cancelEval evalId, .cancelled skips =>
    { strategy := s'
      inFlight := σ.inFlight
      log := σ.log ++ .cancelCalled evalId :: skips.map (fun skip => .cancelled skip.jobId) }
  | _, _ => { σ with strategy := s' }

@[simp]
theorem record_strategy (σ : Session) (s' : DagStrategy) (op : Op) (a : Answer) :
    (σ.record s' op a).strategy = s' := by
  unfold record
  split <;> rfl

/-- A run whose every call satisfies `ok` in the session before it. -/
inductive Run (ok : Session → Op → Prop) (σ₀ : Session) : Session → Prop
  | refl : Run ok σ₀ σ₀
  | step {σ : Session} {s₁ s' : DagStrategy} {op : Op} {a : Answer} :
      Run ok σ₀ σ → ok σ op → Shuffle σ.strategy s₁ → Does s₁ op a s' →
      Run ok σ₀ (σ.record s' op a)

/-- The dispatch loop: it dispatches, and it completes what is in flight. -/
def Drives (σ : Session) : Op → Prop
  | .dispatch => True
  | .complete token _ => ∃ d ∈ σ.inFlight, d.token = token
  | _ => False

/-- In flight, one token stands for one dispatch. -/
theorem filter_token {ds : List Dispatched} (hnd : (ds.map (·.token)).Nodup) {d : Dispatched}
    (hd : d ∈ ds) : ds.filter (fun d' => d'.token = d.token) = [d] := by
  induction ds with
  | nil => exact absurd hd (by simp)
  | cons a ds ih =>
    rw [List.map_cons, List.nodup_cons] at hnd
    rcases List.mem_cons.mp hd with rfl | hd
    · rw [List.filter_cons_of_pos (by simp), List.filter_eq_nil_iff.mpr]
      intro d' hd'
      simp only [decide_eq_true_eq]
      exact fun heq => hnd.1 (heq ▸ List.mem_map_of_mem hd')
    · rw [List.filter_cons_of_neg ?_, ih hnd.2 hd]
      simp only [decide_eq_true_eq]
      exact fun heq => hnd.1 (heq ▸ List.mem_map_of_mem hd)

/-- In flight are exactly the running Steps. -/
structure Tracks (σ : Session) : Prop where
  books : Bookkeeping [] σ.strategy
  settled : Settled σ.strategy
  runs : ∀ k t, σ.strategy.RunsAs k t ↔ ∃ d ∈ σ.inFlight, d.drvPath = k ∧ d.token = t
  nodup : (σ.inFlight.map (·.token)).Nodup

namespace Tracks

variable {σ : Session}

theorem start {cap : Option ℕ} {s : DagStrategy} (h : Reachable cap s)
    (hidle : ∀ k t, ¬ s.RunsAs k t) : Tracks (Session.start s) :=
  ⟨h.bookkeeping, h.settled, fun k t => ⟨fun hr => absurd hr (hidle k t), by simp [Session.start]⟩,
    by simp [Session.start]⟩

theorem reorder (h : Tracks σ) {s : DagStrategy} (hs : Shuffle σ.strategy s) :
    Tracks { σ with strategy := s } :=
  ⟨h.books.shuffle hs, h.settled.shuffle hs, fun k t => (hs.runsAs k t).trans (h.runs k t), h.nodup⟩

/-- Every call keeps the list and the graph together. -/
theorem step (h : Tracks σ) {s₁ s' : DagStrategy} {op : Op} {a : Answer}
    (hs : Shuffle σ.strategy s₁) (hd : Does s₁ op a s') : Tracks (σ.record s' op a) := by
  have hb := h.books.shuffle hs
  have hset := h.settled.shuffle hs
  have hruns : ∀ k t, s₁.RunsAs k t ↔ ∃ d ∈ σ.inFlight, d.drvPath = k ∧ d.token = t :=
    fun k t => (hs.runsAs k t).trans (h.runs k t)
  have hb' := hd.bookkeeping hb
  have hset' := hd.settled hb hset
  cases hd with
  | setWeight r w => exact ⟨hb', hset', hruns, h.nodup⟩
  | enqueue item hs' =>
    refine ⟨hb', hset', fun k t => ?_, h.nodup⟩
    exact (runsAs_promoteReadySteps _ k t).trans
      ((hs'.runsAs k t).trans ((runsAs_insertItem s₁ item k t).trans (hruns k t)))
  | cancelEval e =>
    exact ⟨hb', hset', fun k t => (hb.runsAs_cancelEval e k t).trans (hruns k t), h.nodup⟩
  | complete token status =>
    refine ⟨hb', hset', fun k t => ?_, ?_⟩
    · refine (hb.runsAs_complete token status k t).trans ?_
      rw [hruns]
      simp only [record, List.mem_filter, decide_eq_true_eq]
      constructor
      · rintro ⟨⟨d, hmem, hk, rfl⟩, hne⟩
        exact ⟨d, ⟨hmem, hne⟩, hk, rfl⟩
      · rintro ⟨d, ⟨hmem, hne⟩, hk, rfl⟩
        exact ⟨⟨d, hmem, hk, rfl⟩, hne⟩
    · exact h.nodup.sublist ((List.filter_sublist).map _)
  | dispatch =>
    cases hres : s₁.dispatch with
    | mk o s' =>
      rw [hres] at hb' hset'
      have hiff := hb.runsAs_dispatch hres
      cases o with
      | none =>
        refine ⟨hb', hset', fun k t => ?_, h.nodup⟩
        simpa [hruns, record] using hiff k t
      | some d =>
        refine ⟨hb', hset', fun k t => ?_, ?_⟩
        · refine (hiff k t).trans ?_
          simp only [hruns, record, Option.some.injEq, exists_eq_left', List.mem_append,
            List.mem_singleton]
          constructor
          · rintro (⟨d', hm, h'⟩ | h')
            · exact ⟨d', Or.inl hm, h'⟩
            · exact ⟨d, Or.inr rfl, h'⟩
          · rintro ⟨d', hm | rfl, h'⟩
            · exact Or.inl ⟨d', hm, h'⟩
            · exact Or.inr h'
        · -- the token was queued, so it is not one of those in flight
          simp only [record, List.map_append, List.map_cons, List.map_nil]
          rw [List.nodup_append]
          refine ⟨h.nodup, by simp, ?_⟩
          rintro t ht t' ht' rfl
          obtain ⟨d', hmem, htok'⟩ := List.mem_map.mp ht
          obtain ⟨st, hl, hready, htok⟩ := hb.ready_of_dispatch hres
          obtain ⟨st', hl', hrun, htok''⟩ := (hruns d'.drvPath d'.token).mpr ⟨d', hmem, rfl, rfl⟩
          have htt : d.token = d'.token := by
            rw [htok', List.mem_singleton.mp ht']
          have hdd := hb.injective hl htok hl' (htt ▸ htok'')
          rw [← hdd, hl, Option.some.injEq] at hl'
          subst hl'
          rw [hready] at hrun
          exact absurd hrun (by decide)

theorem run {ok : Session → Op → Prop} {σ₀ : Session} (h : Tracks σ₀) (hr : Run ok σ₀ σ) :
    Tracks σ := by
  induction hr with
  | refl => exact h
  | step _ _ hs hd ih => exact ih.step hs hd

end Tracks

/-! ## Concrete runs -/

/-- One call with the maps iterated in the order they are stored. -/
def apply (σ : Session) (op : Op) : Session :=
  σ.record (σ.strategy.apply op).2 op (σ.strategy.apply op).1

def runOps (σ : Session) (ops : List Op) : Session := ops.foldl apply σ

/-- Every call of the list satisfies `ok` in the session it is made in. -/
def OkOps (ok : Session → Op → Prop) (σ : Session) : List Op → Prop
  | [] => True
  | op :: ops => ok σ op ∧ OkOps ok (σ.apply op) ops

instance decidableOkOps (ok : Session → Op → Prop) [∀ σ op, Decidable (ok σ op)] :
    ∀ (σ : Session) (ops : List Op), Decidable (OkOps ok σ ops)
  | _, [] => isTrue trivial
  | σ, op :: ops =>
    have := decidableOkOps ok (σ.apply op) ops
    inferInstanceAs (Decidable (ok σ op ∧ OkOps ok (σ.apply op) ops))

instance (σ : Session) (op : Op) : Decidable (Drives σ op) :=
  match op with
  | .dispatch => isTrue trivial
  | .complete token _ => inferInstanceAs (Decidable (∃ d ∈ σ.inFlight, d.token = token))
  | .setWeight .. | .enqueue _ | .cancelEval _ => isFalse id

theorem Run.trans {ok : Session → Op → Prop} {σ₀ σ₁ σ₂ : Session} (h : Run ok σ₀ σ₁)
    (h' : Run ok σ₁ σ₂) : Run ok σ₀ σ₂ := by
  induction h' with
  | refl => exact h
  | step _ hok hs hd ih => exact .step ih hok hs hd

theorem Run.of_ops {ok : Session → Op → Prop} :
    ∀ {σ : Session} {ops : List Op}, OkOps ok σ ops → Run ok σ (σ.runOps ops)
  | _, [], _ => .refl
  | σ, op :: _, h =>
    Run.trans (.step .refl h.1 (.refl _) (does_apply σ.strategy op)) (Run.of_ops h.2)

end Session

end Argunix.Sched
