import Argunix.Sched.Wfq
import Mathlib.Tactic.Linarith
import Mathlib.Tactic.FieldSimp
import Mathlib.Algebra.Order.AbsoluteValue.Basic

/-!
# Weighted fairness of the WFQ core

How far apart can two repos' shares drift? The classical answer for virtual-time queueing is
one service quantum on each side:

    |n_i / w_i - n_j / w_j|  ≤  1 / w_i + 1 / w_j

over any stretch in which both stay backlogged. The invariant behind it is `Lead`: no clock
is more than one quantum ahead of the system virtual time. Everything else is bookkeeping:
between two dispatches neither backlogged clock moves, and a dispatch moves the winner's
clock by exactly the share it is charged.

Two things break the invariant, and both are behaviours of this code.

* **A restart from idle.** With no pending work anywhere there is no system virtual time, so
  the repo that enqueues first keeps its own clock. If another repo's clock is far ahead of
  it, that other repo later starves until the first has caught up (`starved_after_idle`).
* **A queue that runs empty between two dispatches.** The next enqueue pulls its clock
  forward and the unspent part of its quantum is lost. A heavy repo that is fed one job at a
  time is therefore served as if its weight were small (`drained_between_dispatches`).

`weighted_fair` is the bound with both excluded: the first by a condition on the history
(`NoLaggingRestart`), the second by asking for pending work before every *operation* of the
stretch rather than before every dispatch.
-/

set_option autoImplicit false
set_option linter.unusedSectionVars false

namespace Argunix.Sched

open Argunix.Lib

/-- The calls a strategy makes on its WFQ core. -/
inductive WfqOp (T : Type)
  | setWeight (repoId : RepoId) (weight : ℕ)
  | enqueue (repoId : RepoId) (tag : T)
  | dispatch
  | complete (tag : T)
  | cancelPending (predicate : T → Bool)

namespace WfqCore

variable {T : Type} [DecidableEq T]

/-- One call. Answers the repo that was served, if the call was a dispatch that popped. -/
def apply (c : WfqCore T) : WfqOp T → Option RepoId × WfqCore T
  | .setWeight r w => (none, c.setWeight r w)
  | .enqueue r t => (none, c.enqueue r t)
  | .dispatch => (c.dispatch.1.map (·.repoId), c.dispatch.2)
  | .complete t => (none, (c.complete t).2)
  | .cancelPending p => (none, (c.cancelPending p).2)

/-- A run whose every operation satisfies `ok` in the state before it, with the repos served
    on the way, oldest first. Each operation may see the maps in any iteration order. -/
inductive Run (ok : WfqCore T → WfqOp T → Prop) (c : WfqCore T) :
    List RepoId → WfqCore T → Prop
  | nil : Run ok c [] c
  | step {served : List RepoId} {c' c'' : WfqCore T} {op : WfqOp T} :
      Run ok c served c' → ok c' op → Shuffle c' c'' →
      Run ok c (served ++ (c''.apply op).1.toList) (c''.apply op).2

/-! ## The conditions a run may be held to -/

/-- The repo has pending work. -/
def Backlogged (r : RepoId) (c : WfqCore T) : Prop :=
  ∃ st, c.repos.lookup r = some st ∧ st.pending ≠ []

/-- The operation does not change the weight of a registered repo. -/
def KeepsWeight (r : RepoId) (c : WfqCore T) : WfqOp T → Prop
  | .setWeight r' w => r' = r → ∀ st, c.repos.lookup r = some st → max w 1 = st.weight
  | _ => True

/-- A repo's clock; a repo that is not registered starts at zero. -/
def clock (c : WfqCore T) (r : RepoId) : ℚ :=
  ((c.repos.lookup r).map (·.virtualTime)).getD 0

/-- If the operation enqueues while nothing is pending anywhere, the repo it enqueues for is
    at most one of `r`'s quanta behind `r`. -/
def NoLaggingRestart (r : RepoId) (c : WfqCore T) : WfqOp T → Prop
  | .enqueue r' _ => c.systemVirtualTime = none →
      ∀ st, c.repos.lookup r = some st → st.virtualTime ≤ c.clock r' + 1 / st.weight
  | _ => True

/-- Fairness between two repos, over every history whose operations satisfy `hist` and every
    later stretch whose operations satisfy `stretch`. -/
def FairBetween (T : Type) [DecidableEq T] (i j : RepoId)
    (hist stretch : WfqCore T → WfqOp T → Prop) : Prop :=
  ∀ (cap : Option ℕ) (c₀ c₁ : WfqCore T) (before served : List RepoId),
    Run hist (WfqCore.new cap) before c₀ → Run stretch c₀ served c₁ →
    ∀ sti stj, c₁.repos.lookup i = some sti → c₁.repos.lookup j = some stj →
      |(served.count i : ℚ) / sti.weight - served.count j / stj.weight|
        ≤ 1 / sti.weight + 1 / stj.weight

/-! ## Iteration order does not matter to any of these -/

theorem Shuffle.systemVirtualTime {c c' : WfqCore T} (h : Shuffle c c') :
    c'.systemVirtualTime = c.systemVirtualTime := by
  apply Option.ext
  intro m
  rw [systemVirtualTime_eq_some_iff, systemVirtualTime_eq_some_iff]
  simp only [h.lookup]

/-! ## The lead invariant -/

/-- The repo's clock is at most one quantum ahead of the system virtual time. -/
def Lead (r : RepoId) (c : WfqCore T) : Prop :=
  ∀ st m, c.repos.lookup r = some st → c.systemVirtualTime = some m →
    st.virtualTime ≤ m + 1 / st.weight

/-- No clock is negative: they start at zero and only move forward. -/
def ClocksNonneg (c : WfqCore T) : Prop :=
  ∀ r st, c.repos.lookup r = some st → 0 ≤ st.virtualTime

theorem quantum_pos (st : RepoState T) : 0 < (1 : ℚ) / st.weight := by
  have := st.weight_pos
  positivity

theorem lookup_cancelPending (c : WfqCore T) (p : T → Bool) (r : RepoId) :
    (c.cancelPending p).2.repos.lookup r
      = (c.repos.lookup r).map fun s =>
          { s with pending := s.pending.filter fun e => !p e.2 } :=
  HashMap.lookup_mapValues _ _ _

/-- Pushing onto a backlogged repo leaves its clock alone. -/
theorem push_virtualTime_of_pending {st : RepoState T} (h : st.pending ≠ []) (snap : Option ℚ)
    (q : ℕ) (t : T) : (st.push snap q t).virtualTime = st.virtualTime := by
  simp [RepoState.push, hasPending_iff.mpr h]

theorem push_virtualTime_of_empty {st : RepoState T} (h : st.pending = []) (m : ℚ)
    (q : ℕ) (t : T) : (st.push (some m) q t).virtualTime = max st.virtualTime m := by
  simp only [RepoState.push, RepoState.hasPending, h, List.isEmpty_nil, Bool.not_true,
    Bool.false_eq_true, if_false]
  split
  · rename_i hlt
    exact (max_eq_right (le_of_lt hlt)).symm
  · rename_i hge
    exact (max_eq_left (le_of_not_gt hge)).symm

theorem push_virtualTime_of_idle (st : RepoState T) (q : ℕ) (t : T) :
    (st.push none q t).virtualTime = st.virtualTime := by
  simp [RepoState.push]

theorem le_push_virtualTime (st : RepoState T) (snap : Option ℚ) (q : ℕ) (t : T) :
    st.virtualTime ≤ (st.push snap q t).virtualTime := by
  by_cases h : st.pending = []
  · cases snap with
    | none => rw [push_virtualTime_of_idle]
    | some m => rw [push_virtualTime_of_empty h]; exact le_max_left _ _
  · rw [push_virtualTime_of_pending h]

theorem ClocksNonneg.apply {c : WfqCore T} (h : ClocksNonneg c) (op : WfqOp T) :
    ClocksNonneg (c.apply op).2 := by
  intro r st hl
  have hbase : ∀ r w, 0 ≤ ((c.repos.lookup r).getD (RepoState.new w)).virtualTime := by
    intro r w
    cases hr : c.repos.lookup r with
    | none => simp [RepoState.new]
    | some st => simpa [hr] using h r st hr
  cases op with
  | setWeight r' w =>
    simp only [WfqCore.apply, lookup_setWeight] at hl
    split at hl
    · obtain rfl := Option.some.inj hl
      exact hbase r' w
    · exact h r st hl
  | enqueue r' t =>
    simp only [WfqCore.apply, lookup_enqueue] at hl
    split at hl
    · obtain rfl := Option.some.inj hl
      exact le_trans (hbase r' _) (le_push_virtualTime _ _ _ _)
    · exact h r st hl
  | dispatch =>
    rcases dispatch_cases c with ⟨hn, -⟩ | ⟨r', st', q, tag, rest, hl', -, -, -, hd⟩
    · simp only [WfqCore.apply, hn] at hl
      exact h r st hl
    · simp only [WfqCore.apply, hd, HashMap.lookup_modify] at hl
      split at hl
      · rw [hl', Option.map_some, Option.some.injEq] at hl
        subst hl
        exact add_nonneg (h r' st' hl') (le_of_lt (quantum_pos st'))
      · exact h r st hl
  | complete t => exact h r st hl
  | cancelPending p =>
    simp only [WfqCore.apply, lookup_cancelPending, Option.map_eq_some_iff] at hl
    obtain ⟨st', hl', rfl⟩ := hl
    exact h r st' hl'

/-- While something is pending, every repo that is backlogged after an operation has a clock
    no smaller than the system virtual time before it: this is what the snap-forward is for. -/
theorem le_virtualTime_of_backlogged_apply {c : WfqCore T} {m : ℚ}
    (hm : c.systemVirtualTime = some m) (op : WfqOp T) {r : RepoId} {st : RepoState T}
    (hl : (c.apply op).2.repos.lookup r = some st) (hp : st.pending ≠ []) :
    m ≤ st.virtualTime := by
  have hmin := (systemVirtualTime_eq_some_iff.mp hm).2
  cases op with
  | setWeight r' w =>
    simp only [WfqCore.apply, lookup_setWeight] at hl
    split at hl
    · obtain rfl := Option.some.inj hl
      cases hr : c.repos.lookup r' with
      | none => simp [hr, RepoState.setWeight, RepoState.new] at hp
      | some st' =>
        simp only [hr, Option.getD_some, RepoState.setWeight] at hp ⊢
        exact hmin r' st' hr hp
    · exact hmin r st hl hp
  | enqueue r' t =>
    simp only [WfqCore.apply, lookup_enqueue] at hl
    split at hl
    · obtain rfl := Option.some.inj hl
      rw [hm]
      by_cases he : ((c.repos.lookup r').getD (RepoState.new DEFAULT_WEIGHT)).pending = []
      · rw [push_virtualTime_of_empty he]
        exact le_max_right _ _
      · rw [push_virtualTime_of_pending he]
        cases hr : c.repos.lookup r' with
        | none => simp [hr, RepoState.new] at he
        | some st' =>
          simp only [hr, Option.getD_some] at he ⊢
          exact hmin r' st' hr he
    · exact hmin r st hl hp
  | dispatch =>
    rcases dispatch_cases c with ⟨hn, -⟩ | ⟨r', st', q, tag, rest, hl', hpend, -, -, hd⟩
    · simp only [WfqCore.apply, hn] at hl
      exact hmin r st hl hp
    · simp only [WfqCore.apply, hd, HashMap.lookup_modify] at hl
      split at hl
      · rw [hl', Option.map_some, Option.some.injEq] at hl
        subst hl
        have := hmin r' st' hl' (by simp [hpend])
        have := quantum_pos st'
        simp only [RepoState.pop]
        linarith
      · exact hmin r st hl hp
  | complete t => exact hmin r st hl hp
  | cancelPending p =>
    simp only [WfqCore.apply, lookup_cancelPending, Option.map_eq_some_iff] at hl
    obtain ⟨st', hl', rfl⟩ := hl
    refine hmin r st' hl' fun he => hp ?_
    simp [he]

/-- The system virtual time never goes back while something is pending. -/
theorem systemVirtualTime_mono {c : WfqCore T} {m m' : ℚ} (hm : c.systemVirtualTime = some m)
    (op : WfqOp T) (hm' : (c.apply op).2.systemVirtualTime = some m') : m ≤ m' := by
  obtain ⟨⟨r, st, hl, hp, rfl⟩, -⟩ := systemVirtualTime_eq_some_iff.mp hm'
  exact le_virtualTime_of_backlogged_apply hm op hl hp

/-- What one call does to a registered repo's clock: nothing, unless the call serves the repo
    or enqueues onto its empty queue. -/
theorem virtualTime_apply {c : WfqCore T} {r : RepoId} {st st' : RepoState T} (op : WfqOp T)
    (hl : c.repos.lookup r = some st) (hl' : (c.apply op).2.repos.lookup r = some st')
    (hs : (c.apply op).1 ≠ some r) (hq : st.pending ≠ [] ∨ ∀ t, op ≠ .enqueue r t) :
    st'.virtualTime = st.virtualTime := by
  cases op with
  | setWeight r' w =>
    simp only [WfqCore.apply, lookup_setWeight] at hl'
    split at hl'
    · rename_i hr
      subst hr
      rw [hl, Option.getD_some, Option.some.injEq] at hl'
      subst hl'
      rfl
    · rw [hl, Option.some.injEq] at hl'
      subst hl'
      rfl
  | enqueue r' t =>
    simp only [WfqCore.apply, lookup_enqueue] at hl'
    split at hl'
    · rename_i hr
      subst hr
      rw [hl, Option.getD_some, Option.some.injEq] at hl'
      subst hl'
      rcases hq with hp | hne
      · exact push_virtualTime_of_pending hp _ _ _
      · exact absurd rfl (hne t)
    · rw [hl, Option.some.injEq] at hl'
      subst hl'
      rfl
  | dispatch =>
    rcases dispatch_cases c with ⟨hn, -⟩ | ⟨r', st₀, q, tag, rest, hl₀, -, -, -, hd⟩
    · simp only [WfqCore.apply, hn] at hl'
      rw [hl, Option.some.injEq] at hl'
      subst hl'
      rfl
    · simp only [WfqCore.apply, hd, HashMap.lookup_modify] at hl' hs
      split at hl'
      · rename_i hr
        exact absurd (by simp [hr]) hs
      · rw [hl, Option.some.injEq] at hl'
        subst hl'
        rfl
  | complete t =>
    simp only [WfqCore.apply, WfqCore.complete] at hl'
    rw [hl, Option.some.injEq] at hl'
    subst hl'
    rfl
  | cancelPending p =>
    simp only [WfqCore.apply, lookup_cancelPending, hl, Option.map_some,
      Option.some.injEq] at hl'
    subst hl'
    rfl

/-- A served repo had the minimal clock, and is charged one quantum. -/
theorem virtualTime_served {c : WfqCore T} {r : RepoId} {op : WfqOp T}
    (hs : (c.apply op).1 = some r) :
    op = .dispatch ∧ ∃ st st', c.repos.lookup r = some st ∧ c.systemVirtualTime = some st.virtualTime ∧
      (c.apply op).2.repos.lookup r = some st' ∧ st'.weight = st.weight ∧
      st'.virtualTime = st.virtualTime + 1 / st.weight := by
  cases op with
  | dispatch =>
    refine ⟨rfl, ?_⟩
    rcases dispatch_cases c with ⟨hn, -⟩ | ⟨r', st, q, tag, rest, hl, hpend, hmin, -, hd⟩
    · simp [WfqCore.apply, hn] at hs
    · obtain rfl : r' = r := by simpa [WfqCore.apply, hd] using hs
      refine ⟨st, st.pop, hl, ?_, ?_, rfl, rfl⟩
      · exact systemVirtualTime_eq_some_iff.mpr
          ⟨⟨r', st, hl, by simp [hpend], rfl⟩, fun r'' st'' h₁ h₂ => hmin r'' st'' h₁ h₂⟩
      · simp [WfqCore.apply, hd, HashMap.lookup_modify, hl]
  | setWeight r' w => simp [WfqCore.apply] at hs
  | enqueue r' t => simp [WfqCore.apply] at hs
  | complete t => simp [WfqCore.apply] at hs
  | cancelPending p => simp [WfqCore.apply] at hs

/-- A registered repo stays registered, with its weight, under any operation that keeps it. -/
theorem weight_apply {c : WfqCore T} {r : RepoId} {st : RepoState T} {op : WfqOp T}
    (hl : c.repos.lookup r = some st) (hw : KeepsWeight r c op) :
    ∃ st', (c.apply op).2.repos.lookup r = some st' ∧ st'.weight = st.weight := by
  cases op with
  | setWeight r' w =>
    simp only [WfqCore.apply, lookup_setWeight]
    split
    · rename_i hr
      subst hr
      exact ⟨_, rfl, by simpa [hl, RepoState.setWeight] using hw rfl st hl⟩
    · exact ⟨st, hl, rfl⟩
  | enqueue r' t =>
    simp only [WfqCore.apply, lookup_enqueue]
    split
    · rename_i hr
      subst hr
      exact ⟨_, rfl, by simp [hl, RepoState.push]⟩
    · exact ⟨st, hl, rfl⟩
  | dispatch =>
    rcases dispatch_cases c with ⟨hn, -⟩ | ⟨r', st₀, q, tag, rest, hl₀, -, -, -, hd⟩
    · exact ⟨st, by simpa [WfqCore.apply, hn] using hl, rfl⟩
    · simp only [WfqCore.apply, hd, HashMap.lookup_modify]
      split
      · rename_i hr
        subst hr
        exact ⟨st.pop, by simp [hl], rfl⟩
      · exact ⟨st, hl, rfl⟩
  | complete t => exact ⟨st, hl, rfl⟩
  | cancelPending p =>
    simp only [WfqCore.apply, lookup_cancelPending, hl, Option.map_some, Option.some.injEq]
    exact ⟨_, rfl, rfl⟩

/-- From idle, only an enqueue makes work pending, and then the system virtual time is the
    clock of the repo it enqueued for. -/
theorem enqueue_of_idle {c : WfqCore T} {m : ℚ} {op : WfqOp T}
    (hidle : c.systemVirtualTime = none) (hm : (c.apply op).2.systemVirtualTime = some m) :
    ∃ r t, op = .enqueue r t ∧ m = c.clock r := by
  have hnone := systemVirtualTime_eq_none_iff.mp hidle
  obtain ⟨⟨r, st, hl, hp, rfl⟩, -⟩ := systemVirtualTime_eq_some_iff.mp hm
  cases op with
  | enqueue r' t =>
    simp only [WfqCore.apply, lookup_enqueue] at hl
    split at hl
    · obtain rfl := Option.some.inj hl
      refine ⟨r', t, rfl, ?_⟩
      rw [hidle, push_virtualTime_of_idle]
      unfold clock
      cases c.repos.lookup r' <;> simp [RepoState.new]
    · exact absurd (hnone r st hl) hp
  | setWeight r' w =>
    simp only [WfqCore.apply, lookup_setWeight] at hl
    split at hl
    · obtain rfl := Option.some.inj hl
      cases hr : c.repos.lookup r' with
      | none => simp [hr, RepoState.setWeight, RepoState.new] at hp
      | some st' => simp [hr, RepoState.setWeight, hnone r' st' hr] at hp
    · exact absurd (hnone r st hl) hp
  | dispatch =>
    rcases dispatch_cases c with ⟨hn, -⟩ | ⟨r', st', q, tag, rest, hl', hpend, -, -, -⟩
    · simp only [WfqCore.apply, hn] at hl
      exact absurd (hnone r st hl) hp
    · simp [hnone r' st' hl'] at hpend
  | complete t => exact absurd (hnone r st hl) hp
  | cancelPending p =>
    simp only [WfqCore.apply, lookup_cancelPending, Option.map_eq_some_iff] at hl
    obtain ⟨st', hl', rfl⟩ := hl
    exact absurd (by simp [hnone r st' hl']) hp

/-- An operation that registers a repo leaves its clock at zero or at the system virtual time. -/
theorem virtualTime_registered {c : WfqCore T} {r : RepoId} {st : RepoState T} {op : WfqOp T}
    (hl : c.repos.lookup r = none) (hl' : (c.apply op).2.repos.lookup r = some st) :
    st.virtualTime = 0 ∨ ∃ m, c.systemVirtualTime = some m ∧ st.virtualTime ≤ max 0 m := by
  cases op with
  | setWeight r' w =>
    simp only [WfqCore.apply, lookup_setWeight] at hl'
    split at hl'
    · rename_i hr
      subst hr
      rw [hl, Option.getD_none, Option.some.injEq] at hl'
      subst hl'
      exact Or.inl rfl
    · exact absurd hl' (by simp [hl])
  | enqueue r' t =>
    simp only [WfqCore.apply, lookup_enqueue] at hl'
    split at hl'
    · rename_i hr
      subst hr
      rw [hl, Option.getD_none, Option.some.injEq] at hl'
      subst hl'
      cases hm : c.systemVirtualTime with
      | none => exact Or.inl (push_virtualTime_of_idle _ _ _)
      | some m =>
        refine Or.inr ⟨m, rfl, ?_⟩
        rw [push_virtualTime_of_empty (by simp [RepoState.new])]
        simp [RepoState.new]
    · exact absurd hl' (by simp [hl])
  | dispatch =>
    rcases dispatch_cases c with ⟨hn, -⟩ | ⟨r', st', q, tag, rest, hl₀, -, -, -, hd⟩
    · exact absurd hl' (by simp [WfqCore.apply, hn, hl])
    · simp only [WfqCore.apply, hd, HashMap.lookup_modify] at hl'
      split at hl'
      · rename_i hr
        subst hr
        exact absurd hl₀ (by simp [hl])
      · exact absurd hl' (by simp [hl])
  | complete t => exact absurd hl' (by simp [WfqCore.apply, WfqCore.complete, hl])
  | cancelPending p => exact absurd hl' (by simp [WfqCore.apply, lookup_cancelPending, hl])

/-- **The step lemma**: every operation keeps the lead of a repo whose weight it keeps, as
    long as it is not a lagging restart from idle. -/
theorem Lead.apply {c : WfqCore T} {r : RepoId} {op : WfqOp T} (h : Lead r c)
    (hn : ClocksNonneg c) (hw : KeepsWeight r c op) (hr : NoLaggingRestart r c op) :
    Lead r (c.apply op).2 := by
  intro st' m' hl' hm'
  have hq' := quantum_pos st'
  have hm'0 : 0 ≤ m' := by
    obtain ⟨⟨r₀, st₀, hl₀, -, rfl⟩, -⟩ := systemVirtualTime_eq_some_iff.mp hm'
    exact hn.apply op r₀ st₀ hl₀
  cases hl : c.repos.lookup r with
  | none =>
    rcases virtualTime_registered hl hl' with h0 | ⟨m, hm, hle⟩
    · linarith
    · have hmm := systemVirtualTime_mono hm op hm'
      have : max 0 m ≤ m' := max_le hm'0 hmm
      linarith
  | some st =>
    obtain ⟨st'', hl'', hwt⟩ := weight_apply hl hw
    obtain rfl : st'' = st' := by rw [hl'] at hl''; exact (Option.some.inj hl'').symm
    rw [hwt] at hq' ⊢
    by_cases hs : (c.apply op).1 = some r
    · -- the repo was served: it had the minimal clock
      obtain ⟨-, st₁, st₂, h₁, hm, h₂, -, hv⟩ := virtualTime_served hs
      obtain rfl : st₁ = st := by rw [hl] at h₁; exact (Option.some.inj h₁).symm
      obtain rfl : st₂ = st'' := by rw [hl'] at h₂; exact (Option.some.inj h₂).symm
      have hmm := systemVirtualTime_mono hm op hm'
      linarith
    cases hm : c.systemVirtualTime with
    | none =>
      -- a restart from idle, by some repo `r₀`
      obtain ⟨r₀, t, rfl, rfl⟩ := enqueue_of_idle hm hm'
      have hle := hr hm st hl
      by_cases hrr : r₀ = r
      · subst hrr
        have hv : st''.virtualTime = c.clock r₀ := by
          simp only [WfqCore.apply, lookup_enqueue, if_true, hl, Option.getD_some,
            Option.some.injEq] at hl'
          subst hl'
          rw [hm, push_virtualTime_of_idle]
          simp [clock, hl]
        linarith
      · have hv := virtualTime_apply _ hl hl' hs
          (Or.inr fun t' he => hrr (by simpa using congrArg (fun | .enqueue x _ => x | _ => r₀) he))
        linarith
    | some m =>
      have hmm := systemVirtualTime_mono hm op hm'
      have hlead := h st m hl hm
      by_cases hq : st.pending ≠ [] ∨ ∀ t, op ≠ .enqueue r t
      · have hv := virtualTime_apply op hl hl' hs hq
        linarith
      · -- an enqueue onto the empty queue: snapped to the system virtual time
        push Not at hq
        obtain ⟨hp, t, rfl⟩ := hq
        simp only [WfqCore.apply, lookup_enqueue, if_true, hl, Option.getD_some,
          Option.some.injEq] at hl'
        subst hl'
        rw [hm, push_virtualTime_of_empty hp]
        refine max_le ?_ ?_ <;> linarith

/-! ## Along a run -/

theorem Lead.shuffle {c c' : WfqCore T} {r : RepoId} (h : Lead r c) (hs : Shuffle c c') :
    Lead r c' := by
  intro st m hl hm
  rw [hs.lookup] at hl
  rw [hs.systemVirtualTime] at hm
  exact h st m hl hm

theorem ClocksNonneg.shuffle {c c' : WfqCore T} (h : ClocksNonneg c) (hs : Shuffle c c') :
    ClocksNonneg c' := by
  intro r st hl
  rw [hs.lookup] at hl
  exact h r st hl

theorem KeepsWeight.shuffle {c c' : WfqCore T} {r : RepoId} {op : WfqOp T}
    (h : KeepsWeight r c op) (hs : Shuffle c c') : KeepsWeight r c' op := by
  cases op with
  | setWeight r' w =>
    intro hr st hl
    rw [hs.lookup] at hl
    exact h hr st hl
  | enqueue | dispatch | complete | cancelPending => trivial

theorem NoLaggingRestart.shuffle {c c' : WfqCore T} {r : RepoId} {op : WfqOp T}
    (h : NoLaggingRestart r c op) (hs : Shuffle c c') : NoLaggingRestart r c' op := by
  cases op with
  | enqueue r' t =>
    intro hidle st hl
    rw [hs.lookup] at hl
    rw [hs.systemVirtualTime] at hidle
    have := h hidle st hl
    simpa [clock, hs.lookup] using this
  | setWeight | dispatch | complete | cancelPending => trivial

/-- The run lemma for the lead. -/
theorem Run.lead {ok : WfqCore T → WfqOp T → Prop} {c c' : WfqCore T} {r : RepoId}
    {served : List RepoId} (hok : ∀ c op, ok c op → KeepsWeight r c op ∧ NoLaggingRestart r c op)
    (hrun : Run ok c served c') (h : Lead r c) (hn : ClocksNonneg c) :
    Lead r c' ∧ ClocksNonneg c' := by
  induction hrun with
  | nil => exact ⟨h, hn⟩
  | step _ hop hs ih =>
    obtain ⟨hw, hr⟩ := hok _ _ hop
    exact ⟨(ih.1.shuffle hs).apply (ih.2.shuffle hs) (hw.shuffle hs) (hr.shuffle hs),
      (ih.2.shuffle hs).apply _⟩

theorem lead_new (cap : Option ℕ) (r : RepoId) :
    Lead r (WfqCore.new (T := T) cap) ∧ ClocksNonneg (WfqCore.new (T := T) cap) :=
  ⟨fun _ _ hl => absurd hl (by simp [WfqCore.new]), fun _ _ hl => absurd hl (by simp [WfqCore.new])⟩

theorem Backlogged.shuffle {c c' : WfqCore T} {r : RepoId} (h : Backlogged r c)
    (hs : Shuffle c c') : Backlogged r c' := by
  obtain ⟨st, hl, hp⟩ := h
  exact ⟨st, by rw [hs.lookup]; exact hl, hp⟩

theorem Backlogged.not_idle {c : WfqCore T} {r : RepoId} (h : Backlogged r c) :
    ∃ m, c.systemVirtualTime = some m := by
  obtain ⟨st, hl, hp⟩ := h
  cases hm : c.systemVirtualTime with
  | none => exact absurd (systemVirtualTime_eq_none_iff.mp hm r st hl) hp
  | some m => exact ⟨m, rfl⟩

/-- `j` has received at most one quantum of each repo more than `i`, and the difference of
    their clocks already accounts for all but one quantum of it. The second part is what the
    induction over the stretch carries. -/
structure ShareOk (i j : RepoId) (served : List RepoId) (c : WfqCore T) : Prop where
  bound : ∀ sti stj, c.repos.lookup i = some sti → c.repos.lookup j = some stj →
    (served.count j : ℚ) / stj.weight - served.count i / sti.weight
      ≤ 1 / sti.weight + 1 / stj.weight
  charged : (served.count i = 0 ∧ served.count j = 0) ∨
    ∀ sti stj, c.repos.lookup i = some sti → c.repos.lookup j = some stj →
      (served.count j : ℚ) / stj.weight - served.count i / sti.weight - 1 / sti.weight
        ≤ stj.virtualTime - sti.virtualTime

/-- One operation of the stretch, both repos backlogged before it. The three cases are: it
    serves `i`, it serves `j`, or it moves neither clock. -/
theorem ShareOk.apply {i j : RepoId} {served : List RepoId} {c : WfqCore T} {op : WfqOp T}
    (hij : i ≠ j) (h : ShareOk i j served c) (hi : Lead i c)
    (hbi : Backlogged i c) (hbj : Backlogged j c)
    (hwi : KeepsWeight i c op) (hwj : KeepsWeight j c op) :
    ShareOk i j (served ++ (c.apply op).1.toList) (c.apply op).2 := by
  obtain ⟨sti, hli, hpi⟩ := hbi
  obtain ⟨stj, hlj, hpj⟩ := hbj
  obtain ⟨m, hm⟩ := Backlogged.not_idle ⟨sti, hli, hpi⟩
  have hmin := (systemVirtualTime_eq_some_iff.mp hm).2
  obtain ⟨sti', hli', hwti⟩ := weight_apply hli hwi
  obtain ⟨stj', hlj', hwtj⟩ := weight_apply hlj hwj
  have hqi := quantum_pos sti
  have hqj := quantum_pos stj
  have hbound := h.bound sti stj hli hlj
  have hcharged : (served.count j : ℚ) / stj.weight - served.count i / sti.weight
      - 1 / sti.weight ≤ stj.virtualTime - sti.virtualTime := by
    rcases h.charged with ⟨h₁, h₂⟩ | hc
    · have := hi sti m hli hm
      have := hmin j stj hlj hpj
      simp only [h₁, h₂, Nat.cast_zero, zero_div, sub_self]
      linarith
    · exact hc sti stj hli hlj
  suffices hsuff :
      ((served ++ (c.apply op).1.toList).count j : ℚ) / stj.weight
          - (served ++ (c.apply op).1.toList).count i / sti.weight
        ≤ 1 / sti.weight + 1 / stj.weight ∧
      ((served ++ (c.apply op).1.toList).count j : ℚ) / stj.weight
          - (served ++ (c.apply op).1.toList).count i / sti.weight - 1 / sti.weight
        ≤ stj'.virtualTime - sti'.virtualTime by
    refine ⟨fun a b ha hb => ?_, Or.inr fun a b ha hb => ?_⟩
    all_goals
      obtain rfl : sti' = a := by rw [hli'] at ha; exact Option.some.inj ha
      obtain rfl : stj' = b := by rw [hlj'] at hb; exact Option.some.inj hb
      rw [hwti, hwtj]
    · exact hsuff.1
    · exact hsuff.2
  by_cases hsi : (c.apply op).1 = some i
  · have hvj := virtualTime_apply op hlj hlj' (by rw [hsi]; simpa using hij) (Or.inl hpj)
    obtain ⟨-, st₁, st₂, h₁, -, h₂, -, hv⟩ := virtualTime_served hsi
    obtain rfl : st₁ = sti := by rw [hli] at h₁; exact (Option.some.inj h₁).symm
    obtain rfl : st₂ = sti' := by rw [hli'] at h₂; exact (Option.some.inj h₂).symm
    rw [hsi]
    simp only [Option.toList_some, List.count_append, List.count_singleton, beq_iff_eq,
      if_neg hij, if_true, add_zero, Nat.cast_add, Nat.cast_one, add_div]
    constructor <;> linarith
  by_cases hsj : (c.apply op).1 = some j
  · have hvi := virtualTime_apply op hli hli' (by rw [hsj]; simpa using hij.symm) (Or.inl hpi)
    obtain ⟨-, st₁, st₂, h₁, hmj, h₂, -, hv⟩ := virtualTime_served hsj
    obtain rfl : st₁ = stj := by rw [hlj] at h₁; exact (Option.some.inj h₁).symm
    obtain rfl : st₂ = stj' := by rw [hlj'] at h₂; exact (Option.some.inj h₂).symm
    -- `j` was the minimum, so it was not ahead of `i`
    have hle : st₁.virtualTime ≤ sti.virtualTime := by
      obtain rfl : m = st₁.virtualTime := by rw [hm] at hmj; exact Option.some.inj hmj
      exact hmin i sti hli hpi
    rw [hsj]
    simp only [Option.toList_some, List.count_append, List.count_singleton, beq_iff_eq,
      if_neg hij.symm, if_true, add_zero, Nat.cast_add, Nat.cast_one, add_div]
    constructor <;> linarith
  · have hvi := virtualTime_apply op hli hli' hsi (Or.inl hpi)
    have hvj := virtualTime_apply op hlj hlj' hsj (Or.inl hpj)
    have hc : ∀ r, (c.apply op).1 ≠ some r →
        (served ++ (c.apply op).1.toList).count r = served.count r := by
      intro r hr
      cases ho : (c.apply op).1 with
      | none => simp
      | some x =>
        have : ¬ x = r := fun hx => hr (by rw [ho, hx])
        simp [this]
    rw [hc i hsi, hc j hsj, hvi, hvj]
    exact ⟨hbound, hcharged⟩

theorem ShareOk.shuffle {i j : RepoId} {served : List RepoId} {c c' : WfqCore T}
    (h : ShareOk i j served c) (hs : Shuffle c c') : ShareOk i j served c' := by
  refine ⟨fun a b ha hb => ?_, h.charged.imp id fun hc a b ha hb => ?_⟩
  all_goals rw [hs.lookup] at ha hb
  · exact h.bound a b ha hb
  · exact hc a b ha hb

/-- What the stretch asks of each operation: constant weights, and pending work on both sides
    before it. -/
def BothBacklogged (i j : RepoId) (c : WfqCore T) (op : WfqOp T) : Prop :=
  KeepsWeight i c op ∧ KeepsWeight j c op ∧ Backlogged i c ∧ Backlogged j c

/-- What the history asks of each operation: constant weights, and no restart from idle that
    leaves `i` or `j` more than one quantum ahead. -/
def NoIdleLag (i j : RepoId) (c : WfqCore T) (op : WfqOp T) : Prop :=
  (KeepsWeight i c op ∧ NoLaggingRestart i c op) ∧ KeepsWeight j c op ∧ NoLaggingRestart j c op

/-- The run lemma for the shares, one side. -/
theorem Run.share {i j : RepoId} {c c' : WfqCore T} {served : List RepoId} (hij : i ≠ j)
    (hrun : Run (BothBacklogged i j) c served c') (hi : Lead i c) (hn : ClocksNonneg c) :
    ShareOk i j served c' ∧ Lead i c' ∧ ClocksNonneg c' := by
  induction hrun with
  | nil =>
    refine ⟨⟨fun sti stj _ _ => ?_, Or.inl ⟨rfl, rfl⟩⟩, hi, hn⟩
    have := quantum_pos sti
    have := quantum_pos stj
    simp only [List.count_nil, Nat.cast_zero, zero_div, sub_self]
    linarith
  | @step served c' c'' op _ hop hs ih =>
    obtain ⟨hshare, hlead, hnn⟩ := ih
    obtain ⟨hwi, hwj, hbi, hbj⟩ := hop
    have hnr : NoLaggingRestart i c' op := by
      obtain ⟨m, hm⟩ := hbi.not_idle
      cases op with
      | enqueue => intro hidle; rw [hm] at hidle; exact absurd hidle (by simp)
      | setWeight | dispatch | complete | cancelPending => trivial
    exact ⟨(hshare.shuffle hs).apply hij (hlead.shuffle hs) (hbi.shuffle hs) (hbj.shuffle hs)
        (hwi.shuffle hs) (hwj.shuffle hs),
      (hlead.shuffle hs).apply (hnn.shuffle hs) (hwi.shuffle hs) (hnr.shuffle hs),
      (hnn.shuffle hs).apply op⟩

theorem Run.mono {ok ok' : WfqCore T → WfqOp T → Prop} {c c' : WfqCore T} {served : List RepoId}
    (himp : ∀ c op, ok c op → ok' c op) (h : Run ok c served c') : Run ok' c served c' := by
  induction h with
  | nil => exact .nil
  | step _ hop hs ih => exact .step ih (himp _ _ hop) hs

/-- **Weighted fairness.** After any history without a lagging restart from idle, over any
    stretch with pending work on both sides before every operation, the normalised shares of
    two repos differ by at most one quantum of each, whatever the other repos do. -/
theorem weighted_fair (T : Type) [DecidableEq T] (i j : RepoId) :
    FairBetween T i j (NoIdleLag i j) (BothBacklogged i j) := by
  intro cap c₀ c₁ before served hhist hstretch sti stj hli hlj
  have hqi := quantum_pos sti
  have hqj := quantum_pos stj
  by_cases hij : i = j
  · subst hij
    obtain rfl : sti = stj := by rw [hli] at hlj; exact Option.some.inj hlj
    rw [sub_self, abs_zero]
    linarith
  have hleadi := Run.lead (fun c op h => h.1) hhist (lead_new cap i).1 (lead_new cap i).2
  have hleadj := Run.lead (fun c op h => h.2) hhist (lead_new cap j).1 (lead_new cap j).2
  have hstretch' : Run (BothBacklogged j i) c₀ served c₁ :=
    hstretch.mono fun _ _ h => ⟨h.2.1, h.1, h.2.2.2, h.2.2.1⟩
  have hj := (Run.share hij hstretch hleadi.1 hleadi.2).1.bound sti stj hli hlj
  have hi := (Run.share (Ne.symm hij) hstretch' hleadj.1 hleadj.2).1.bound stj sti hlj hli
  rw [abs_le]
  constructor <;> linarith

/-! ## Concrete runs

The conditions are decidable, so a run given as a list of operations can be checked by
evaluation. `runOps` takes every map in the order it is stored, which is one of the orders
`Run` allows. -/

instance (r : RepoId) (c : WfqCore T) : Decidable (Backlogged r c) :=
  match h : c.repos.lookup r with
  | none => isFalse fun ⟨_, hl, _⟩ => absurd hl (by simp [h])
  | some st =>
    if hp : st.pending = [] then
      isFalse fun ⟨st', hl, hp'⟩ => hp' (Option.some.inj (h.symm.trans hl) ▸ hp)
    else isTrue ⟨st, h, hp⟩

/-- A statement about the entry of one repo, decided by looking the repo up. -/
def decidableForallLookup (c : WfqCore T) (r : RepoId) (P : RepoState T → Prop) [DecidablePred P] :
    Decidable (∀ st, c.repos.lookup r = some st → P st) :=
  match h : c.repos.lookup r with
  | none => isTrue fun _ hl => absurd hl (by simp)
  | some st =>
    if hp : P st then isTrue fun _ hl => Option.some.inj hl ▸ hp
    else isFalse fun hall => hp (hall st rfl)

instance (r : RepoId) (c : WfqCore T) (op : WfqOp T) : Decidable (KeepsWeight r c op) :=
  match op with
  | .setWeight r' w =>
    have := decidableForallLookup c r fun st => max w 1 = st.weight
    inferInstanceAs (Decidable (r' = r → ∀ st, c.repos.lookup r = some st → max w 1 = st.weight))
  | .enqueue .. | .dispatch | .complete _ | .cancelPending _ => isTrue trivial

instance (r : RepoId) (c : WfqCore T) (op : WfqOp T) : Decidable (NoLaggingRestart r c op) :=
  match op with
  | .enqueue r' _ =>
    have := decidableForallLookup c r fun st => st.virtualTime ≤ c.clock r' + 1 / st.weight
    inferInstanceAs (Decidable (c.systemVirtualTime = none →
      ∀ st, c.repos.lookup r = some st → st.virtualTime ≤ c.clock r' + 1 / st.weight))
  | .setWeight .. | .dispatch | .complete _ | .cancelPending _ => isTrue trivial

instance (i j : RepoId) (c : WfqCore T) (op : WfqOp T) : Decidable (BothBacklogged i j c op) :=
  inferInstanceAs (Decidable (_ ∧ _))

instance (i j : RepoId) (c : WfqCore T) (op : WfqOp T) : Decidable (NoIdleLag i j c op) :=
  inferInstanceAs (Decidable ((_ ∧ _) ∧ _))

/-- Run a list of calls, collecting the repos served. -/
def runOps (c : WfqCore T) : List (WfqOp T) → List RepoId × WfqCore T
  | [] => ([], c)
  | op :: ops =>
    ((c.apply op).1.toList ++ (runOps (c.apply op).2 ops).1, (runOps (c.apply op).2 ops).2)

/-- Every call of the list satisfies `ok` in the state it is made in. -/
def OkOps (ok : WfqCore T → WfqOp T → Prop) (c : WfqCore T) : List (WfqOp T) → Prop
  | [] => True
  | op :: ops => ok c op ∧ OkOps ok (c.apply op).2 ops

instance decidableOkOps (ok : WfqCore T → WfqOp T → Prop) [∀ c op, Decidable (ok c op)] :
    ∀ (c : WfqCore T) (ops : List (WfqOp T)), Decidable (OkOps ok c ops)
  | _, [] => isTrue trivial
  | c, op :: ops =>
    have := decidableOkOps ok (c.apply op).2 ops
    inferInstanceAs (Decidable (ok c op ∧ OkOps ok (c.apply op).2 ops))

theorem Run.trans {ok : WfqCore T → WfqOp T → Prop} {c c' c'' : WfqCore T}
    {served served' : List RepoId} (h : Run ok c served c') (h' : Run ok c' served' c'') :
    Run ok c (served ++ served') c'' := by
  induction h' with
  | nil => simpa using h
  | step _ hop hs ih =>
    rw [← List.append_assoc]
    exact .step ih hop hs

theorem Run.of_ops {ok : WfqCore T → WfqOp T → Prop} :
    ∀ {c : WfqCore T} {ops : List (WfqOp T)}, OkOps ok c ops →
      Run ok c (c.runOps ops).1 (c.runOps ops).2
  | _, [], _ => .nil
  | _, _ :: _, h => Run.trans (.step .nil h.1 (.refl _)) (Run.of_ops h.2)

/-- A concrete history and stretch refute fairness when the shares they produce differ by more
    than the bound. -/
theorem not_fairBetween_of_ops {i j : RepoId} {hist stretch : WfqCore T → WfqOp T → Prop}
    (before during : List (WfqOp T)) (sti stj : RepoState T)
    (hhist : OkOps hist (WfqCore.new none) before)
    (hstretch : OkOps stretch ((WfqCore.new none).runOps before).2 during)
    (hi : (((WfqCore.new none).runOps before).2.runOps during).2.repos.lookup i = some sti)
    (hj : (((WfqCore.new none).runOps before).2.runOps during).2.repos.lookup j = some stj)
    (hbound : 1 / (sti.weight : ℚ) + 1 / stj.weight
      < |((((WfqCore.new none).runOps before).2.runOps during).1.count i : ℚ) / sti.weight
          - (((WfqCore.new none).runOps before).2.runOps during).1.count j / stj.weight|) :
    ¬ FairBetween T i j hist stretch := fun h =>
  absurd (h none _ _ _ _ (.of_ops hhist) (.of_ops hstretch) sti stj hi hj) (not_le.mpr hbound)

/-- A fresh core in which repo 1, of weight two, and repo 2 are both given work. -/
def twoRepos : WfqCore ℕ :=
  ((WfqCore.new none).runOps
    [.setWeight ⟨1⟩ 2, .enqueue ⟨1⟩ 1, .enqueue ⟨1⟩ 2, .enqueue ⟨1⟩ 3, .enqueue ⟨2⟩ 4,
      .enqueue ⟨2⟩ 5]).2

theorem weighted_fair_two_to_one :
    (twoRepos.runOps [.dispatch, .dispatch, .dispatch]).1 = [⟨1⟩, ⟨2⟩, ⟨1⟩] ∧
      |((([⟨1⟩, ⟨2⟩, ⟨1⟩] : List RepoId).count ⟨1⟩ : ℕ) : ℚ) / (2 : ℕ)
          - (([⟨1⟩, ⟨2⟩, ⟨1⟩] : List RepoId).count ⟨2⟩ : ℕ) / (1 : ℕ)|
        ≤ 1 / (2 : ℕ) + 1 / (1 : ℕ) := by
  have hstretch : OkOps (BothBacklogged ⟨1⟩ ⟨2⟩) twoRepos [.dispatch, .dispatch, .dispatch] := by
    decide +kernel
  have hserved : (twoRepos.runOps [.dispatch, .dispatch, .dispatch]).1 = [⟨1⟩, ⟨2⟩, ⟨1⟩] := by
    decide +kernel
  refine ⟨hserved, ?_⟩
  have hrun := Run.of_ops hstretch
  rw [hserved] at hrun
  exact weighted_fair ℕ ⟨1⟩ ⟨2⟩ none twoRepos _ _ _ (.of_ops (by decide +kernel)) hrun
    ⟨2, 1, [(2, 3)], by decide⟩ ⟨1, 1, [(4, 5)], by decide⟩ (by decide +kernel) (by decide +kernel)

/-- What the history and the stretch ask for when only the dispatches are looked at. -/
def ConstWeights (i j : RepoId) (c : WfqCore T) (op : WfqOp T) : Prop :=
  KeepsWeight i c op ∧ KeepsWeight j c op

def BackloggedAtDispatch (i j : RepoId) (c : WfqCore T) (op : WfqOp T) : Prop :=
  ConstWeights i j c op ∧
    match op with
    | .dispatch => Backlogged i c ∧ Backlogged j c
    | _ => True

instance (i j : RepoId) (c : WfqCore T) (op : WfqOp T) : Decidable (ConstWeights i j c op) :=
  inferInstanceAs (Decidable (_ ∧ _))

instance (i j : RepoId) (c : WfqCore T) (op : WfqOp T) :
    Decidable (BackloggedAtDispatch i j c op) :=
  match op with
  | .dispatch => inferInstanceAs (Decidable (_ ∧ (_ ∧ _)))
  | .setWeight .. | .enqueue .. | .complete _ | .cancelPending _ =>
    inferInstanceAs (Decidable (_ ∧ True))

/-- Repo 1 is served twice and drains; the scheduler is idle; repo 2 comes back first, with its
    clock still at zero. Repo 1 now waits three dispatches although both are backlogged
    throughout. -/
theorem starved_after_idle :
    ¬ FairBetween ℕ ⟨1⟩ ⟨2⟩ (ConstWeights ⟨1⟩ ⟨2⟩) (BothBacklogged ⟨1⟩ ⟨2⟩) := by
  refine not_fairBetween_of_ops
    [.enqueue ⟨1⟩ 1, .enqueue ⟨1⟩ 2, .dispatch, .dispatch, .complete 1, .complete 2,
      .enqueue ⟨2⟩ 3, .enqueue ⟨2⟩ 4, .enqueue ⟨2⟩ 5, .enqueue ⟨1⟩ 6]
    [.dispatch, .dispatch, .dispatch]
    ⟨1, 2, [(5, 6)], by decide⟩ ⟨1, 3, [], by decide⟩ ?_ ?_ ?_ ?_ ?_
  all_goals decide +kernel

/-- Repo 1 weighs four times as much as repo 2 but is fed one job at a time. Its queue is
    empty after each of its turns, so the next enqueue pulls its clock up to repo 2's and the
    rest of the turn it was owed is gone: the two are served alternately. -/
theorem drained_between_dispatches :
    ¬ FairBetween ℕ ⟨1⟩ ⟨2⟩ (NoIdleLag ⟨1⟩ ⟨2⟩) (BackloggedAtDispatch ⟨1⟩ ⟨2⟩) := by
  refine not_fairBetween_of_ops
    [.setWeight ⟨1⟩ 4, .enqueue ⟨1⟩ 1, .enqueue ⟨2⟩ 2, .enqueue ⟨2⟩ 3, .enqueue ⟨2⟩ 4,
      .enqueue ⟨2⟩ 5]
    [.dispatch, .enqueue ⟨1⟩ 6, .dispatch, .dispatch, .enqueue ⟨1⟩ 7, .dispatch, .dispatch,
      .enqueue ⟨1⟩ 8, .dispatch]
    ⟨4, 2, [(7, 8)], by decide⟩ ⟨1, 3, [(4, 5)], by decide⟩ ?_ ?_ ?_ ?_ ?_
  all_goals decide +kernel

theorem FairBetween.mono {i j : RepoId} {hist hist' stretch stretch' : WfqCore T → WfqOp T → Prop}
    (hh : ∀ c op, hist c op → hist' c op) (hst : ∀ c op, stretch c op → stretch' c op)
    (h : FairBetween T i j hist' stretch') : FairBetween T i j hist stretch :=
  fun cap c₀ c₁ before served hhist hstretch =>
    h cap c₀ c₁ before served (hhist.mono hh) (hstretch.mono hst)

/-- Looking at the dispatches only is not enough. -/
theorem not_fair_at_dispatches :
    ¬ FairBetween ℕ ⟨1⟩ ⟨2⟩ (ConstWeights ⟨1⟩ ⟨2⟩) (BackloggedAtDispatch ⟨1⟩ ⟨2⟩) := fun h =>
  drained_between_dispatches (h.mono (fun _ _ hop => ⟨hop.1.1, hop.2.1⟩) fun _ _ hop => hop)

end WfqCore

end Argunix.Sched
