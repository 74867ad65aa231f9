import Argunix.Sched.Fairness
import Mathlib.Algebra.Order.Floor.Semiring
import Mathlib.Data.Rat.Floor
import Mathlib.Algebra.BigOperators.Group.Finset.Basic
import Mathlib.Algebra.Order.BigOperators.Group.Finset

/-!
# Bounded waiting in the WFQ core

Fairness between two repos needs conditions on the history (`Sched.Fairness`). That no repo is
starved does not: fix a repo `r` whose queue has a head, at virtual time `v_r`. As long as the
head is neither cancelled nor served, `v_r` is frozen, and a dispatch that serves another repo
`i` happens only while `v_i ≤ v_r`. Each such dispatch moves `v_i` up by `1 / w_i`, and nothing
ever moves a clock back, so `i` gets in at most

    ⌊max 0 (v_r - v_i) * w_i⌋ + 1

times. What the other repos enqueue in the meantime does not enter the bound: it can only push
their clocks further up.

The invariant is `Waits`. Its `paid` half is what the induction carries: the clock of `i` has
moved by at least what `i` was charged, and was at most `v_r` when it was last served.
-/

set_option autoImplicit false
set_option linter.unusedSectionVars false

namespace Argunix.Sched

open Argunix.Lib

namespace WfqCore

variable {T : Type} [DecidableEq T]

/-- What the continuation asks of each call: weights and the set of registered repos stay as
    they are, and a cancellation does not hit `tag`, the head that waits. -/
def Spares (tag : T) (c : WfqCore T) : WfqOp T → Prop
  | .setWeight .. => False
  | .enqueue r _ => (c.repos.lookup r).isSome = true
  | .dispatch | .complete _ => True
  | .cancelPending p => p tag = false

/-- How often repo `i` can be served before a head that waits at virtual time `v`. -/
def turns (c : WfqCore T) (v : ℚ) (i : RepoId) : ℕ :=
  match c.repos.lookup i with
  | some st => ⌊max 0 (v - st.virtualTime) * st.weight⌋₊ + 1
  | none => 0

/-- The dispatches the other repos can receive, all together. -/
def turnsOfOthers (c : WfqCore T) (r : RepoId) (v : ℚ) : ℕ :=
  ∑ i ∈ c.repos.keys.toFinset.erase r, c.turns v i

/-! ## What one call does to a clock, to a head and to the set of repos -/

/-- A clock never moves back. -/
theorem le_virtualTime_apply {c : WfqCore T} {r : RepoId} {st st' : RepoState T} (op : WfqOp T)
    (hl : c.repos.lookup r = some st) (hl' : (c.apply op).2.repos.lookup r = some st') :
    st.virtualTime ≤ st'.virtualTime := by
  by_cases hs : (c.apply op).1 = some r
  · obtain ⟨-, st₁, st₂, h₁, -, h₂, -, hv⟩ := virtualTime_served hs
    obtain rfl : st₁ = st := by rw [hl] at h₁; exact (Option.some.inj h₁).symm
    obtain rfl : st₂ = st' := by rw [hl'] at h₂; exact (Option.some.inj h₂).symm
    have := quantum_pos st₁
    linarith
  · by_cases hq : st.pending ≠ [] ∨ ∀ t, op ≠ .enqueue r t
    · exact le_of_eq (virtualTime_apply op hl hl' hs hq).symm
    · push Not at hq
      obtain ⟨-, t, rfl⟩ := hq
      simp only [WfqCore.apply, lookup_enqueue, if_true, hl, Option.getD_some,
        Option.some.injEq] at hl'
      subst hl'
      exact le_push_virtualTime _ _ _ _

/-- The head of a queue stays where it is unless it is cancelled or its repo is served. -/
theorem head_apply {c : WfqCore T} {r : RepoId} {st st' : RepoState T} {q : ℕ} {tag : T}
    {op : WfqOp T} (hl : c.repos.lookup r = some st) (hhead : st.pending.head? = some (q, tag))
    (hop : Spares tag c op) (hs : (c.apply op).1 ≠ some r)
    (hl' : (c.apply op).2.repos.lookup r = some st') :
    st'.pending.head? = some (q, tag) := by
  obtain ⟨rest, hp⟩ : ∃ rest, st.pending = (q, tag) :: rest := List.head?_eq_some_iff.mp hhead
  cases op with
  | setWeight r' w => exact hop.elim
  | enqueue r' t =>
    simp only [WfqCore.apply, lookup_enqueue] at hl'
    split at hl'
    · rename_i hr
      subst hr
      rw [hl, Option.getD_some, Option.some.injEq] at hl'
      subst hl'
      simp [RepoState.push, hp]
    · rw [hl, Option.some.injEq] at hl'
      subst hl'
      exact hhead
  | dispatch =>
    rcases dispatch_cases c with ⟨hn, -⟩ | ⟨r', st₀, q₀, tag₀, rest₀, -, -, -, -, hd⟩
    · simp only [WfqCore.apply, hn, hl, Option.some.injEq] at hl'
      subst hl'
      exact hhead
    · simp only [WfqCore.apply, hd, HashMap.lookup_modify] at hl' hs
      split at hl'
      · rename_i hr
        exact absurd (by simp [hr]) hs
      · rw [hl, Option.some.injEq] at hl'
        subst hl'
        exact hhead
  | complete t =>
    simp only [WfqCore.apply, WfqCore.complete, hl, Option.some.injEq] at hl'
    subst hl'
    exact hhead
  | cancelPending p =>
    have hp' : p tag = false := hop
    simp only [WfqCore.apply, lookup_cancelPending, hl, Option.map_some,
      Option.some.injEq] at hl'
    subst hl'
    simp [hp, hp']

/-- No call of the continuation registers a repo. -/
theorem registered_apply {c : WfqCore T} {i : RepoId} {tag : T} {op : WfqOp T}
    (hop : Spares tag c op) (h : ((c.apply op).2.repos.lookup i).isSome = true) :
    (c.repos.lookup i).isSome = true := by
  cases op with
  | setWeight r' w => exact hop.elim
  | enqueue r' t =>
    simp only [WfqCore.apply, lookup_enqueue] at h
    split at h
    · rename_i hr
      exact hr ▸ hop
    · exact h
  | dispatch =>
    rcases dispatch_cases c with ⟨hn, -⟩ | ⟨r', st₀, q₀, tag₀, rest₀, -, -, -, -, hd⟩
    · simpa [WfqCore.apply, hn] using h
    · simp only [WfqCore.apply, hd, HashMap.lookup_modify] at h
      split at h
      · rename_i hr
        subst hr
        simpa using h
      · exact h
  | complete t => exact h
  | cancelPending p => simpa [WfqCore.apply, lookup_cancelPending] using h

theorem Spares.keepsWeight {c : WfqCore T} {tag : T} {op : WfqOp T} (h : Spares tag c op)
    (r : RepoId) : KeepsWeight r c op := by
  cases op with
  | setWeight r' w => exact h.elim
  | enqueue | dispatch | complete | cancelPending => trivial

theorem Spares.shuffle {c c' : WfqCore T} {tag : T} {op : WfqOp T} (h : Spares tag c op)
    (hs : Shuffle c c') : Spares tag c' op := by
  cases op with
  | enqueue r' t => simpa [Spares, hs.lookup] using h
  | setWeight | dispatch | complete | cancelPending => exact h

/-! ## The invariant -/

/-- Repo `r`'s head `(q, tag)` has been waiting at virtual time `v` since `c₀`, while the repos
    of `served` were served. -/
structure Waits (c₀ : WfqCore T) (r : RepoId) (v : ℚ) (q : ℕ) (tag : T)
    (served : List RepoId) (c : WfqCore T) : Prop where
  head : ∃ st, c.repos.lookup r = some st ∧ st.virtualTime = v ∧
    st.pending.head? = some (q, tag)
  registered : ∀ i, (c.repos.lookup i).isSome = true → (c₀.repos.lookup i).isSome = true
  servedRegistered : ∀ i ∈ served, (c₀.repos.lookup i).isSome = true
  /-- The clock has moved by what was charged, and was at most `v` at the last service. -/
  paid : ∀ i st₀, c₀.repos.lookup i = some st₀ → i ≠ r →
    ∃ st, c.repos.lookup i = some st ∧ st.weight = st₀.weight ∧
      st₀.virtualTime + (served.count i : ℚ) / st₀.weight ≤ st.virtualTime ∧
      (served.count i ≠ 0 →
        st₀.virtualTime + ((served.count i : ℚ) - 1) / st₀.weight ≤ v)

theorem Waits.start {c₀ : WfqCore T} {r : RepoId} {st : RepoState T} {q : ℕ} {tag : T}
    (hl : c₀.repos.lookup r = some st) (hhead : st.pending.head? = some (q, tag)) :
    Waits c₀ r st.virtualTime q tag [] c₀ where
  head := ⟨st, hl, rfl, hhead⟩
  registered := fun _ h => h
  servedRegistered := by simp
  paid := fun i st₀ h₀ _ => ⟨st₀, h₀, rfl, by simp, by simp⟩

theorem Waits.shuffle {c₀ c c' : WfqCore T} {r : RepoId} {v : ℚ} {q : ℕ} {tag : T}
    {served : List RepoId} (h : Waits c₀ r v q tag served c) (hs : Shuffle c c') :
    Waits c₀ r v q tag served c' where
  head := by simpa only [hs.lookup] using h.head
  registered := by simpa only [hs.lookup] using h.registered
  servedRegistered := h.servedRegistered
  paid := by simpa only [hs.lookup] using h.paid

/-- **The step lemma**: a call that neither cancels the head nor serves its repo. -/
theorem Waits.apply {c₀ c : WfqCore T} {r : RepoId} {v : ℚ} {q : ℕ} {tag : T}
    {served : List RepoId} {op : WfqOp T} (h : Waits c₀ r v q tag served c)
    (hop : Spares tag c op) (hs : (c.apply op).1 ≠ some r) :
    Waits c₀ r v q tag (served ++ (c.apply op).1.toList) (c.apply op).2 := by
  obtain ⟨st, hl, hv, hhead⟩ := h.head
  have hpend : st.pending ≠ [] := by
    rintro hnil
    simp [hnil] at hhead
  refine ⟨?_, fun i hi => h.registered i (registered_apply hop hi), fun i hi => ?_, ?_⟩
  · obtain ⟨st', hl', -⟩ := weight_apply hl (hop.keepsWeight r)
    exact ⟨st', hl', (virtualTime_apply op hl hl' hs (Or.inl hpend)).trans hv,
      head_apply hl hhead hop hs hl'⟩
  · rcases List.mem_append.mp hi with hold | hnew
    · exact h.servedRegistered i hold
    · obtain ⟨-, st₁, -, h₁, -⟩ := virtualTime_served (Option.mem_toList.mp hnew)
      exact h.registered i (by simp [h₁])
  · intro i st₀ h₀ hir
    obtain ⟨sti, hli, hw, hcharged, hlast⟩ := h.paid i st₀ h₀ hir
    obtain ⟨sti', hli', hw'⟩ := weight_apply hli (hop.keepsWeight i)
    refine ⟨sti', hli', hw'.trans hw, ?_⟩
    by_cases hsi : (c.apply op).1 = some i
    · -- `i` had the minimal clock, so it was not ahead of the head that waits
      obtain ⟨-, st₁, st₂, h₁, hm, h₂, -, hv'⟩ := virtualTime_served hsi
      obtain rfl : st₁ = sti := by rw [hli] at h₁; exact (Option.some.inj h₁).symm
      obtain rfl : st₂ = sti' := by rw [hli'] at h₂; exact (Option.some.inj h₂).symm
      have hle : st₁.virtualTime ≤ v :=
        hv ▸ (systemVirtualTime_eq_some_iff.mp hm).2 r st hl hpend
      have hcount : (served ++ (c.apply op).1.toList).count i = served.count i + 1 := by
        simp [hsi]
      rw [hcount, hv', hw]
      push_cast
      rw [add_sub_cancel_right, add_div]
      constructor
      · linarith
      · intro _
        linarith
    · have hcount : (served ++ (c.apply op).1.toList).count i = served.count i := by
        rw [List.count_append, Nat.add_eq_left, List.count_eq_zero]
        exact fun hmem => hsi (Option.mem_toList.mp hmem)
      rw [hcount]
      exact ⟨hcharged.trans (le_virtualTime_apply op hli hli'), hlast⟩

/-- The run lemma. -/
theorem Run.waits {c₀ c : WfqCore T} {r : RepoId} {st : RepoState T} {q : ℕ} {tag : T}
    {served : List RepoId} (hl : c₀.repos.lookup r = some st)
    (hhead : st.pending.head? = some (q, tag)) (hrun : Run (Spares tag) c₀ served c)
    (hns : r ∉ served) : Waits c₀ r st.virtualTime q tag served c := by
  induction hrun with
  | nil => exact .start hl hhead
  | step _ hop hs ih =>
    obtain ⟨hold, hnew⟩ := not_or.mp (mt List.mem_append.mpr hns)
    exact ((ih hold).shuffle hs).apply (hop.shuffle hs) fun he => hnew (by simp [he])

/-! ## The bound -/

theorem Waits.count_le {c₀ c : WfqCore T} {r : RepoId} {v : ℚ} {q : ℕ} {tag : T}
    {served : List RepoId} (h : Waits c₀ r v q tag served c) {i : RepoId} (hir : i ≠ r) :
    served.count i ≤ c₀.turns v i := by
  unfold turns
  cases hi : c₀.repos.lookup i with
  | none =>
    refine le_of_eq (List.count_eq_zero.mpr fun hmem => ?_)
    simpa [hi] using h.servedRegistered i hmem
  | some st₀ =>
    obtain ⟨-, -, -, -, hlast⟩ := h.paid i st₀ hi hir
    cases hk : served.count i with
    | zero => exact Nat.zero_le _
    | succ k =>
      have hw : (0 : ℚ) < st₀.weight := by exact_mod_cast st₀.weight_pos
      have hle : (k : ℚ) / st₀.weight ≤ v - st₀.virtualTime := by
        have := hlast (by omega)
        rw [hk] at this
        push_cast at this
        rw [add_sub_cancel_right] at this
        linarith
      have hk' : (k : ℚ) ≤ max 0 (v - st₀.virtualTime) * st₀.weight := by
        rw [← div_le_iff₀ hw]
        exact hle.trans (le_max_right _ _)
      exact Nat.succ_le_succ (Nat.le_floor hk')

theorem Waits.length_le {c₀ c : WfqCore T} {r : RepoId} {v : ℚ} {q : ℕ} {tag : T}
    {served : List RepoId} (h : Waits c₀ r v q tag served c) (hns : r ∉ served) :
    served.length ≤ c₀.turnsOfOthers r v := by
  have hsub : served.toFinset ⊆ c₀.repos.keys.toFinset.erase r := by
    intro i hi
    rw [List.mem_toFinset] at hi
    refine Finset.mem_erase.mpr ⟨fun he => hns (he ▸ hi), ?_⟩
    rw [List.mem_toFinset]
    exact AList.lookup_isSome.mp (h.servedRegistered i hi)
  calc served.length = ∑ i ∈ served.toFinset, served.count i :=
        (List.sum_toFinset_count_eq_length served).symm
    _ ≤ ∑ i ∈ served.toFinset, c₀.turns v i :=
        Finset.sum_le_sum fun i hi => h.count_le fun he => hns (he ▸ List.mem_toFinset.mp hi)
    _ ≤ c₀.turnsOfOthers r v := Finset.sum_le_sum_of_subset hsub

/-- While the head waits, a free slot goes to somebody. -/
theorem Waits.dispatch {c₀ c : WfqCore T} {r : RepoId} {v : ℚ} {q : ℕ} {tag : T}
    {served : List RepoId} (h : Waits c₀ r v q tag served c) (hfree : c.capReached = false) :
    ∃ p, c.dispatch.1 = some p ∧ (p.repoId = r → p.tag = tag) := by
  obtain ⟨st, hl, -, hhead⟩ := h.head
  rcases dispatch_cases c with ⟨-, hcap | hempty⟩ | ⟨r', st', q', tag', rest, hl', hp, -, -, hd⟩
  · simp [hfree] at hcap
  · simp [hempty r st hl] at hhead
  · refine ⟨⟨tag', r'⟩, by rw [hd], fun hr => ?_⟩
    obtain rfl : r' = r := hr
    obtain rfl : st' = st := by rw [hl] at hl'; exact (Option.some.inj hl').symm
    simp only [hp, List.head?_cons, Option.some.injEq, Prod.mk.injEq] at hhead
    exact hhead.2

/-- **Bounded waiting.** In any continuation that neither cancels nor serves the head of `r`,
    every other repo is served at most `turns` times, however much it enqueues; so at most
    `turnsOfOthers` dispatches go by, and once that many have, the next free slot is the
    head's. -/
theorem bounded_waiting {c₀ c₁ : WfqCore T} {r : RepoId} {st : RepoState T} {q : ℕ} {tag : T}
    {served : List RepoId} (hl : c₀.repos.lookup r = some st)
    (hhead : st.pending.head? = some (q, tag)) (hrun : Run (Spares tag) c₀ served c₁)
    (hns : r ∉ served) :
    (∀ i ≠ r, served.count i ≤ c₀.turns st.virtualTime i) ∧
    served.length ≤ c₀.turnsOfOthers r st.virtualTime ∧
    ∀ c₂, Shuffle c₁ c₂ → c₂.capReached = false →
      c₀.turnsOfOthers r st.virtualTime ≤ served.length →
      c₂.dispatch.1 = some { tag := tag, repoId := r } := by
  have hw := hrun.waits hl hhead hns
  refine ⟨fun i hi => hw.count_le hi, hw.length_le hns, fun c₂ hs hfree hfull => ?_⟩
  obtain ⟨p, hp, htag⟩ := (hw.shuffle hs).dispatch hfree
  by_cases hpr : p.repoId = r
  · rw [hp, ← htag hpr, ← hpr]
  · -- one more dispatch for another repo would exceed the bound
    have happ : (c₂.apply .dispatch).1 = some p.repoId := by simp [WfqCore.apply, hp]
    have hns' : r ∉ served ++ (c₂.apply .dispatch).1.toList := by
      simp [happ, hns, Ne.symm hpr]
    have hspare : Spares tag c₁ .dispatch := trivial
    have hlen := ((hrun.step hspare hs).waits hl hhead hns').length_le hns'
    simp only [happ, Option.toList_some, List.length_append, List.length_singleton] at hlen
    omega

instance (tag : T) (c : WfqCore T) (op : WfqOp T) : Decidable (Spares tag c op) :=
  match op with
  | .setWeight .. => isFalse id
  | .enqueue r _ => inferInstanceAs (Decidable ((c.repos.lookup r).isSome = true))
  | .dispatch | .complete _ => isTrue trivial
  | .cancelPending p => inferInstanceAs (Decidable (p tag = false))

/-- Repo 1 has been served twice, so its next entry waits at virtual time two; repo 2 comes back
    from idle with its clock at zero and takes three dispatches before that entry. -/
def lateHead : WfqCore ℕ :=
  ((WfqCore.new none).runOps
    [.enqueue ⟨2⟩ 0, .cancelPending fun _ => true, .enqueue ⟨1⟩ 1, .enqueue ⟨1⟩ 2, .dispatch,
      .dispatch, .complete 1, .complete 2, .enqueue ⟨2⟩ 3, .enqueue ⟨2⟩ 4, .enqueue ⟨2⟩ 5,
      .enqueue ⟨1⟩ 6]).2

theorem bounded_waiting_late_head :
    (lateHead.runOps [.dispatch, .enqueue ⟨2⟩ 7, .dispatch, .dispatch]).1 = [⟨2⟩, ⟨2⟩, ⟨2⟩] ∧
      lateHead.turnsOfOthers ⟨1⟩ 2 = 3 ∧
      (lateHead.runOps [.dispatch, .enqueue ⟨2⟩ 7, .dispatch, .dispatch]).2.dispatch.1
        = some { tag := 6, repoId := ⟨1⟩ } := by
  have hok : OkOps (Spares 6) lateHead
      [.dispatch, .enqueue ⟨2⟩ 7, .dispatch, .dispatch] := by
    decide +kernel
  have hturns : lateHead.turnsOfOthers ⟨1⟩ 2 = 3 := by decide +kernel
  have hl : lateHead.repos.lookup ⟨1⟩ = some ⟨1, 2, [(6, 6)], by decide⟩ := by decide +kernel
  refine ⟨by decide +kernel, hturns, ?_⟩
  exact (bounded_waiting hl rfl (Run.of_ops hok) (by decide +kernel)).2.2 _ (.refl _)
    (by decide +kernel) (by rw [hturns]; decide +kernel)

end WfqCore

end Argunix.Sched
