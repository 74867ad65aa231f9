import Mathlib.Logic.Basic

/-!
# Runs of a machine that may refuse an action

`act s a` is the state after the action `a`, or `none` where the action is not possible. A run is
any sequence of possible actions, so it stands for every interleaving of whoever takes them. `ok`
restricts the runs: it is asked of every action in the state before it.

`Runs.invariant` is the one rule that proofs about all runs need, and `Runs.of_script` turns an
evaluation of a list of actions into a run.
-/

set_option autoImplicit false

namespace Argunix.Lib

variable {S A : Type} {act : S → A → Option S} {ok ok' : S → A → Prop} {s₀ s s' : S}

inductive Runs (act : S → A → Option S) (ok : S → A → Prop) (s₀ : S) : S → Prop
  | refl : Runs act ok s₀ s₀
  | step {s s' : S} {a : A} : Runs act ok s₀ s → ok s a → act s a = some s' → Runs act ok s₀ s'

/-- Nothing is asked. -/
def Always (_ : S) (_ : A) : Prop := True

theorem Runs.trans (h : Runs act ok s₀ s) (h' : Runs act ok s s') : Runs act ok s₀ s' := by
  induction h' with
  | refl => exact h
  | step _ hok hact ih => exact .step ih hok hact

/-- **What holds at first and is kept by every action holds in every state of a run.** -/
theorem Runs.invariant {I : S → Prop} (h : Runs act ok s₀ s) (h₀ : I s₀)
    (hstep : ∀ {s s' : S} {a : A}, I s → ok s a → act s a = some s' → I s') : I s := by
  induction h with
  | refl => exact h₀
  | step _ hok hact ih => exact hstep ih hok hact

/-! ## Scripts -/

/-- The state after a list of actions, each of which meets `ok` where it is taken. -/
def script (act : S → A → Option S) (ok : S → A → Prop) [∀ s a, Decidable (ok s a)] (s : S) :
    List A → Option S
  | [] => some s
  | a :: as => if ok s a then (act s a).bind fun s' => script act ok s' as else none

theorem Runs.of_script [∀ s a, Decidable (ok s a)] {as : List A} :
    ∀ {s s' : S}, script act ok s as = some s' → Runs act ok s s' := by
  induction as with
  | nil =>
    intro s s' h
    obtain rfl := Option.some.inj h
    exact .refl
  | cons a as ih =>
    intro s s' h
    rw [script] at h
    split at h
    · rename_i hok
      obtain ⟨s₁, hact, hrest⟩ := Option.bind_eq_some_iff.mp h
      exact (Runs.step .refl hok hact).trans (ih hrest)
    · exact absurd h (by simp)

instance (s : S) (a : A) : Decidable (Always s a) := isTrue trivial

end Argunix.Lib
