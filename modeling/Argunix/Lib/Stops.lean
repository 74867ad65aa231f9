import Mathlib.Logic.Relation
import Mathlib.Data.Nat.Notation

/-!
# Machines that stop

`step` is a relation: a state may have several successors. `Stops step s` says that no run from `s`
goes on for ever. That is so if there is a measure that every step makes smaller
(`Stops.of_measure`), and not so if a run comes back to a state (`Stops.not_cycle`). A machine that
stops, and can go on wherever it is not done, is done in the end (`Stops.exists_end`).
-/

set_option autoImplicit false

namespace Argunix.Lib

open Relation (ReflTransGen TransGen)

variable {S : Type} {step : S → S → Prop} {I : S → Prop} {s t : S}

/-- No run from here goes on for ever. -/
def Stops (step : S → S → Prop) (s : S) : Prop := Acc (fun t s => step s t) s

namespace Stops

theorem next (h : Stops step s) (hstep : step s t) : Stops step t := h.inv hstep

theorem run (h : Stops step s) (hrun : ReflTransGen step s t) : Stops step t := by
  induction hrun with
  | refl => exact h
  | tail _ hstep ih => exact next ih hstep

/-- **A measure that every step makes smaller**, as long as something holds that is kept. -/
theorem of_measure {μ : S → ℕ} (hstep : ∀ {s t}, I s → step s t → I t ∧ μ t < μ s) (h : I s) :
    Stops step s := by
  have hall : ∀ n s, I s → μ s < n → Stops step s := by
    intro n
    induction n with
    | zero => exact fun s _ hlt => absurd hlt (Nat.not_lt_zero _)
    | succ n ih =>
      intro s hs hlt
      refine ⟨s, fun t hst => ?_⟩
      obtain ⟨ht, hless⟩ := hstep hs hst
      exact ih t ht (Nat.lt_of_lt_of_le hless (Nat.lt_succ_iff.mp hlt))
  exact hall _ s h (Nat.lt_succ_self _)

/-- **What stops does not come back.** -/
theorem not_cycle (h : Stops step s) : ¬ TransGen step s s := by
  induction h with
  | intro s _ ih =>
    intro hcycle
    obtain ⟨t, hst, hts⟩ := TransGen.head'_iff.mp hcycle
    exact ih t hst (TransGen.tail'_iff.mpr ⟨s, hts, hst⟩)

/-- **What stops is done in the end**, if it can go on until then. -/
theorem exists_end (h : Stops step s) (done : S → Prop) (hs : I s)
    (hgo : ∀ s, I s → done s ∨ ∃ t, step s t ∧ I t) :
    ∃ t, ReflTransGen step s t ∧ I t ∧ done t := by
  induction h with
  | intro s _ ih =>
    rcases hgo s hs with hdone | ⟨t, hst, ht⟩
    · exact ⟨s, .refl, hs, hdone⟩
    · obtain ⟨u, htu, hu⟩ := ih t hst ht
      exact ⟨u, .head hst htu, hu⟩

end Stops

end Argunix.Lib
