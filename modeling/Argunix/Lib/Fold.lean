import Mathlib.Data.List.Basic

/-!
# Two rules for loops written as folds

A `for` loop over a list is a `List.foldl` of its body. `List.foldlRecOn` is the invariant
rule. The rule here is the one for *reaching* something: an iteration establishes a fact, the
later iterations keep it.
-/

set_option autoImplicit false

namespace Argunix.Lib

variable {α β : Type}

/-- The iteration at `x` establishes `Q`, every iteration keeps it, and `I` is the loop
    invariant both may use. -/
theorem foldl_establishes {f : β → α → β} {I Q : β → Prop} {x : α}
    (hI : ∀ b a, I b → I (f b a)) (hQ : ∀ b a, I b → Q b → Q (f b a))
    (hx : ∀ b, I b → Q (f b x)) :
    ∀ (l : List α) (b : β), I b → x ∈ l → Q (l.foldl f b) := by
  have hkeep : ∀ (l : List α) (b : β), I b → Q b → Q (l.foldl f b) := by
    intro l
    induction l with
    | nil => intro b _ hb; exact hb
    | cons a l ih => intro b hi hb; exact ih _ (hI b a hi) (hQ b a hi hb)
  intro l
  induction l with
  | nil => intro b _ hmem; exact absurd hmem (by simp)
  | cons a l ih =>
    intro b hi hmem
    rcases List.mem_cons.mp hmem with rfl | hmem
    · exact hkeep l _ (hI b x hi) (hx b hi)
    · exact ih _ (hI b a hi) hmem

end Argunix.Lib
