import Mathlib.Data.Fintype.Card
import Mathlib.Data.Set.Finite.Basic
import Mathlib.Logic.Relation

/-!
# Finite acyclic relations have a first element

The form in which a scheduler needs it: if every blocked item is blocked by a blocked item,
then, the items being finitely many, the blocking relation has a cycle.
-/

set_option autoImplicit false

namespace Argunix.Lib

variable {α : Type}

/-- No element reaches itself. -/
def Acyclic (R : α → α → Prop) : Prop := ∀ a, ¬ Relation.TransGen R a a

theorem Acyclic.mono {R R' : α → α → Prop} (h : Acyclic R') (himp : ∀ a b, R a b → R' a b) :
    Acyclic R := fun a ha => h a (Relation.TransGen.mono himp _ _ ha)

/-- A relation along which some rank grows has no cycle. -/
theorem Acyclic.of_rank {R : α → α → Prop} (rank : α → ℕ) (h : ∀ a b, R a b → rank a < rank b) :
    Acyclic R := by
  have hlt : ∀ a b, Relation.TransGen R a b → rank a < rank b := by
    intro a b hab
    induction hab with
    | single hR => exact h _ _ hR
    | tail _ hR ih => exact lt_trans ih (h _ _ hR)
  exact fun a ha => lt_irrefl _ (hlt a a ha)

/-- Edges into an element without successors close no cycle. -/
theorem Acyclic.add_sink {R R' : α → α → Prop} {x : α} (h : Acyclic R)
    (hsub : ∀ a b, R' a b → R a b ∨ b = x) (hsink : ∀ b, ¬ R' x b) : Acyclic R' := by
  -- a path that goes on after its end never passes `x`
  have hpath : ∀ {a b}, Relation.TransGen R' a b → (∃ c, R' b c) → Relation.TransGen R a b := by
    intro a b hab
    induction hab with
    | single hR =>
      rintro ⟨c, hc⟩
      rcases hsub _ _ hR with hR | rfl
      · exact .single hR
      · exact absurd hc (hsink c)
    | tail _ hR ih =>
      rintro ⟨c, hc⟩
      rcases hsub _ _ hR with hR' | rfl
      · exact (ih ⟨_, hR⟩).tail hR'
      · exact absurd hc (hsink c)
  intro a ha
  obtain ⟨c, hac, -⟩ := Relation.TransGen.head'_iff.mp ha
  exact h a (hpath ha ⟨c, hac⟩)

/-- A finite set in which every element has a predecessor is empty, along an acyclic relation. -/
theorem Acyclic.not_of_forall_exists {R : α → α → Prop} {P : α → Prop} (h : Acyclic R)
    (hfin : {a | P a}.Finite) (hpred : ∀ a, P a → ∃ b, P b ∧ R b a) (a : α) : ¬ P a := by
  have : Finite {a // P a} := hfin
  let r : {a // P a} → {a // P a} → Prop := fun x y => Relation.TransGen R x.1 y.1
  have : IsTrans {a // P a} r := ⟨fun _ _ _ => Relation.TransGen.trans⟩
  have : Std.Irrefl r := ⟨fun x => h x.1⟩
  have hwf : WellFounded r := Finite.wellFounded_of_trans_of_irrefl r
  have hnone : ∀ x : {a // P a}, False := fun x =>
    hwf.induction (C := fun _ => False) x fun y ih => by
      obtain ⟨b, hb, hR⟩ := hpred y.1 y.2
      exact ih ⟨b, hb⟩ (.single hR)
  exact fun ha => hnone ⟨a, ha⟩

end Argunix.Lib
