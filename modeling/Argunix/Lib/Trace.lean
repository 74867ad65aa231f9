import Mathlib.Logic.Basic

/-!
# Schedules of a deterministic machine

A schedule is a list of actions. `Along` says that a property holds in every state a schedule
passes through; `Steps` says that every action of it meets a condition in the state it is taken in.

The rule of this file is the exact one. If, under an invariant, one action keeps the property
*if and only if* it meets the condition, then the schedules along which the property holds are the
ones all of whose steps meet the condition (`along_iff_steps`).

A second rule compares two runs of one machine. `agree_filter`: if two states that agree still
agree after a visible action of both, and after a hidden action of one, then leaving the hidden
actions out of a schedule leads to a state that agrees.
-/

set_option autoImplicit false

namespace Argunix.Lib

variable {S A : Type} (act : S → A → S)

/-- `P` holds in every state of the schedule. -/
def Along (P : S → Prop) : S → List A → Prop
  | s, [] => P s
  | s, a :: as => P s ∧ Along P (act s a) as

/-- Every step of the schedule meets `ok`. -/
def Steps (ok : S → A → Prop) : S → List A → Prop
  | _, [] => True
  | s, a :: as => ok s a ∧ Steps ok (act s a) as

instance decidableSteps (ok : S → A → Prop) [∀ s a, Decidable (ok s a)] :
    ∀ (s : S) (as : List A), Decidable (Steps act ok s as)
  | _, [] => isTrue trivial
  | s, a :: as =>
    have := decidableSteps ok (act s a) as
    inferInstanceAs (Decidable (_ ∧ _))

variable {act}

theorem Along.last {P : S → Prop} {as : List A} : ∀ {s : S}, Along act P s as →
    P (as.foldl act s) := by
  induction as with
  | nil => exact fun h => h
  | cons a as ih => exact fun h => ih h.2

theorem Steps.append {ok : S → A → Prop} {as bs : List A} : ∀ {s : S}, Steps act ok s as →
    Steps act ok (as.foldl act s) bs → Steps act ok s (as ++ bs) := by
  induction as with
  | nil => exact fun _ hbs => hbs
  | cons a as ih => exact fun has hbs => ⟨has.1, ih has.2 hbs⟩

theorem Steps.and_forall {ok : S → A → Prop} {P : A → Prop} {as : List A} :
    ∀ {s : S}, (∀ a ∈ as, P a) → Steps act ok s as → Steps act (fun s a => P a ∧ ok s a) s as := by
  induction as with
  | nil => exact fun _ _ => trivial
  | cons a as ih =>
    rintro s hP ⟨hok, hrest⟩
    exact ⟨⟨hP a List.mem_cons_self, hok⟩,
      ih (fun b hb => hP b (List.mem_cons_of_mem a hb)) hrest⟩

/-- **What one step that meets the condition keeps, a schedule of them keeps.** -/
theorem along_of_steps {I P : S → Prop} {ok : S → A → Prop} (hI : ∀ s a, I s → I (act s a))
    (hstep : ∀ s a, I s → P s → ok s a → P (act s a)) :
    ∀ (as : List A) (s : S), I s → P s → Steps act ok s as → Along act P s as := by
  intro as
  induction as with
  | nil => exact fun _ _ hP _ => hP
  | cons a as ih =>
    rintro s hs hP ⟨hok, hrest⟩
    exact ⟨hP, ih _ (hI s a hs) (hstep s a hs hP hok) hrest⟩

/-- **One step decides, and so every step decides.** -/
theorem along_iff_steps {I P : S → Prop} {ok : S → A → Prop} (hI : ∀ s a, I s → I (act s a))
    (hstep : ∀ s a, I s → P s → (P (act s a) ↔ ok s a)) :
    ∀ (as : List A) (s : S), I s → P s → (Along act P s as ↔ Steps act ok s as) := by
  intro as
  induction as with
  | nil => exact fun s _ hP => ⟨fun _ => trivial, fun _ => hP⟩
  | cons a as ih =>
    intro s hs hP
    constructor
    · rintro ⟨-, hrest⟩
      have hnext : P (act s a) := by cases as with
        | nil => exact hrest
        | cons b as => exact hrest.1
      exact ⟨(hstep s a hs hP).mp hnext, (ih _ (hI s a hs) hnext).mp hrest⟩
    · rintro ⟨hok, hrest⟩
      have hnext := (hstep s a hs hP).mpr hok
      exact ⟨hP, (ih _ (hI s a hs) hnext).mpr hrest⟩

/-- **Hidden actions can be left out.** `I` is kept by every step that meets `ok`. -/
theorem agree_filter {I : S → Prop} {R : S → S → Prop} {ok : S → A → Prop} {hidden : A → Bool}
    (hI : ∀ s a, I s → ok s a → I (act s a))
    (hvisible : ∀ s s' a, R s s' → hidden a = false → ok s a → R (act s a) (act s' a))
    (hhidden : ∀ s s' a, I s → R s s' → hidden a = true → ok s a → R (act s a) s') :
    ∀ (as : List A) (s s' : S), I s → R s s' → Steps act ok s as →
      R (as.foldl act s) ((as.filter fun a => !hidden a).foldl act s') := by
  intro as
  induction as with
  | nil => exact fun s s' _ hR _ => hR
  | cons a as ih =>
    rintro s s' hs hR ⟨hok, hrest⟩
    cases ha : hidden a with
    | false =>
      have hfilter : (a :: as).filter (fun a => !hidden a) =
          a :: as.filter fun a => !hidden a := by simp [ha]
      rw [hfilter]
      exact ih _ _ (hI s a hs hok) (hvisible s s' a hR ha hok) hrest
    | true =>
      have hfilter : (a :: as).filter (fun a => !hidden a) = as.filter fun a => !hidden a := by
        simp [ha]
      rw [hfilter]
      exact ih _ _ (hI s a hs hok) (hhidden s s' a hs hR ha hok) hrest

end Argunix.Lib
