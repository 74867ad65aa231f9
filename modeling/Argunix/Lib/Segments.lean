import Mathlib.Data.List.Infix
import Argunix.Lib.Lines

/-!
# Segments of a path, and the last marker in it

A path is a text cut at its separators. A *marker* is a segment together with the separators around
it. It occurs in a path if and only if its word is one of the segments, and neither the first nor
the last (`infix_marker_iff`), so a parser that searches for the last marker finds the right one if
and only if the word is no segment of what comes behind, the last excepted (`rfind_marker_iff`).
-/

set_option autoImplicit false

namespace Argunix.Lib

/-! ## Segments -/

section

variable {α : Type} [DecidableEq α] {sep : α} {w : List α}

def segments (sep : α) (s : List α) : List (List α) :=
  (splitLines sep s).1 ++ [(splitLines sep s).2]

theorem splitOn_eq_segments (s : List α) : s.splitOn sep = segments sep s := by
  induction s with
  | nil => rfl
  | cons x xs ih =>
    unfold List.splitOn at ih ⊢
    rw [List.splitOnP_cons_eq_if_modifyHead, ih, segments, segments, splitLines]
    by_cases hx : x = sep
    · rw [if_pos hx, if_pos (beq_iff_eq.mpr hx)]
      rfl
    · rw [if_neg hx, if_neg (by simpa using hx)]
      cases splitLines sep xs with
      | mk lines rest => cases lines <;> rfl

/-- The lines of a text that goes on behind a separator. -/
theorem splitLines_append_sep (s t : List α) :
    splitLines sep (s ++ sep :: t) =
      (segments sep s ++ (splitLines sep t).1, (splitLines sep t).2) := by
  rw [splitLines_append, splitLines_line (not_mem_rest s), segments, List.append_assoc]
  rfl

theorem dropLast_segments (s : List α) : (segments sep s).dropLast = (splitLines sep s).1 :=
  List.dropLast_concat

theorem segments_of_not_mem {s : List α} (h : sep ∉ s) : segments sep s = [s] := by
  rw [segments, splitLines_of_not_mem h]
  rfl

theorem segments_append_sep (s t : List α) :
    segments sep (s ++ sep :: t) = segments sep s ++ segments sep t := by
  rw [segments, splitLines_append_sep, segments, segments, List.append_assoc, List.append_assoc]

theorem segments_ne_nil (s : List α) : segments sep s ≠ [] :=
  List.append_ne_nil_of_right_ne_nil _ (List.cons_ne_nil _ _)

/-! ## Markers -/

/-- A segment with the separators around it. -/
def marker (sep : α) (w : List α) : List α := sep :: w ++ [sep]

omit [DecidableEq α] in
/-- What starts with a separator is not found before the first one. -/
theorem infix_append_of_not_mem {l t p : List α} (hl : sep ∉ l) :
    (sep :: p) <:+: l ++ t ↔ (sep :: p) <:+: t := by
  induction l with
  | nil => rfl
  | cons x l ih =>
    have hx : sep ≠ x := fun heq => hl (heq ▸ List.mem_cons_self)
    rw [List.cons_append, List.infix_cons_iff, ih fun hm => hl (List.mem_cons_of_mem x hm)]
    refine or_iff_right fun hpre => hx ?_
    exact (List.cons_prefix_cons.mp hpre).1

theorem prefix_line_iff {l t : List α} (hw : sep ∉ w) (hl : sep ∉ l) :
    w ++ [sep] <+: l ++ sep :: t ↔ w = l := by
  constructor
  · intro ⟨u, hu⟩
    rw [List.append_assoc] at hu
    have hlines := congrArg (fun s => (splitLines sep s).1) hu
    simp only [List.singleton_append, splitLines_line hw, splitLines_line hl] at hlines
    exact (List.cons.inj hlines).1
  · intro heq
    subst heq
    exact ⟨t, by simp⟩

theorem infix_marker_cons_iff (hw : sep ∉ w) (y : List α) :
    marker sep w <:+: sep :: y ↔ w ∈ (splitLines sep y).1 := by
  induction y using lines_induction sep with
  | hrest s h =>
    rw [splitLines_of_not_mem h]
    refine iff_of_false (fun hin => ?_) List.not_mem_nil
    -- a marker has two separators
    have hcount := hin.sublist.count_le sep
    rw [marker, List.cons_append, List.count_cons_self, List.count_append, List.count_cons_self,
      List.count_cons_self, List.count_eq_zero.mpr h, List.count_nil] at hcount
    omega
  | hline l t hl ih =>
    rw [splitLines_line hl, List.mem_cons, List.infix_cons_iff, ← ih]
    refine or_congr ?_ (infix_append_of_not_mem hl)
    rw [marker, List.cons_append, List.cons_prefix_cons, prefix_line_iff hw hl]
    exact and_iff_right rfl

/-- **A marker occurs where its word is a segment that is neither the first nor the last.** -/
theorem infix_marker_iff (hw : sep ∉ w) (s : List α) :
    marker sep w <:+: s ↔ w ∈ (splitLines sep s).1.tail := by
  rcases first_line sep s with h | ⟨l, t, hl, rfl⟩
  · rw [splitLines_of_not_mem h]
    refine iff_of_false (fun hin => h (hin.subset ?_)) List.not_mem_nil
    exact List.mem_cons_self
  · rw [splitLines_line hl, marker, List.cons_append, infix_append_of_not_mem hl]
    exact infix_marker_cons_iff hw t

/-- The lines of a text with a marker in it. -/
theorem splitLines_marker (hw : sep ∉ w) (s y : List α) :
    (splitLines sep (s ++ marker sep w ++ y)).1 = segments sep s ++ w :: (splitLines sep y).1 := by
  have htext : s ++ marker sep w ++ y = s ++ sep :: (w ++ sep :: y) := by
    simp [marker]
  rw [htext, splitLines_append_sep, splitLines_line hw]

end

/-! ## The last occurrence -/

/-- `str::rfind` -/
def rfind (pat s : List Char) : Option ℕ :=
  (List.range (s.length + 1)).reverse.find? fun i => pat.isPrefixOf (s.drop i)

theorem find?_reverse_range {p : ℕ → Bool} {n i : ℕ} :
    (List.range n).reverse.find? p = some i ↔
      i < n ∧ p i = true ∧ ∀ j, i < j → j < n → p j = false := by
  induction n with
  | zero => simp
  | succ n ih =>
    rw [List.range_succ, List.reverse_append, List.reverse_singleton, List.singleton_append,
      List.find?_cons]
    cases hp : p n with
    | true =>
      simp only [Option.some.injEq]
      constructor
      · intro h
        subst h
        exact ⟨Nat.lt_succ_self _, hp, fun j h₁ h₂ => absurd h₂ (by omega)⟩
      · intro ⟨hi, _, hall⟩
        by_contra hne
        have hlast := hall n (by omega) (Nat.lt_succ_self n)
        rw [hp] at hlast
        exact absurd hlast (by simp)
    | false =>
      simp only [ih]
      constructor
      · intro ⟨hi, hpi, hall⟩
        refine ⟨by omega, hpi, fun j h₁ h₂ => ?_⟩
        rcases Nat.lt_succ_iff_lt_or_eq.mp h₂ with h₂ | rfl
        · exact hall j h₁ h₂
        · exact hp
      · intro ⟨hi, hpi, hall⟩
        have hin : i ≠ n := fun heq => by
          rw [heq, hp] at hpi
          exact absurd hpi (by simp)
        exact ⟨by omega, hpi, fun j h₁ h₂ => hall j h₁ (by omega)⟩

theorem rfind_eq_none {pat s : List Char} : rfind pat s = none ↔ ¬ pat <:+: s := by
  rw [rfind, List.find?_eq_none]
  simp only [List.mem_reverse, List.mem_range, List.isPrefixOf_iff_prefix]
  constructor
  · intro h ⟨a, b, heq⟩
    have hlen : a.length < s.length + 1 := by
      rw [← heq, List.length_append, List.length_append]
      omega
    refine h a.length hlen ⟨b, ?_⟩
    rw [← heq]
    simp
  · intro h i _ hpre
    exact h (hpre.isInfix.trans (List.drop_suffix i s).isInfix)

theorem rfind_eq_some {pat s : List Char} {i : ℕ} :
    rfind pat s = some i ↔ i ≤ s.length ∧ pat <+: s.drop i ∧
      ∀ j, i < j → j ≤ s.length → ¬ pat <+: s.drop j := by
  rw [rfind, find?_reverse_range]
  simp only [Nat.lt_succ_iff, List.isPrefixOf_iff_prefix, ← Bool.not_eq_true]

/-- A marker is found nowhere in a text with another one. -/
theorem rfind_marker_eq_none {s v w y : List Char} (hv : '/' ∉ v) (hw : '/' ∉ w) :
    rfind (marker '/' v) (s ++ marker '/' w ++ y) = none ↔
      v ∉ (segments '/' s).tail ∧ v ≠ w ∧ v ∉ (splitLines '/' y).1 := by
  rw [rfind_eq_none, infix_marker_iff hv, splitLines_marker hw,
    List.tail_append_of_ne_nil (segments_ne_nil s), List.mem_append, List.mem_cons]
  simp only [not_or, ne_eq]

/-- **The last marker is this one** if and only if its word is no segment of what comes behind, the
    last excepted. -/
theorem rfind_marker_iff {w x y : List Char} (hw : '/' ∉ w) :
    rfind (marker '/' w) (x ++ marker '/' w ++ y) = some x.length ↔
      w ∉ (splitLines '/' y).1 := by
  have hdrop : ∀ k, (x ++ marker '/' w ++ y).drop (x.length + 1 + k) = (w ++ '/' :: y).drop k := by
    intro k
    rw [Nat.add_assoc, ← List.drop_drop, List.append_assoc, List.drop_left, Nat.add_comm]
    simp [marker]
  have hbehind : marker '/' w <:+: w ++ '/' :: y ↔ w ∈ (splitLines '/' y).1 :=
    (infix_append_of_not_mem hw).trans (infix_marker_cons_iff hw y)
  rw [rfind_eq_some, ← hbehind]
  constructor
  · intro ⟨_, _, hall⟩ hin
    obtain ⟨a, b, heq⟩ := hin
    refine hall (x.length + 1 + a.length) (by omega) ?_ ?_
    · have := congrArg List.length heq
      simp [marker] at this ⊢
      omega
    · rw [hdrop, ← heq]
      exact ⟨b, by simp [marker]⟩
  · intro hnot
    refine ⟨by simp, ?_, fun j hj _ hpre => hnot ?_⟩
    · rw [List.append_assoc, List.drop_left]
      exact List.prefix_append _ _
    · obtain ⟨k, rfl⟩ := Nat.exists_eq_add_of_lt hj
      rw [show x.length + k + 1 = x.length + 1 + k by omega, hdrop] at hpre
      exact hpre.isInfix.trans (List.drop_suffix _ _).isInfix

end Argunix.Lib
