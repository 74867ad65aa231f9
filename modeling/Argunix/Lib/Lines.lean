import Mathlib.Data.List.Basic

/-!
# The lines of a stream

A stream is cut at every separator. What stands before one is a complete line, and what stands
after the last is the rest, which the next part of the stream goes on with. `splitLines_append` is
the reason that a reader who keeps the rest need not care how the stream was cut into chunks.

`numbered` gives a line the place where it starts. Two lines may hold the same bytes, so a reader
that has to report every line once is compared with the stream by place.
-/

set_option autoImplicit false

namespace Argunix.Lib

variable {α : Type}

section

variable [DecidableEq α] {sep : α}

/-- The complete lines, without their separators, and the rest. -/
def splitLines (sep : α) : List α → List (List α) × List α
  | [] => ([], [])
  | x :: xs =>
    if x = sep then ([] :: (splitLines sep xs).1, (splitLines sep xs).2)
    else match splitLines sep xs with
      | ([], rest) => ([], x :: rest)
      | (line :: lines, rest) => ((x :: line) :: lines, rest)

theorem splitLines_of_not_mem {s : List α} (h : sep ∉ s) : splitLines sep s = ([], s) := by
  induction s with
  | nil => rfl
  | cons x xs ih =>
    have hx : x ≠ sep := fun heq => h (heq ▸ List.mem_cons_self)
    rw [splitLines, if_neg hx, ih fun hm => h (List.mem_cons_of_mem x hm)]

/-- The first separator ends the first line. -/
theorem splitLines_line {l : List α} (h : sep ∉ l) (t : List α) :
    splitLines sep (l ++ sep :: t) = (l :: (splitLines sep t).1, (splitLines sep t).2) := by
  induction l with
  | nil => exact if_pos rfl
  | cons x xs ih =>
    have hx : x ≠ sep := fun heq => h (heq ▸ List.mem_cons_self)
    rw [List.cons_append, splitLines, if_neg hx, ih fun hm => h (List.mem_cons_of_mem x hm)]

/-- Either there is no separator or there is a first one. -/
theorem first_line (sep : α) (s : List α) :
    sep ∉ s ∨ ∃ l t, sep ∉ l ∧ s = l ++ sep :: t := by
  by_cases h : sep ∈ s
  · obtain ⟨l, t, rfl, hl⟩ := List.eq_append_cons_of_mem h
    exact .inr ⟨l, t, hl, rfl⟩
  · exact .inl h

/-- Case by case along the lines of a stream. -/
theorem lines_induction (sep : α) {P : List α → Prop} (hrest : ∀ s, sep ∉ s → P s)
    (hline : ∀ l t, sep ∉ l → P t → P (l ++ sep :: t)) (s : List α) : P s := by
  induction hn : s.length using Nat.strongRecOn generalizing s with
  | _ n ih =>
    rcases first_line sep s with h | ⟨l, t, hl, rfl⟩
    · exact hrest s h
    · refine hline l t hl (ih t.length ?_ t rfl)
      rw [← hn, List.length_append, List.length_cons]
      omega

theorem not_mem_rest (s : List α) : sep ∉ (splitLines sep s).2 := by
  induction s using lines_induction sep with
  | hrest s h => rwa [splitLines_of_not_mem h]
  | hline l t hl ih => rwa [splitLines_line hl]

/-- **A reader who keeps the rest sees the lines of the whole stream.** -/
theorem splitLines_append (s t : List α) :
    splitLines sep (s ++ t) =
      ((splitLines sep s).1 ++ (splitLines sep ((splitLines sep s).2 ++ t)).1,
        (splitLines sep ((splitLines sep s).2 ++ t)).2) := by
  induction s using lines_induction sep with
  | hrest s h =>
    rw [splitLines_of_not_mem h]
    rfl
  | hline l u hl ih =>
    rw [List.append_assoc, List.cons_append, splitLines_line hl, splitLines_line hl, ih]
    rfl

/-- The first line goes on with what was kept of it. -/
theorem length_le_of_first_line {r t l : List α} {ls : List (List α)} (hr : sep ∉ r)
    (h : (splitLines sep (r ++ t)).1 = l :: ls) : r.length ≤ l.length := by
  rw [splitLines_append, splitLines_of_not_mem hr] at h
  rcases first_line sep t with ht | ⟨l', u, hl', rfl⟩
  · have hnone : sep ∉ r ++ t := fun hm => (List.mem_append.mp hm).elim hr ht
    rw [splitLines_of_not_mem hnone] at h
    exact absurd h (by simp)
  · have hl : sep ∉ r ++ l' := fun hm => (List.mem_append.mp hm).elim hr hl'
    rw [← List.append_assoc, splitLines_line hl] at h
    obtain rfl := (List.cons.inj h).1
    rw [List.length_append]
    exact Nat.le_add_right _ _

/-- What is put before the first line makes it longer, and nothing else. -/
theorem splitLines_prepend {r s l : List α} {ls : List (List α)} (hr : sep ∉ r)
    (h : (splitLines sep s).1 = l :: ls) :
    splitLines sep (r ++ s) = ((r ++ l) :: ls, (splitLines sep s).2) := by
  rcases first_line sep s with hs | ⟨l', u, hl', rfl⟩
  · rw [splitLines_of_not_mem hs] at h
    exact absurd h (by simp)
  · have hl : sep ∉ r ++ l' := fun hm => (List.mem_append.mp hm).elim hr hl'
    rw [splitLines_line hl'] at h ⊢
    obtain ⟨rfl, rfl⟩ := List.cons.inj h
    rw [← List.append_assoc, splitLines_line hl]

/-- No line is complete, so there is no separator. -/
theorem splitLines_of_no_lines {s : List α} (h : (splitLines sep s).1 = []) : sep ∉ s := by
  rcases first_line sep s with hs | ⟨l, t, hl, rfl⟩
  · exact hs
  · rw [splitLines_line hl] at h
    exact absurd h (by simp)

end

/-! ## Places -/

/-- Every line with the place where it starts, the first one at `start`. -/
def numbered (start : ℕ) : List (List α) → List (ℕ × List α)
  | [] => []
  | l :: ls => (start, l) :: numbered (start + l.length + 1) ls

/-- Where the line after these starts. -/
def after (start : ℕ) (ls : List (List α)) : ℕ :=
  ls.foldl (fun n l => n + l.length + 1) start

@[simp]
theorem after_nil (start : ℕ) : after start ([] : List (List α)) = start := rfl

@[simp]
theorem after_cons (start : ℕ) (l : List α) (ls : List (List α)) :
    after start (l :: ls) = after (start + l.length + 1) ls := rfl

theorem numbered_append (start : ℕ) (ls ls' : List (List α)) :
    numbered start (ls ++ ls') = numbered start ls ++ numbered (after start ls) ls' := by
  induction ls generalizing start with
  | nil => rfl
  | cons l ls ih => simp [numbered, ih]

theorem le_after (start : ℕ) (ls : List (List α)) : start ≤ after start ls := by
  induction ls generalizing start with
  | nil => exact Nat.le_refl _
  | cons l ls ih =>
    have := ih (start + l.length + 1)
    rw [after_cons]
    omega

/-- A line starts where it is said to and ends before the next. -/
theorem bounds_of_mem_numbered {start : ℕ} {ls : List (List α)} {p : ℕ × List α}
    (h : p ∈ numbered start ls) : start ≤ p.1 ∧ p.1 + p.2.length < after start ls := by
  induction ls generalizing start with
  | nil => exact absurd h List.not_mem_nil
  | cons l ls ih =>
    rw [after_cons]
    rcases List.mem_cons.mp h with rfl | h
    · have := le_after (start + l.length + 1) ls
      exact ⟨Nat.le_refl _, by show start + l.length < _; omega⟩
    · have := ih h
      omega

/-- The rest starts after the last line. -/
theorem after_splitLines [DecidableEq α] (sep : α) (start : ℕ) (s : List α) :
    after start (splitLines sep s).1 + (splitLines sep s).2.length = start + s.length := by
  induction s using lines_induction sep generalizing start with
  | hrest s h => rw [splitLines_of_not_mem h, after_nil]
  | hline l t hl ih =>
    rw [splitLines_line hl, after_cons, ih, List.length_append, List.length_cons]
    omega

end Argunix.Lib
