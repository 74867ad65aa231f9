import Mathlib.Data.List.Sort
import Mathlib.Order.MinMax

/-!
# The newest of each group

A table that is only ever appended to has increasing keys, and the newest row of a group is its last
one. A query that has no better means selects it with a correlated subquery: the rows whose key is
the maximum over the rows of their own group. `filter_perGroup` says that it selects the last row of
each group; the order of the answer does not matter for that (`eq_toList_of_perm`).
-/

set_option autoImplicit false

namespace Argunix.Lib

variable {α κ K : Type} [DecidableEq κ] [LinearOrder K]

/-- The last row of a group. -/
def newest (f : α → κ) (k : κ) (l : List α) : Option α := (l.filter fun x => f x = k).getLast?

/-- `key = (SELECT MAX(key) … WHERE f = x.f)` -/
def perGroup (key : α → K) (f : α → κ) (l : List α) : List α :=
  l.filter fun x => some (key x) = ((l.filter fun y => f y = f x).map key).max?

variable {key : α → K} {f : α → κ} {k : κ} {l : List α} {x : α}

/-- With increasing keys the maximum is the last one. -/
theorem max?_of_increasing (h : l.Pairwise fun a b => key a < key b) :
    (l.map key).max? = l.getLast?.map key := by
  have hmax : Std.LawfulOrderMax K := .of_max_le_iff (fun _ _ _ => max_le_iff) max_choice
  rcases List.eq_nil_or_concat l with rfl | ⟨l', x, rfl⟩
  · rfl
  · rw [List.concat_eq_append, List.getLast?_concat, Option.map_some, List.max?_eq_some_iff]
    refine ⟨List.mem_map_of_mem (by simp), ?_⟩
    intro b hb
    obtain ⟨a, ha, rfl⟩ := List.mem_map.mp hb
    rw [List.concat_eq_append, List.pairwise_append] at h
    rcases List.mem_append.mp ha with ha | ha
    · exact (h.2.2 a ha x (by simp)).le
    · rw [List.mem_singleton.mp ha]

/-- The rows with the key of the last one: itself. -/
theorem filter_last_of_increasing (h : l.Pairwise fun a b => key a < key b) :
    (l.filter fun x => some (key x) = l.getLast?.map key) = l.getLast?.toList := by
  rcases List.eq_nil_or_concat l with rfl | ⟨l', x, rfl⟩
  · rfl
  · rw [List.concat_eq_append, List.pairwise_append] at h
    rw [List.concat_eq_append, List.getLast?_concat, Option.map_some, List.filter_append]
    have hnone : (l'.filter fun y => some (key y) = some (key x)) = [] := by
      rw [List.filter_eq_nil_iff]
      intro y hy heq
      have hkey : key y = key x := by simpa using heq
      exact absurd hkey (h.2.2 y hy x (by simp)).ne
    rw [hnone]
    simp

/-- **The subquery selects the last row of each group.** -/
theorem filter_perGroup (h : l.Pairwise fun a b => key a < key b) :
    (perGroup key f l).filter (fun x => f x = k) = (newest f k l).toList := by
  rw [perGroup, List.filter_comm, newest, ← filter_last_of_increasing (h.filter _),
    List.filter_congr]
  intro x hx
  have hk : f x = k := by simpa using (List.mem_filter.mp hx).2
  rw [hk, max?_of_increasing (h.filter _)]

theorem newest_eq_none : newest f k l = none ↔ ∀ x ∈ l, f x ≠ k := by
  simp [newest]

theorem newest_mem (h : newest f k l = some x) : x ∈ l ∧ f x = k := by
  have hx := List.mem_of_getLast? h
  simpa using hx

/-- A group that has a row has a newest one. -/
theorem exists_newest (hx : x ∈ l) : ∃ y, newest f (f x) l = some y := by
  rw [← Option.isSome_iff_exists, ← Option.ne_none_iff_isSome]
  intro hnone
  exact newest_eq_none.mp hnone x hx rfl

/-- Two lists without a common row have the same newest rows only if they have none. -/
theorem newest_eq_iff_of_disjoint {l l' : List α} (h : ∀ x ∈ l, x ∉ l') :
    (∀ k, newest f k l = newest f k l') ↔ l = [] ∧ l' = [] := by
  constructor
  · intro heq
    refine ⟨List.eq_nil_iff_forall_not_mem.mpr ?_, List.eq_nil_iff_forall_not_mem.mpr ?_⟩
    · intro x hx
      obtain ⟨y, hy⟩ := exists_newest (f := f) hx
      exact h y (newest_mem hy).1 (newest_mem ((heq _).symm.trans hy)).1
    · intro x hx
      obtain ⟨y, hy⟩ := exists_newest (f := f) hx
      exact h y (newest_mem ((heq _).trans hy)).1 (newest_mem hy).1
  · rintro ⟨rfl, rfl⟩ k
    rfl

/-- A list of one row or none has one order. -/
theorem eq_toList_of_perm {o : Option α} (h : l.Perm o.toList) : l = o.toList := by
  cases o with
  | none => exact List.Perm.eq_nil h
  | some x => exact List.perm_singleton.mp h

end Argunix.Lib
