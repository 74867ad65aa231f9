import Mathlib.Data.List.Sort
import Mathlib.Data.List.Forall2

/-!
# Grouping into an ordered map

`entry(k).or_default().push(x)` on an ordered map from keys to vectors, over a whole list of
items. The map is its list of entries in key order, which is also the order in which it is
iterated; a vector keeps its items in the order they came.

`group_eq` says what the loop builds, and `forall₂_group` compares two groupings: where the keys
that are kept agree, and the items under each of them are related, so are the maps, entry by entry.
-/

set_option autoImplicit false

namespace Argunix.Lib

variable {K α : Type} [LinearOrder K]

/-- `entry(k).or_default().push(x)` -/
def push (k : K) (x : α) : List (K × List α) → List (K × List α)
  | [] => [(k, [x])]
  | (k', xs) :: rest =>
    if k = k' then (k', xs ++ [x]) :: rest
    else if k < k' then (k, [x]) :: (k', xs) :: rest
    else (k', xs) :: push k x rest

/-- The loop over the items. -/
def group (f : α → K) (xs : List α) : List (K × List α) :=
  xs.foldl (fun m x => push (f x) x m) []

/-- The items under one key. -/
def under (f : α → K) (k : K) (xs : List α) : List α := xs.filter fun x => f x = k

/-- The entries the loop has built from these items. -/
structure Grouped (f : α → K) (xs : List α) (m : List (K × List α)) : Prop where
  sorted : (m.map Prod.fst).Pairwise (· < ·)
  keys : ∀ k, k ∈ m.map Prod.fst ↔ k ∈ xs.map f
  items : ∀ e ∈ m, e.2 = under f e.1 xs

theorem keys_push (k : K) (x : α) (m : List (K × List α)) (k₀ : K) :
    k₀ ∈ (push k x m).map Prod.fst ↔ k₀ = k ∨ k₀ ∈ m.map Prod.fst := by
  induction m with
  | nil => simp [push]
  | cons e rest ih =>
    obtain ⟨k', xs⟩ := e
    unfold push
    split
    · rename_i hk
      simp [hk]
    · split
      · simp
      · rw [List.map_cons, List.mem_cons, ih, List.map_cons, List.mem_cons]
        tauto

theorem sorted_push {k : K} {x : α} {m : List (K × List α)}
    (h : (m.map Prod.fst).Pairwise (· < ·)) : ((push k x m).map Prod.fst).Pairwise (· < ·) := by
  induction m with
  | nil => simp [push]
  | cons e rest ih =>
    obtain ⟨k', xs⟩ := e
    obtain ⟨hlt, hrest⟩ := List.pairwise_cons.mp h
    unfold push
    split
    · exact h
    · rename_i hne
      split
      · rename_i hk
        refine List.pairwise_cons.mpr ⟨fun k₀ hk₀ => ?_, h⟩
        rcases List.mem_cons.mp hk₀ with rfl | hk₀
        · exact hk
        · exact hk.trans (hlt k₀ hk₀)
      · rename_i hk
        refine List.pairwise_cons.mpr ⟨fun k₀ hk₀ => ?_, ih hrest⟩
        rcases (keys_push k x rest k₀).mp hk₀ with rfl | hk₀
        · exact lt_of_le_of_ne (not_lt.mp hk) (Ne.symm hne)
        · exact hlt k₀ hk₀

theorem mem_push {k : K} {x : α} {m : List (K × List α)} {e : K × List α}
    (h : (m.map Prod.fst).Pairwise (· < ·)) (he : e ∈ push k x m) :
    (e.1 ≠ k ∧ e ∈ m) ∨ (e = (k, [x]) ∧ k ∉ m.map Prod.fst) ∨
      ∃ xs, (k, xs) ∈ m ∧ e = (k, xs ++ [x]) := by
  induction m with
  | nil => exact Or.inr (Or.inl ⟨by simpa [push] using he, by simp⟩)
  | cons e' rest ih =>
    obtain ⟨k', xs⟩ := e'
    obtain ⟨hlt, hrest⟩ := List.pairwise_cons.mp h
    unfold push at he
    split at he
    · rename_i hk
      subst hk
      rcases List.mem_cons.mp he with rfl | he
      · exact Or.inr (Or.inr ⟨xs, by simp, rfl⟩)
      · exact Or.inl ⟨(hlt e.1 (List.mem_map_of_mem he)).ne', List.mem_cons_of_mem _ he⟩
    · rename_i hne
      split at he
      · rename_i hk
        -- a new key, below all the others
        have hnew : ∀ k₀ ∈ k' :: rest.map Prod.fst, k < k₀ := by
          intro k₀ hk₀
          rcases List.mem_cons.mp hk₀ with rfl | hk₀
          · exact hk
          · exact hk.trans (hlt k₀ hk₀)
        rcases List.mem_cons.mp he with rfl | he
        · exact Or.inr (Or.inl ⟨rfl, fun hmem => lt_irrefl k (hnew k hmem)⟩)
        · exact Or.inl ⟨(hnew e.1 (List.mem_map_of_mem he)).ne', he⟩
      · rcases List.mem_cons.mp he with rfl | he
        · exact Or.inl ⟨Ne.symm hne, by simp⟩
        · rcases ih hrest he with ⟨hek, he⟩ | ⟨rfl, hnot⟩ | ⟨ys, hys, rfl⟩
          · exact Or.inl ⟨hek, List.mem_cons_of_mem _ he⟩
          · refine Or.inr (Or.inl ⟨rfl, fun hmem => ?_⟩)
            rcases List.mem_cons.mp hmem with heq | hmem
            · exact hne heq
            · exact hnot hmem
          · exact Or.inr (Or.inr ⟨ys, List.mem_cons_of_mem _ hys, rfl⟩)

theorem Grouped.push {f : α → K} {xs : List α} {m : List (K × List α)} (h : Grouped f xs m)
    (x : α) : Grouped f (xs ++ [x]) (push (f x) x m) := by
  refine ⟨sorted_push h.sorted, fun k => ?_, fun e he => ?_⟩
  · rw [keys_push, h.keys, List.map_append, List.mem_append, List.map_singleton,
      List.mem_singleton]
    tauto
  · have hother : ∀ k, k ≠ f x → under f k (xs ++ [x]) = under f k xs := by
      intro k hk
      simp [under, Ne.symm hk]
    have hsame : under f (f x) (xs ++ [x]) = under f (f x) xs ++ [x] := by simp [under]
    rcases mem_push h.sorted he with ⟨hk, he⟩ | ⟨rfl, hnot⟩ | ⟨ys, hys, rfl⟩
    · rw [hother e.1 hk]
      exact h.items e he
    · have hnone : under f (f x) xs = [] := by
        rw [under, List.filter_eq_nil_iff]
        intro y hy heq
        exact hnot ((h.keys _).mpr (List.mem_map.mpr ⟨y, hy, by simpa using heq⟩))
      rw [hsame, hnone]
      rfl
    · rw [hsame, ← h.items _ hys]

theorem grouped_group (f : α → K) (xs : List α) : Grouped f xs (group f xs) := by
  have hfold : ∀ (ys seen : List α) (m : List (K × List α)), Grouped f seen m →
      Grouped f (seen ++ ys) (ys.foldl (fun m x => push (f x) x m) m) := by
    intro ys
    induction ys with
    | nil => exact fun seen m h => by simpa using h
    | cons y ys ih =>
      intro seen m h
      simpa using ih (seen ++ [y]) _ (h.push y)
  exact hfold xs [] [] ⟨by simp, by simp, by simp⟩

/-- **What the loop builds**: one entry for each key, in order, with the items under it. -/
theorem group_eq (f : α → K) (xs : List α) :
    group f xs = ((group f xs).map Prod.fst).map fun k => (k, under f k xs) := by
  rw [List.map_map]
  conv_lhs => rw [← List.map_id (group f xs)]
  refine List.map_congr_left fun e he => ?_
  exact Prod.ext rfl ((grouped_group f xs).items e he)

/-- Pushing parts of the items fills the map with parts of the vectors. -/
theorem map_push {β : Type} (g : α → β) (k : K) (x : α) (m : List (K × List α)) :
    (push k x m).map (fun e => (e.1, e.2.map g)) =
      push k (g x) (m.map fun e => (e.1, e.2.map g)) := by
  induction m with
  | nil => rfl
  | cons e rest ih =>
    obtain ⟨k', xs⟩ := e
    simp only [List.map_cons, push]
    split
    · simp
    · split
      · rfl
      · rw [List.map_cons, ih]

theorem map_group {β : Type} (g : α → β) (f : α → K) (xs : List α) :
    (group f xs).map (fun e => (e.1, e.2.map g)) =
      xs.foldl (fun m x => push (f x) (g x) m) [] := by
  have hfold : ∀ (ys : List α) (m : List (K × List α)),
      (ys.foldl (fun m x => push (f x) x m) m).map (fun e => (e.1, e.2.map g)) =
        ys.foldl (fun m x => push (f x) (g x) m) (m.map fun e => (e.1, e.2.map g)) := by
    intro ys
    induction ys with
    | nil => exact fun m => rfl
    | cons y ys ih =>
      intro m
      rw [List.foldl_cons, List.foldl_cons, ih, map_push]
  exact hfold xs []

theorem filter_group (f : α → K) (xs : List α) (p : List α → Bool) :
    (group f xs).filter (fun e => p e.2) =
      (((group f xs).map Prod.fst).filter fun k => p (under f k xs)).map
        fun k => (k, under f k xs) := by
  conv_lhs => rw [group_eq f xs]
  exact List.filter_map

/-- **Two groupings, entry by entry.** -/
theorem forall₂_group {β : Type} {f : α → K} {g : β → K} {xs : List α} {ys : List β}
    {p : List α → Bool} {q : List β → Bool} {R : K × List α → K × List β → Prop}
    (hkeep : ∀ k, (k ∈ xs.map f ∧ p (under f k xs) = true) ↔
      (k ∈ ys.map g ∧ q (under g k ys) = true))
    (hR : ∀ k, p (under f k xs) = true → R (k, under f k xs) (k, under g k ys)) :
    List.Forall₂ R ((group f xs).filter fun e => p e.2) ((group g ys).filter fun e => q e.2) := by
  have hf := grouped_group f xs
  have hg := grouped_group g ys
  have hkeys : ((group f xs).map Prod.fst).filter (fun k => p (under f k xs)) =
      ((group g ys).map Prod.fst).filter fun k => q (under g k ys) := by
    refine (hf.sorted.filter _).eq_of_mem_iff (hg.sorted.filter _) fun k => ?_
    rw [List.mem_filter, List.mem_filter, hf.keys, hg.keys]
    exact hkeep k
  rw [filter_group, filter_group, hkeys, List.forall₂_map_left_iff, List.forall₂_map_right_iff,
    List.forall₂_same]
  intro k hk
  rw [← hkeys] at hk
  exact hR k (List.mem_filter.mp hk).2

end Argunix.Lib
