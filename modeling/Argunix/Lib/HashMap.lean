import Mathlib.Data.List.AList
import Mathlib.Algebra.BigOperators.Group.List.Basic
import Mathlib.Algebra.Order.Ring.Nat
import Mathlib.Data.List.Count

/-!
# Hash maps, with their iteration order

A hash map of a systems language is a finite map *plus* an iteration order that the
program does not control: it depends on the hash seed and on the insertion history. The
order matters exactly where the program folds over the map or takes the first entry that
satisfies a predicate, so it has to be in the model, and it has to be arbitrary.

`HashMap K V` is Mathlib's `AList`: a list of entries with pairwise distinct keys. The
entry list **is** the iteration order of the moment. `Shuffle` is the relation "the same
map, iterated in another order"; a transition system that may take a `Shuffle` before any
of its operations ranges over every order a hash function could have produced. Everything
that is stated through `lookup` is untouched by it (`Shuffle.lookup`).

What Mathlib does not have, and this file adds, is the in-place update `modify` (a mutable
borrow of one value keeps the iteration order, where `AList.insert` moves the key to the
front) and the sum of a weight over all entries, which is how counting invariants over a
whole map are stated.
-/

set_option autoImplicit false

namespace Argunix.Lib

/-- A finite map together with the order in which it is currently iterated. -/
abbrev HashMap (K V : Type) := AList (fun _ : K => V)

namespace HashMap

variable {K V : Type}

/-- The same entries, iterated in some other order. -/
def Shuffle (m m' : HashMap K V) : Prop := m.entries.Perm m'.entries

theorem Shuffle.refl (m : HashMap K V) : Shuffle m m := List.Perm.refl _

/-- The values, in iteration order. -/
def values (m : HashMap K V) : List V := m.entries.map Sigma.snd

/-- Sum of a weight over all entries. -/
def sumOver (w : K → V → ℕ) (m : HashMap K V) : ℕ :=
  (m.entries.map fun e => w e.1 e.2).sum

theorem sumOver_shuffle {w : K → V → ℕ} {m m' : HashMap K V} (h : Shuffle m m') :
    sumOver w m = sumOver w m' :=
  (h.map _).sum_eq

variable [DecidableEq K]

theorem Shuffle.lookup {m m' : HashMap K V} (h : Shuffle m m') (k : K) :
    m.lookup k = m'.lookup k :=
  AList.perm_lookup h

/-- `get_mut`: rewrite the value under one key in place, keeping the iteration order. -/
def modify (k : K) (f : V → V) (m : HashMap K V) : HashMap K V :=
  ⟨m.entries.map fun e => ⟨e.1, if e.1 = k then f e.2 else e.2⟩,
    m.nodupKeys.map₂ (fun a v => if a = k then f v else v)⟩

/-- `values_mut`: rewrite every value in place. -/
def mapValues (f : V → V) (m : HashMap K V) : HashMap K V :=
  ⟨m.entries.map fun e => ⟨e.1, f e.2⟩, m.nodupKeys.map₂ (fun _ v => f v)⟩

/-- `retain`: keep the entries that satisfy the predicate. -/
def retain (f : K → V → Bool) (m : HashMap K V) : HashMap K V :=
  ⟨m.entries.filter fun e => f e.1 e.2, m.nodupKeys.sublist List.filter_sublist⟩

/-! ## `lookup` after each update

One spelling for all three updates, an `if` on the key, so that a proof splits on the key
once and never on the shape of the map. -/

theorem lookup_modify (k k' : K) (f : V → V) (m : HashMap K V) :
    (m.modify k f).lookup k' = if k' = k then (m.lookup k).map f else m.lookup k' := by
  have h : (m.modify k f).lookup k' = (m.lookup k').map (fun v => if k' = k then f v else v) :=
    List.dlookup_map₂ (f := fun a v => if a = k then f v else v) k'
  rw [h]
  by_cases hk : k' = k
  · subst hk
    simp
  · simp [hk]

theorem lookup_modify_cases {m : HashMap K V} {k d : K} {f : V → V} {v' : V}
    (h : (m.modify k f).lookup d = some v') :
    (d = k ∧ ∃ v, m.lookup d = some v ∧ v' = f v) ∨ (d ≠ k ∧ m.lookup d = some v') := by
  rw [HashMap.lookup_modify] at h
  by_cases hd : d = k
  · subst hd
    simp only [if_true, Option.map_eq_some_iff] at h
    obtain ⟨v, hl, rfl⟩ := h
    exact Or.inl ⟨rfl, v, hl, rfl⟩
  · rw [if_neg hd] at h
    exact Or.inr ⟨hd, h⟩

theorem lookup_modify_self {m : HashMap K V} {k : K} {f : V → V} {v : V}
    (h : m.lookup k = some v) : (m.modify k f).lookup k = some (f v) := by
  rw [HashMap.lookup_modify, if_pos rfl, h]
  rfl

theorem lookup_modify_ne {m : HashMap K V} {k d : K} {f : V → V} (h : d ≠ k) :
    (m.modify k f).lookup d = m.lookup d := by
  rw [HashMap.lookup_modify, if_neg h]

theorem exists_lookup_modify {m : HashMap K V} {k d : K} (f : V → V)
    (h : ∃ v, m.lookup d = some v) : ∃ v, (m.modify k f).lookup d = some v := by
  obtain ⟨v, hl⟩ := h
  by_cases hd : d = k
  · subst hd
    exact ⟨_, lookup_modify_self hl⟩
  · exact ⟨v, by rw [lookup_modify_ne hd, hl]⟩

theorem map_modify_of_view {α : Type} {m : HashMap K V} {f : V → V} {g : V → α}
    (hf : ∀ v, g (f v) = g v) (k d : K) :
    ((m.modify k f).lookup d).map g = (m.lookup d).map g := by
  rw [HashMap.lookup_modify]
  by_cases hd : d = k
  · subst hd
    simp [Function.comp_def, hf]
  · rw [if_neg hd]

/-- An update that leaves the value as it is leaves the map as it is. -/
theorem modify_eq_self {m : HashMap K V} {k : K} {f : V → V} (h : ∀ v ∈ m.lookup k, f v = v) :
    m.modify k f = m := by
  refine AList.ext ?_
  have hid : ∀ e ∈ m.entries,
      (⟨e.1, if e.1 = k then f e.2 else e.2⟩ : Sigma fun _ : K => V) = e := by
    rintro ⟨k', v⟩ he
    by_cases hk : k' = k
    · subst hk
      simp [h v (AList.mem_lookup_iff.mpr he)]
    · simp [hk]
  exact (List.map_congr_left hid).trans (List.map_id _)

theorem lookup_insert_eq (k k' : K) (v : V) (m : HashMap K V) :
    (m.insert k v).lookup k' = if k' = k then some v else m.lookup k' := by
  by_cases hk : k' = k
  · subst hk
    simp
  · rw [if_neg hk, AList.lookup_insert_ne hk]

theorem lookup_erase_eq (k k' : K) (m : HashMap K V) :
    (m.erase k).lookup k' = if k' = k then none else m.lookup k' := by
  by_cases hk : k' = k
  · subst hk
    simp
  · rw [if_neg hk, AList.lookup_erase_ne hk]

theorem lookup_mapValues (f : V → V) (k : K) (m : HashMap K V) :
    (m.mapValues f).lookup k = (m.lookup k).map f :=
  List.dlookup_map₂ (f := fun _ v => f v) k

theorem mem_entries_iff {m : HashMap K V} {k : K} {v : V} :
    (⟨k, v⟩ : Sigma fun _ : K => V) ∈ m.entries ↔ m.lookup k = some v := by
  rw [← AList.mem_lookup_iff, Option.mem_def]

theorem lookup_retain (f : K → V → Bool) (k : K) (m : HashMap K V) :
    (m.retain f).lookup k = (m.lookup k).filter (f k) := by
  ext v
  rw [← mem_entries_iff, Option.filter_eq_some_iff, ← mem_entries_iff]
  exact List.mem_filter

/-- Quantifiers over the map are quantifiers over its entries, and so decidable. -/
theorem exists_lookup_iff {m : HashMap K V} {P : K → V → Prop} :
    (∃ k v, m.lookup k = some v ∧ P k v) ↔ ∃ e ∈ m.entries, P e.1 e.2 := by
  constructor
  · rintro ⟨k, v, hl, hp⟩
    exact ⟨⟨k, v⟩, mem_entries_iff.mpr hl, hp⟩
  · rintro ⟨⟨k, v⟩, hm, hp⟩
    exact ⟨k, v, mem_entries_iff.mp hm, hp⟩

theorem forall_lookup_iff {m : HashMap K V} {P : K → V → Prop} :
    (∀ k v, m.lookup k = some v → P k v) ↔ ∀ e ∈ m.entries, P e.1 e.2 := by
  constructor
  · exact fun h e he => h e.1 e.2 (mem_entries_iff.mp he)
  · exact fun h k v hl => h ⟨k, v⟩ (mem_entries_iff.mpr hl)

@[simp]
theorem keys_modify (k : K) (f : V → V) (m : HashMap K V) : (m.modify k f).keys = m.keys := by
  simp [AList.keys, modify, List.keys, Function.comp_def]

/-! ## Sums over all entries -/

/-- The sum, as an induction over a raw entry list sees it: one entry of a list without
    repeated keys is split off. -/
private theorem sum_split {w : K → V → ℕ} {k : K} {v : V} :
    ∀ {l : List (Sigma fun _ : K => V)}, l.NodupKeys → (⟨k, v⟩ : Sigma fun _ : K => V) ∈ l →
      ∃ rest, (l.map fun e => w e.1 e.2).sum = w k v + rest ∧
        ∀ f : V → V, (l.map fun e => w e.1 (if e.1 = k then f e.2 else e.2)).sum
          = w k (f v) + rest := by
  intro l
  induction l with
  | nil => intro _ hm; exact absurd hm (by simp)
  | cons e l ih =>
    intro hnd hm
    have hnk := List.notMem_keys_of_nodupKeys_cons hnd
    have hnd' := List.nodupKeys_of_nodupKeys_cons hnd
    rcases List.mem_cons.mp hm with rfl | hm
    · -- the entry is at the head, and no later entry has its key
      refine ⟨(l.map fun e => w e.1 e.2).sum, by simp, fun f => ?_⟩
      have hrest : (l.map fun e => w e.1 (if e.1 = k then f e.2 else e.2))
          = l.map fun e => w e.1 e.2 := by
        refine List.map_congr_left fun e he => ?_
        have hne : e.1 ≠ k := fun hek => hnk (List.mem_map.mpr ⟨e, he, hek⟩)
        rw [if_neg hne]
      simp [hrest]
    · obtain ⟨rest, h₁, h₂⟩ := ih hnd' hm
      have hne : e.1 ≠ k := fun hek => hnk (hek ▸ List.mem_map.mpr ⟨_, hm, rfl⟩)
      refine ⟨w e.1 e.2 + rest, by simp [h₁]; omega, fun f => ?_⟩
      simp only [List.map_cons, List.sum_cons, h₂ f, if_neg hne]
      omega

theorem sumOver_modify {w : K → V → ℕ} {m : HashMap K V} {k : K} {v : V}
    (h : m.lookup k = some v) (f : V → V) :
    sumOver w (m.modify k f) + w k v = sumOver w m + w k (f v) := by
  obtain ⟨rest, h₁, h₂⟩ := sum_split (w := w) m.nodupKeys (mem_entries_iff.mpr h)
  have h₃ : sumOver w (m.modify k f) = w k (f v) + rest := by
    rw [← h₂ f]
    simp [sumOver, modify, Function.comp_def]
  rw [h₃, show sumOver w m = w k v + rest from h₁]
  omega

/-- An update that does not change the weight of any value does not change the sum. -/
theorem sumOver_modify_same {w : K → V → ℕ} {k : K} {f : V → V} (h : ∀ v, w k (f v) = w k v)
    (m : HashMap K V) : sumOver w (m.modify k f) = sumOver w m := by
  unfold sumOver modify
  simp only [List.map_map, Function.comp_def]
  refine congrArg List.sum (List.map_congr_left fun e _ => ?_)
  by_cases hk : e.1 = k
  · rw [if_pos hk, hk, h]
  · rw [if_neg hk]

theorem le_sumOver {w : K → V → ℕ} {m : HashMap K V} {k : K} {v : V}
    (h : m.lookup k = some v) : w k v ≤ sumOver w m := by
  obtain ⟨rest, h₁, -⟩ := sum_split (w := w) m.nodupKeys (mem_entries_iff.mpr h)
  rw [show sumOver w m = w k v + rest from h₁]
  omega

theorem sumOver_insert_of_notMem {w : K → V → ℕ} {m : HashMap K V} {k : K}
    (h : m.lookup k = none) (v : V) : sumOver w (m.insert k v) = w k v + sumOver w m := by
  have hk : k ∉ m := AList.lookup_eq_none.mp h
  rw [sumOver, AList.entries_insert_of_notMem hk]
  simp [sumOver]

theorem sumOver_eq_zero_iff {w : K → V → ℕ} {m : HashMap K V} :
    sumOver w m = 0 ↔ ∀ k v, m.lookup k = some v → w k v = 0 := by
  constructor
  · intro h k v hk
    have := le_sumOver (w := w) hk
    omega
  · intro h
    refine List.sum_eq_zero fun x hx => ?_
    obtain ⟨e, he, rfl⟩ := List.mem_map.mp hx
    exact h e.1 e.2 (mem_entries_iff.mp he)

/-- Two weights that differ at one key only. -/
theorem sumOver_reweigh {w u : K → V → ℕ} {m : HashMap K V} {k : K} {v : V}
    (h : m.lookup k = some v) (hne : ∀ k' v', k' ≠ k → u k' v' = w k' v') :
    sumOver u m + w k v = sumOver w m + u k v := by
  have hgen : ∀ {l : List (Sigma fun _ : K => V)}, l.NodupKeys →
      (⟨k, v⟩ : Sigma fun _ : K => V) ∈ l →
      (l.map fun e => u e.1 e.2).sum + w k v = (l.map fun e => w e.1 e.2).sum + u k v := by
    intro l
    induction l with
    | nil => intro _ hm; exact absurd hm (by simp)
    | cons e l ih =>
      intro hnd hm
      have hnk := List.notMem_keys_of_nodupKeys_cons hnd
      rcases List.mem_cons.mp hm with rfl | hm
      · have hrest : (l.map fun e => u e.1 e.2) = l.map fun e => w e.1 e.2 := by
          refine List.map_congr_left fun e he => hne _ _ fun hek => hnk ?_
          exact List.mem_map.mpr ⟨e, he, hek⟩
        simp only [List.map_cons, List.sum_cons, hrest]
        omega
      · have hek : e.1 ≠ k := fun hek => hnk (hek ▸ List.mem_map.mpr ⟨_, hm, rfl⟩)
        have := ih (List.nodupKeys_of_nodupKeys_cons hnd) hm
        simp only [List.map_cons, List.sum_cons, hne _ _ hek]
        omega
  exact hgen m.nodupKeys (mem_entries_iff.mpr h)

theorem sumOver_congr {w w' : K → V → ℕ} {m : HashMap K V}
    (h : ∀ k v, m.lookup k = some v → w k v = w' k v) : sumOver w m = sumOver w' m := by
  refine congrArg List.sum (List.map_congr_left fun e he => ?_)
  exact h e.1 e.2 (mem_entries_iff.mp he)

/-- An insertion that changes no value moves the entry to the front. -/
theorem shuffle_insert {m : HashMap K V} {k : K} {v : V} (h : m.lookup k = some v) :
    Shuffle m (m.insert k v) := by
  refine List.lookup_ext m.nodupKeys (m.insert k v).nodupKeys fun k' v' => ?_
  have heq : (m.insert k v).lookup k' = m.lookup k' := by
    rw [lookup_insert_eq]
    split
    · rename_i hk
      rw [hk, h]
    · rfl
  exact (congrArg (v' ∈ ·) heq).symm ▸ Iff.rfl

/-- Some iteration order starts with any given entry. -/
theorem exists_shuffle_cons {m : HashMap K V} {k : K} {v : V} (h : m.lookup k = some v) :
    ∃ (m' : HashMap K V) (l : List (Sigma fun _ : K => V)), Shuffle m m' ∧
      m'.entries = ⟨k, v⟩ :: l :=
  ⟨m.insert k v, m.entries.kerase k, shuffle_insert h, AList.entries_insert⟩

/-- An insertion is one after the key was erased. -/
theorem sumOver_insert {w : K → V → ℕ} (k : K) (v : V) (m : HashMap K V) :
    sumOver w (m.insert k v) = w k v + sumOver w (m.erase k) := by
  rw [sumOver, AList.entries_insert]
  rfl

theorem sumOver_erase {w : K → V → ℕ} {m : HashMap K V} {k : K} {v : V}
    (h : m.lookup k = some v) : sumOver w (m.erase k) + w k v = sumOver w m := by
  rw [sumOver_shuffle (shuffle_insert h), sumOver_insert, Nat.add_comm]

omit [DecidableEq K] in
/-- What is kept and what is not make up the whole. -/
theorem sumOver_retain (w : K → V → ℕ) (f : K → V → Bool) (m : HashMap K V) :
    sumOver w (m.retain f) + sumOver (fun k v => if f k v then 0 else w k v) m = sumOver w m := by
  have hlist : ∀ l : List (Sigma fun _ : K => V),
      ((l.filter fun e => f e.1 e.2).map fun e => w e.1 e.2).sum +
        (l.map fun e => if f e.1 e.2 then 0 else w e.1 e.2).sum =
          (l.map fun e => w e.1 e.2).sum := by
    intro l
    induction l with
    | nil => rfl
    | cons e l ih =>
      rw [List.filter_cons]
      cases he : f e.1 e.2 <;> simp [he] <;> omega
  exact hlist m.entries

omit [DecidableEq K] in
theorem sumOver_mapValues {w : K → V → ℕ} {f : V → V} (h : ∀ k v, w k (f v) = w k v)
    (m : HashMap K V) : sumOver w (m.mapValues f) = sumOver w m := by
  unfold sumOver mapValues
  rw [List.map_map]
  exact congrArg List.sum (List.map_congr_left fun e _ => h e.1 e.2)

theorem lookup_foldl_insert {A : Type} (key : A → K) (l : List A)
    (m : HashMap K A) (k : K) :
    (l.foldl (fun m a => m.insert (key a) a) m).lookup k =
      (l.reverse.find? fun a => key a = k).or (m.lookup k) := by
  induction l generalizing m with
  | nil => rfl
  | cons a l ih =>
    rw [List.foldl_cons, ih, List.reverse_cons, List.find?_append, Option.or_assoc,
      HashMap.lookup_insert_eq, List.find?_singleton]
    by_cases hk : key a = k
    · simp [hk]
    · simp [hk, Ne.symm hk]

end HashMap

end Argunix.Lib
