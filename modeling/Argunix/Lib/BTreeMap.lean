import Mathlib.Data.List.Sort
import Mathlib.Data.List.Perm.Basic

/-!
# Maps in key order

An ordered map is its list of entries in key order, which is the order of its iteration. `alter`
is `entry(k)` with what is then done to the value; insertion is the case that forgets the old one.

What is read off a map is mostly a list made of its entries one after the other.
`perm_flatMap_alter` says that one `alter` adds one item to such a list, up to the order, if it does
so under its own key.
-/

set_option autoImplicit false

namespace Argunix.Lib

structure BTreeMap (K V : Type) [LinearOrder K] where
  entries : List (K × V)
  sorted : (entries.map Prod.fst).Pairwise (· < ·)

namespace BTreeMap

variable {K V : Type} [LinearOrder K]

instance : EmptyCollection (BTreeMap K V) := ⟨⟨[], .nil⟩⟩

/-- The entries after `entry(k)`; `f` is given the old value, if there is one. -/
def alterEntries (k : K) (f : Option V → V) : List (K × V) → List (K × V)
  | [] => [(k, f none)]
  | (k', v) :: rest =>
    if k < k' then (k, f none) :: (k', v) :: rest
    else if k = k' then (k, f (some v)) :: rest
    else (k', v) :: alterEntries k f rest

variable {k k' : K} {f : Option V → V} {l : List (K × V)}

theorem mem_keys_alterEntries :
    k' ∈ (alterEntries k f l).map Prod.fst ↔ k' = k ∨ k' ∈ l.map Prod.fst := by
  induction l with
  | nil => simp [alterEntries]
  | cons e l ih =>
    obtain ⟨k'', v⟩ := e
    unfold alterEntries
    split_ifs with h h'
    · simp
    · subst h'
      simp
    · simp only [List.map_cons, List.mem_cons, ih]
      tauto

theorem sorted_alterEntries (h : (l.map Prod.fst).Pairwise (· < ·)) :
    ((alterEntries k f l).map Prod.fst).Pairwise (· < ·) := by
  induction l with
  | nil => simp [alterEntries]
  | cons e l ih =>
    obtain ⟨k'', v⟩ := e
    rw [List.map_cons, List.pairwise_cons] at h
    unfold alterEntries
    split_ifs with hlt heq
    · rw [List.map_cons, List.map_cons, List.pairwise_cons, List.pairwise_cons]
      refine ⟨fun x hx => ?_, h⟩
      rcases List.mem_cons.mp hx with rfl | hx
      · exact hlt
      · exact hlt.trans (h.1 x hx)
    · subst heq
      rw [List.map_cons, List.pairwise_cons]
      exact h
    · rw [List.map_cons, List.pairwise_cons]
      refine ⟨fun x hx => ?_, ih h.2⟩
      rcases mem_keys_alterEntries.mp hx with rfl | hx
      · exact lt_of_le_of_ne (not_lt.mp hlt) fun heq' => heq heq'.symm
      · exact h.1 x hx

/-- `entry(k)` -/
def alter (m : BTreeMap K V) (k : K) (f : Option V → V) : BTreeMap K V where
  entries := alterEntries k f m.entries
  sorted := sorted_alterEntries m.sorted

def insert (m : BTreeMap K V) (k : K) (v : V) : BTreeMap K V := m.alter k fun _ => v

theorem nodup_keys (m : BTreeMap K V) : (m.entries.map Prod.fst).Nodup :=
  m.sorted.imp fun h => h.ne

variable {β : Type} {g : K × V → List β} {x : β}

/-- **One item more.** -/
theorem perm_flatMap_alter {m : BTreeMap K V} (hnone : g (k, f none) = [x])
    (hsome : ∀ v, (k, v) ∈ m.entries → (g (k, f (some v))).Perm (x :: g (k, v))) :
    ((m.alter k f).entries.flatMap g).Perm (x :: m.entries.flatMap g) := by
  obtain ⟨l, hl⟩ := m
  simp only [alter] at hsome ⊢
  clear hl
  induction l with
  | nil => simp [alterEntries, hnone]
  | cons e l ih =>
    obtain ⟨k', v⟩ := e
    unfold alterEntries
    split_ifs with hlt heq
    · simp [hnone]
    · subst heq
      exact (hsome v (by simp)).append_right (l.flatMap g)
    · have ih := ih fun v hv => hsome v (List.mem_cons_of_mem _ hv)
      exact (ih.append_left (g (k', v))).trans List.perm_middle

/-- What an `alter` puts into the list is the new item or was there. -/
theorem mem_flatMap_alter {m : BTreeMap K V} {y : β} (hnone : g (k, f none) = [x])
    (hsome : ∀ v, (k, v) ∈ m.entries → y ∈ g (k, f (some v)) → y = x ∨ y ∈ g (k, v))
    (hy : y ∈ (m.alter k f).entries.flatMap g) : y = x ∨ y ∈ m.entries.flatMap g := by
  obtain ⟨l, hl⟩ := m
  simp only [alter] at hsome hy ⊢
  clear hl
  induction l with
  | nil => exact .inl (by simpa [alterEntries, hnone] using hy)
  | cons e l ih =>
    obtain ⟨k', v⟩ := e
    unfold alterEntries at hy
    rw [List.flatMap_cons, List.mem_append]
    split_ifs at hy with hlt heq
    · rw [List.flatMap_cons, hnone, List.mem_append, List.mem_singleton, List.flatMap_cons,
        List.mem_append] at hy
      exact hy
    · subst heq
      rw [List.flatMap_cons, List.mem_append] at hy
      rcases hy with hy | hy
      · rcases hsome v (by simp) hy with h | h
        · exact .inl h
        · exact .inr (.inl h)
      · exact .inr (.inr hy)
    · rw [List.flatMap_cons, List.mem_append] at hy
      rcases hy with hy | hy
      · exact .inr (.inl hy)
      · rcases ih (fun v hv => hsome v (List.mem_cons_of_mem _ hv)) hy with h | h
        · exact .inl h
        · exact .inr (.inr h)

end BTreeMap

end Argunix.Lib
