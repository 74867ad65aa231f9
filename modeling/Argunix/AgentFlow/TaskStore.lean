import Argunix.AgentFlow.Scheduler

/-!
# AgentFlow: listing tasks

`MemoryTaskStore` keeps the tasks in a `HashMap` by id, and `list_tasks` filters what the map
iterates over. The order of that is nowhere said, but it stays the same until the map is changed,
and so it is an argument here.

Two things are missing. `created_after` and `created_before` are fields of the filter that nothing
reads. And the result is truncated to `limit` *before* the first `offset` tasks are dropped, so that
**every page behind the first is empty**. `lists_iff` says when neither of them matters.
-/

set_option autoImplicit false

namespace Argunix.AgentFlow

open Argunix.Lib

/-- A criterion that may be missing. -/
def given {α : Type} (criterion : Option α) (keep : α → Bool) : Bool :=
  match criterion with
  | some a => keep a
  | none => true

/-- What tasks are asked for. -/
structure TaskFilter where
  status : Option (List TaskStatus)
  taskType : Option (List TaskType)
  priorityMin : Option ℕ
  priorityMax : Option ℕ
  createdAfter : Option ℕ
  createdBefore : Option ℕ
  flakeUrl : Option String
  limit : Option ℕ
  offset : Option ℕ

/-- `TaskFilter::default()` -/
def TaskFilter.all : TaskFilter := ⟨none, none, none, none, none, none, none, none, none⟩

/-- A task is kept under its own id. -/
structure MemoryTaskStore where
  tasks : HashMap String TaskDefinition
  keyed : ∀ id task, tasks.lookup id = some task → task.id = id

namespace MemoryTaskStore

/-- `MemoryTaskStore::default()` -/
def default : MemoryTaskStore := ⟨∅, fun _ _ h => absurd h (by simp)⟩

/-- `create_task` -/
def createTask (store : MemoryTaskStore) (task : TaskDefinition) : MemoryTaskStore where
  tasks := store.tasks.insert task.id task
  keyed := by
    intro id task' h
    rw [HashMap.lookup_insert_eq] at h
    split at h
    · rename_i hid
      rw [← Option.some.inj h, hid]
    · exact store.keyed id task' h

/-- What the map iterates over, in some order. -/
def Iterates (store : MemoryTaskStore) (order : List TaskDefinition) : Prop :=
  order.Perm store.tasks.values

end MemoryTaskStore

/-- `if let Some(..) = criterion { result.retain(..) }` -/
def retainGiven {α : Type} (criterion : Option α) (keep : α → TaskDefinition → Bool)
    (result : List TaskDefinition) : List TaskDefinition :=
  match criterion with
  | some a => result.filter (keep a)
  | none => result

/-- `list_tasks`, with what the map iterates over. -/
def listTasks (order : List TaskDefinition) : Option TaskFilter → List TaskDefinition
  | none => order
  | some f =>
    let result := retainGiven f.status (fun statuses t => statuses.contains t.status) order
    let result := retainGiven f.taskType (fun types t => types.contains t.taskType) result
    let result := retainGiven f.priorityMin (fun minPriority t => minPriority ≤ t.priority) result
    let result := retainGiven f.priorityMax (fun maxPriority t => t.priority ≤ maxPriority) result
    let result := retainGiven f.flakeUrl (fun flakeUrl t => t.flakeUrl = some flakeUrl) result
    let result := match f.limit with
      | some limit => result.take limit
      | none => result
    match f.offset with
    | some offset => if offset < result.length then result.drop offset else []
    | none => result

/-! ## What listing is to do -/

namespace TaskFilter

/-- The two dates. -/
def meetsDates (f : TaskFilter) (t : TaskDefinition) : Bool :=
  given f.createdAfter (fun bound => bound < t.createdAt) &&
    given f.createdBefore (fun bound => t.createdAt < bound)

/-- All criteria but the dates. -/
def meetsOthers (f : TaskFilter) (t : TaskDefinition) : Bool :=
  given f.status (fun statuses => statuses.contains t.status) &&
    given f.taskType (fun types => types.contains t.taskType) &&
    given f.priorityMin (fun minPriority => minPriority ≤ t.priority) &&
    given f.priorityMax (fun maxPriority => t.priority ≤ maxPriority) &&
    given f.flakeUrl (fun flakeUrl => t.flakeUrl = some flakeUrl)

/-- All criteria. -/
def Meets (f : TaskFilter) (t : TaskDefinition) : Prop :=
  f.meetsOthers t = true ∧ f.meetsDates t = true

end TaskFilter

/-- The page behind `i` others of the size `n`. -/
def page (order : List TaskDefinition) (f : TaskFilter) (n i : ℕ) : List TaskDefinition :=
  listTasks order (some { f with limit := some n, offset := some (n * i) })

/-- **Filtered and paged correctly.** -/
structure Lists (order : List TaskDefinition) (f : TaskFilter) (n : ℕ) : Prop where
  only : ∀ t ∈ listTasks order (some f), f.Meets t
  onlyPages : ∀ i, ∀ t ∈ page order f n i, f.Meets t
  disjoint : ∀ i j, i ≠ j → (page order f n i).Disjoint (page order f n j)
  once : ∀ i, (page order f n i).Nodup
  complete : ∀ t ∈ order, f.Meets t → ∃ i, t ∈ page order f n i

/-! ## What it does -/

variable {order : List TaskDefinition} {f : TaskFilter} {n : ℕ} {store : MemoryTaskStore}

theorem retainGiven_eq {α : Type} (criterion : Option α) (keep : α → TaskDefinition → Bool)
    (result : List TaskDefinition) :
    retainGiven criterion keep result =
      result.filter fun t => given criterion fun a => keep a t := by
  cases criterion with
  | none => simp [retainGiven, given]
  | some a => rfl

theorem dropBelow_eq (result : List TaskDefinition) (offset : ℕ) :
    (if offset < result.length then result.drop offset else []) = result.drop offset := by
  split
  · rfl
  · rename_i h
    exact (List.drop_eq_nil_of_le (Nat.not_lt.mp h)).symm

/-- **All criteria but the dates are checked**, then the list is cut, then its start dropped. -/
theorem listTasks_eq (order : List TaskDefinition) (f : TaskFilter) :
    listTasks order (some f) =
      let kept := order.filter f.meetsOthers
      let cut := (f.limit.map kept.take).getD kept
      (f.offset.map cut.drop).getD cut := by
  have hkept : ((((order.filter fun t => given f.status fun a => a.contains t.status).filter
      fun t => given f.taskType fun a => a.contains t.taskType).filter
      fun t => given f.priorityMin fun a => a ≤ t.priority).filter
      fun t => given f.priorityMax fun a => t.priority ≤ a).filter
      (fun t => given f.flakeUrl fun a => t.flakeUrl = some a) = order.filter f.meetsOthers := by
    simp only [List.filter_filter]
    refine List.filter_congr fun t _ => ?_
    simp only [TaskFilter.meetsOthers]
    ac_rfl
  simp only [listTasks, retainGiven_eq, hkept, dropBelow_eq]
  cases f.limit <;> cases f.offset <;> rfl

theorem page_eq (order : List TaskDefinition) (f : TaskFilter) (n i : ℕ) :
    page order f n i = ((order.filter f.meetsOthers).take n).drop (n * i) :=
  listTasks_eq order _

/-- Tasks are distinct, since their ids are. -/
theorem MemoryTaskStore.Iterates.nodup (h : store.Iterates order) : order.Nodup := by
  have hids : store.tasks.values.map TaskDefinition.id = store.tasks.entries.map Sigma.fst := by
    rw [HashMap.values, List.map_map]
    refine List.map_congr_left fun entry hentry => ?_
    exact store.keyed entry.1 entry.2 (HashMap.mem_entries_iff.mp hentry)
  have hnodup : (store.tasks.values.map TaskDefinition.id).Nodup := by
    rw [hids]
    exact store.tasks.nodupKeys
  exact h.nodup_iff.mpr hnodup.of_map

/-- The dates rule out no task that meets the other criteria, and those that do fit on one page. -/
def OnePage (store : MemoryTaskStore) (f : TaskFilter) (n : ℕ) : Prop :=
  (∀ t ∈ store.tasks.values, f.meetsOthers t = true → f.meetsDates t = true) ∧
    (store.tasks.values.filter f.meetsOthers).length ≤ n

theorem mem_listTasks {t : TaskDefinition} (h : t ∈ listTasks order (some f)) :
    t ∈ order ∧ f.meetsOthers t = true := by
  rw [listTasks_eq] at h
  have hcut : t ∈ (f.limit.map (order.filter f.meetsOthers).take).getD
      (order.filter f.meetsOthers) := by
    cases hoffset : f.offset with
    | none => rwa [hoffset] at h
    | some offset =>
      rw [hoffset] at h
      exact List.mem_of_mem_drop h
  cases hlimit : f.limit with
  | none =>
    rw [hlimit] at hcut
    exact List.mem_filter.mp hcut
  | some limit =>
    rw [hlimit] at hcut
    exact List.mem_filter.mp (List.mem_of_mem_take hcut)

/-- On one page everything is right. -/
theorem OnePage.lists (h : OnePage store f n) (horder : store.Iterates order) :
    Lists order f n := by
  obtain ⟨hdates, hlen⟩ := h
  have hshort : (order.filter f.meetsOthers).length ≤ n :=
    (horder.filter f.meetsOthers).length_eq.trans_le hlen
  have hfirst : page order f n 0 = order.filter f.meetsOthers := by
    rw [page_eq, List.take_of_length_le hshort]
    rfl
  have hmeets : ∀ t ∈ order, f.meetsOthers t = true → f.Meets t :=
    fun t ht hothers => ⟨hothers, hdates t (horder.mem_iff.mp ht) hothers⟩
  have hpage : ∀ i, i ≠ 0 → page order f n i = [] := by
    intro i hi
    have hle : n ≤ n * i := Nat.le_mul_of_pos_right n (Nat.pos_of_ne_zero hi)
    rw [page_eq, List.take_of_length_le hshort]
    exact List.drop_eq_nil_of_le (hshort.trans hle)
  exact {
    only := fun t ht => hmeets t (mem_listTasks ht).1 (mem_listTasks ht).2
    onlyPages := fun i t ht => hmeets t (mem_listTasks ht).1 (mem_listTasks ht).2
    disjoint := by
      intro i j hij
      by_cases hi : i = 0
      · rw [hpage j fun hj => hij (hi.trans hj.symm)]
        exact List.disjoint_nil_right _
      · rw [hpage i hi]
        exact List.disjoint_nil_left _
    once := by
      intro i
      by_cases hi : i = 0
      · rw [hi, hfirst]
        exact horder.nodup.filter _
      · rw [hpage i hi]
        exact List.nodup_nil
    complete := fun t ht hmeets => ⟨0, hfirst ▸ List.mem_filter.mpr ⟨ht, hmeets.1⟩⟩ }

/-- **Exactly when listing is right**, in whatever order the map iterates. -/
theorem lists_iff (store : MemoryTaskStore) (f : TaskFilter) (hn : 0 < n) :
    (∀ order, store.Iterates order → Lists order f n) ↔ OnePage store f n := by
  constructor
  · intro h
    have hdates : ∀ t ∈ store.tasks.values, f.meetsOthers t = true → f.meetsDates t = true := by
      -- the map may iterate over this task first
      intro t ht hothers
      have horder : store.Iterates (t :: store.tasks.values.erase t) :=
        (List.perm_cons_erase ht).symm
      refine ((h _ horder).onlyPages 0 t ?_).2
      rw [page_eq, List.filter_cons_of_pos hothers, Nat.mul_zero, List.drop_zero,
        List.take_cons hn]
      exact List.mem_cons_self
    refine ⟨hdates, Nat.not_lt.mp fun hlong => ?_⟩
    -- the task that stands behind the first page is on no page
    have hall := h store.tasks.values (List.Perm.refl _)
    have hnodup := MemoryTaskStore.Iterates.nodup (List.Perm.refl store.tasks.values)
    obtain ⟨hmem, hothers⟩ := List.mem_filter.mp (List.getElem_mem hlong)
    obtain ⟨i, hi⟩ := hall.complete _ hmem ⟨hothers, hdates _ hmem hothers⟩
    rw [page_eq] at hi
    obtain ⟨j, hj, heq⟩ := List.mem_iff_getElem.mp (List.mem_of_mem_drop hi)
    rw [List.getElem_take] at heq
    have hjn := (hnodup.filter f.meetsOthers).getElem_inj_iff.mp heq
    rw [List.length_take] at hj
    omega
  · intro h order horder
    exact h.lists horder

/-- An evaluation of a flake, submitted at a time. -/
def evaluationAt (id : String) (createdAt : ℕ) : TaskDefinition :=
  ⟨id, .nixEval, .pending, 50, createdAt, none, none, none, none, none, none⟩

/-- Two evaluations to be done, a running one, an old one that is not urgent, and a build. -/
def fiveTasks : MemoryTaskStore :=
  [evaluationAt "a" 3, evaluationAt "b" 4, { evaluationAt "c" 5 with status := .running },
    { evaluationAt "d" 1 with priority := 10 }, { evaluationAt "e" 6 with taskType := .nixBuild }].foldl
    .createTask .default

/-- What is to be evaluated, is urgent and is not old. -/
def urgent : TaskFilter :=
  { TaskFilter.all with
    status := some [.pending], taskType := some [.nixEval], priorityMin := some 50
    createdAfter := some 2 }

theorem lists_iff_urgent : Lists fiveTasks.tasks.values urgent 2 :=
  (lists_iff fiveTasks urgent (by decide)).mpr ⟨by decide, by decide⟩ _ (List.Perm.refl _)

/-- The second of two pages is empty. -/
theorem not_lists_two :
    ¬ ∀ (store : MemoryTaskStore) (f : TaskFilter) (n : ℕ), 0 < n →
      ∀ order, store.Iterates order → Lists order f n := by
  intro h
  let two := [evaluationAt "a" 1, evaluationAt "b" 2].foldl .createTask MemoryTaskStore.default
  have hlists := h two .all 1 Nat.one_pos two.tasks.values (List.Perm.refl _)
  have hpages : ∀ i, page two.tasks.values .all 1 i = [evaluationAt "b" 2].drop i := by
    intro i
    rw [page_eq, Nat.one_mul]
    rfl
  obtain ⟨i, hi⟩ := hlists.complete (evaluationAt "a" 1) (by decide) ⟨rfl, rfl⟩
  rw [hpages] at hi
  exact absurd (List.mem_of_mem_drop hi) (by decide)

end Argunix.AgentFlow
