import Argunix.Lib.Fold
import Argunix.Sched.StepGraph

/-!
# What `enqueue` adds to the Step graph

`enqueue` runs two loops before it promotes: the upserts over the closure and the head, and
the edges of the Steps that were new. `upsertAll_rec` and `buildEdgesFor_rec` are their
induction rules; `ItemInserted` collects what both together do to the graph.

Edges are drawn **only out of Steps that this call inserted**, and only to inputs that are in
the graph at that moment. An input that is enqueued later is taken for an external one: the
edge is never drawn.
-/

set_option autoImplicit false

namespace Argunix.Sched

open Argunix.Lib

namespace DagStrategy

variable {s s' : DagStrategy}

/-! ## The two loops -/

/-- The derivations an item mentions. -/
def mentions (item : ScheduleItem) : List DerivationInfo := item.closure ++ [item.headDrv]

/-- Induction over the upsert loop: only an insertion changes anything. -/
theorem upsertAll_rec {P : List String → DagStrategy → Prop} (item : ScheduleItem)
    (h₀ : P [] s)
    (hnew : ∀ news s' drv, drv ∈ mentions item → s'.byDrv.lookup drv.drvPath = none → P news s' →
      P (news ++ [drv.drvPath])
        { s' with byDrv := s'.byDrv.insert drv.drvPath (Step.new drv item.repoId item.evalId) }) :
    P (s.upsertAll item).1 (s.upsertAll item).2 := by
  unfold upsertAll
  refine List.foldlRecOn (motive := fun acc : List String × DagStrategy => P acc.1 acc.2) _ _ h₀ ?_
  rintro ⟨news, s'⟩ hP drv hmem
  simp only [upsertStep]
  cases hl : s'.byDrv.lookup drv.drvPath with
  | some st => exact hP
  | none => exact hnew news s' drv hmem hl hP

/-- Induction over the edge loops. -/
theorem buildEdgesFor_rec {P : DagStrategy → Prop} {news : List String}
    {inputsByDrv : HashMap String (List String)} (h₀ : P s)
    (hstep : ∀ s' d inputs input, d ∈ news → inputsByDrv.lookup d = some inputs → input ∈ inputs →
      P s' → P (addEdge d s' input)) :
    P (s.buildEdgesFor news inputsByDrv) := by
  unfold buildEdgesFor
  refine List.foldlRecOn (motive := P) _ _ h₀ ?_
  intro s' hP d hd
  cases hl : inputsByDrv.lookup d with
  | none => exact hP
  | some inputs =>
    refine List.foldlRecOn (motive := P) _ _ hP ?_
    intro s'' hP' input hi
    exact hstep s'' d inputs input hd hl hi hP'

/-! ## One edge -/

theorem addEdge_cases (d input : String) (s : DagStrategy) :
    addEdge d s input = s ∨
      ∃ dep, s.byDrv.lookup input = some dep ∧ dep.state.isSuccessfulTerminal = false ∧
        addEdge d s input = (s.modifyStep d (·.waitMore)).modifyStep input (·.addRdep d) := by
  unfold addEdge
  cases hl : s.byDrv.lookup input with
  | none => exact Or.inl rfl
  | some dep =>
    cases hs : dep.state.isSuccessfulTerminal with
    | true => exact Or.inl (by simp [hs])
    | false => exact Or.inr ⟨dep, rfl, hs, by simp [hs]⟩

/-- An edge changes a counter and an edge list, nothing else. -/
theorem map_addEdge_of_view {α : Type} {v : Step → α} (hm : ∀ st, v (Step.waitMore st) = v st)
    (ha : ∀ d st, v (Step.addRdep d st) = v st) (d input : String) (s : DagStrategy) (k : String) :
    ((addEdge d s input).byDrv.lookup k).map v = (s.byDrv.lookup k).map v := by
  rcases addEdge_cases d input s with h | ⟨dep, -, -, h⟩
  · rw [h]
  · rw [h]
    exact (HashMap.map_modify_of_view (ha d) input k).trans
      (HashMap.map_modify_of_view hm d k)

theorem addEdge_frame {α : Type} {f : DagStrategy → α} (hf : ∀ s k g, f (modifyStep s k g) = f s)
    (d input : String) (s : DagStrategy) : f (addEdge d s input) = f s := by
  rcases addEdge_cases d input s with h | ⟨dep, -, -, h⟩
  · rw [h]
  · rw [h, hf, hf]

/-- The edges after one more was drawn. -/
theorem edge_addEdge_iff {d input : String} {p r : String} :
    (addEdge d s input).Edge p r ↔ s.Edge p r ∨
      (p = input ∧ r = d ∧ ∃ dep, s.byDrv.lookup input = some dep ∧
        dep.state.isSuccessfulTerminal = false) := by
  cases hl : s.byDrv.lookup input with
  | none => simp [addEdge, hl]
  | some dep =>
    cases hs : dep.state.isSuccessfulTerminal with
    | true => simp [addEdge, hl, hs]
    | false =>
      have heq : addEdge d s input = (s.modifyStep d (·.waitMore)).modifyStep input (·.addRdep d) := by
        simp [addEdge, hl, hs]
      rw [heq]
      have hmid : ∀ p r, (s.modifyStep d (·.waitMore)).Edge p r ↔ s.Edge p r := by
        intro p r
        unfold Edge
        constructor
        · rintro ⟨st, hp, hr⟩
          rcases HashMap.lookup_modify_cases hp with ⟨-, st', hl', rfl⟩ | ⟨-, hl'⟩
          · exact ⟨st', hl', hr⟩
          · exact ⟨st, hl', hr⟩
        · rintro ⟨st, hp, hr⟩
          by_cases hk : p = d
          · subst hk
            exact ⟨_, HashMap.lookup_modify_self hp, hr⟩
          · exact ⟨st, (HashMap.lookup_modify_ne hk).trans hp, hr⟩
      constructor
      · rintro ⟨st, hp, hr⟩
        rcases HashMap.lookup_modify_cases hp with ⟨rfl, st', hl', rfl⟩ | ⟨-, hl'⟩
        · rw [Step.addRdep_rdeps, List.mem_append, List.mem_singleton] at hr
          rcases hr with hr | rfl
          · exact Or.inl ((hmid p r).mp ⟨st', hl', hr⟩)
          · exact Or.inr ⟨rfl, rfl, dep, rfl, hs⟩
        · exact Or.inl ((hmid p r).mp ⟨st, hl', hr⟩)
      · intro h
        have hinput : ∃ st, (s.modifyStep d (·.waitMore)).byDrv.lookup input = some st :=
          HashMap.exists_lookup_modify _ ⟨dep, hl⟩
        rcases h with he | ⟨rfl, rfl, -⟩
        · obtain ⟨st, hp, hr⟩ := (hmid p r).mpr he
          by_cases hk : p = input
          · subst hk
            exact ⟨_, HashMap.lookup_modify_self hp, by simp [hr]⟩
          · exact ⟨st, (HashMap.lookup_modify_ne hk).trans hp, hr⟩
        · obtain ⟨st, hp⟩ := hinput
          exact ⟨_, HashMap.lookup_modify_self hp, by simp⟩

/-! ## The whole admission -/

/-- What the upserts leave behind: old Steps as they were, and one fresh Step per new path. -/
structure Upserted (s : DagStrategy) (item : ScheduleItem) (news : List String)
    (s' : DagStrategy) : Prop where
  frame : s' = { s with byDrv := s'.byDrv }
  old : ∀ d st, s.byDrv.lookup d = some st → s'.byDrv.lookup d = some st
  new : ∀ d st, s'.byDrv.lookup d = some st → s.byDrv.lookup d = some st ∨
    (s.byDrv.lookup d = none ∧ d ∈ news ∧
      ∃ drv ∈ mentions item, drv.drvPath = d ∧ st = Step.new drv item.repoId item.evalId)
  news : ∀ d, d ∈ news → s.byDrv.lookup d = none ∧ ∃ st, s'.byDrv.lookup d = some st

theorem upsertAll_spec (s : DagStrategy) (item : ScheduleItem) :
    Upserted s item (s.upsertAll item).1 (s.upsertAll item).2 := by
  refine upsertAll_rec (P := Upserted s item) item
    ⟨rfl, fun _ _ h => h, fun _ _ h => Or.inl h, fun _ h => absurd h (by simp)⟩ ?_
  intro news s' drv hmem hnone ih
  have hfresh : s.byDrv.lookup drv.drvPath = none := by
    cases hl : s.byDrv.lookup drv.drvPath with
    | none => rfl
    | some st => rw [ih.old _ _ hl] at hnone; exact absurd hnone (by simp)
  refine ⟨?_, ?_, ?_, ?_⟩
  · conv_lhs => rw [ih.frame]
  · intro d st hl
    rw [HashMap.lookup_insert_eq, if_neg ?_]
    · exact ih.old d st hl
    · rintro rfl
      rw [hfresh] at hl
      exact absurd hl (by simp)
  · intro d st hl
    rw [HashMap.lookup_insert_eq] at hl
    split at hl
    · rename_i hd
      subst hd
      exact Or.inr ⟨hfresh, by simp, drv, hmem, rfl, (Option.some.inj hl).symm⟩
    · rcases ih.new d st hl with h | ⟨h₁, h₂, h₃⟩
      · exact Or.inl h
      · exact Or.inr ⟨h₁, by simp [h₂], h₃⟩
  · intro d hd
    rw [List.mem_append, List.mem_singleton] at hd
    rw [HashMap.lookup_insert_eq]
    rcases hd with hd | rfl
    · obtain ⟨hn, st, hl⟩ := ih.news d hd
      refine ⟨hn, ?_⟩
      split
      · exact ⟨_, rfl⟩
      · exact ⟨st, hl⟩
    · exact ⟨hfresh, by simp⟩

/-- Every derivation the item mentions has a Step after the upserts. -/
theorem exists_lookup_upsertAll (s : DagStrategy) (item : ScheduleItem) {drv : DerivationInfo}
    (hmem : drv ∈ mentions item) : ∃ st, (s.upsertAll item).2.byDrv.lookup drv.drvPath = some st := by
  have hlookup : ∀ (acc : List String × DagStrategy) (x : DerivationInfo),
      drv = x ∨ (∃ st, acc.2.byDrv.lookup drv.drvPath = some st) →
      ∃ st, (acc.2.upsertStep x item.repoId item.evalId).2.byDrv.lookup drv.drvPath = some st := by
    intro acc x hx
    rw [upsertStep]
    cases hacc : acc.2.byDrv.lookup x.drvPath with
    | some st =>
      rcases hx with rfl | hx
      · exact ⟨st, hacc⟩
      · exact hx
    | none =>
      simp only [HashMap.lookup_insert_eq]
      split
      · exact ⟨_, rfl⟩
      · rename_i hne
        rcases hx with rfl | hx
        · exact absurd rfl hne
        · exact hx
  unfold upsertAll
  refine foldl_establishes (I := fun _ : List String × DagStrategy => True)
    (Q := fun acc : List String × DagStrategy => ∃ st, acc.2.byDrv.lookup drv.drvPath = some st)
    (fun _ _ _ => trivial) (fun acc x _ h => ?_) (fun acc _ => ?_) _ _ trivial hmem
  · have hstep := hlookup acc x (Or.inr h)
    split <;> rename_i heq <;> rw [heq] at hstep <;> exact hstep
  · have hstep := hlookup acc drv (Or.inl rfl)
    split <;> rename_i heq <;> rw [heq] at hstep <;> exact hstep

/-- The part of a Step no edge and no promotion of another Step changes. -/
def adminView (st : Step) :
    String × StepState × Option DispatchToken × List JobId × RepoId × EvalId :=
  (st.drvPath, st.state, st.inFlightToken, st.headJobs, st.repoId, st.evalId)

theorem map_buildEdgesFor (s : DagStrategy) (news : List String)
    (inputs : HashMap String (List String)) (k : String) :
    ((s.buildEdgesFor news inputs).byDrv.lookup k).map adminView
      = (s.byDrv.lookup k).map adminView := by
  refine buildEdgesFor_rec
    (P := fun s' => (s'.byDrv.lookup k).map adminView = (s.byDrv.lookup k).map adminView) rfl ?_
  intro s' d _ input _ _ _ ih
  exact (map_addEdge_of_view (fun _ => rfl) (fun _ _ => rfl) d input s' k).trans ih

theorem buildEdgesFor_frame {α : Type} {f : DagStrategy → α}
    (hf : ∀ s k g, f (modifyStep s k g) = f s) (s : DagStrategy) (news : List String)
    (inputs : HashMap String (List String)) : f (s.buildEdgesFor news inputs) = f s := by
  refine buildEdgesFor_rec (P := fun s' => f s' = f s) rfl ?_
  intro s' d _ input _ _ _ ih
  exact (addEdge_frame hf d input s').trans ih

/-- What `insertItem` does to the graph. -/
structure ItemInserted (s : DagStrategy) (item : ScheduleItem) (s' : DagStrategy) : Prop where
  wfq : s'.wfq = s.wfq
  tokenToDrv : s'.tokenToDrv = s.tokenToDrv
  nextToken : s'.nextToken = s.nextToken
  jobMeta : s'.jobMeta = s.jobMeta.insert item.jobId (item.repoId, item.evalId)
  /-- Steps of the graph keep their state and token. -/
  old : ∀ d st, s.byDrv.lookup d = some st → ∃ st', s'.byDrv.lookup d = some st' ∧
    st'.state = st.state ∧ st'.inFlightToken = st.inFlightToken
  /-- A Step that was not in the graph comes in pending. -/
  new : ∀ d st', s'.byDrv.lookup d = some st' → (∃ st, s.byDrv.lookup d = some st) ∨
    (s.byDrv.lookup d = none ∧ st'.state = .pending ∧ ∃ drv ∈ mentions item, drv.drvPath = d)
  present : ∀ drv ∈ mentions item, ∃ st', s'.byDrv.lookup drv.drvPath = some st'
  headJobs : ∀ d, s'.headJobsOf d
    = s.headJobsOf d ++ if d = item.headDrv.drvPath then [item.jobId] else []
  /-- Edges are drawn only out of Steps that this call inserted. -/
  edge : ∀ p r, s'.Edge p r → s.Edge p r ∨ (s.byDrv.lookup r = none ∧
    ∃ inputs, (inputsByDrv item).lookup r = some inputs ∧ p ∈ inputs)
  edge_mono : ∀ p r, s.Edge p r → s'.Edge p r
  /-- An input of a new Step that is in the graph, and has not succeeded, gets its edge. -/
  drawn : ∀ p r inputs, s.byDrv.lookup r = none → (∃ drv ∈ mentions item, drv.drvPath = r) →
    (inputsByDrv item).lookup r = some inputs → p ∈ inputs →
    ∀ st', s'.byDrv.lookup p = some st' → st'.state.isSuccessfulTerminal = false → s'.Edge p r

theorem edge_modifyStep_iff {f : Step → Step} (hf : ∀ st, (f st).rdeps = st.rdeps)
    (k p r : String) : (s.modifyStep k f).Edge p r ↔ s.Edge p r := by
  have hview := HashMap.map_modify_of_view (m := s.byDrv) (f := f) (g := Step.rdeps) hf k p
  unfold Edge modifyStep
  constructor
  · rintro ⟨st, hl, hr⟩
    rw [hl, Option.map_some] at hview
    obtain ⟨st', hl', he⟩ := Option.map_eq_some_iff.mp hview.symm
    exact ⟨st', hl', he ▸ hr⟩
  · rintro ⟨st, hl, hr⟩
    rw [hl, Option.map_some] at hview
    obtain ⟨st', hl', he⟩ := Option.map_eq_some_iff.mp hview
    exact ⟨st', hl', he ▸ hr⟩

theorem edge_buildEdgesFor_mono {news : List String} {inputs : HashMap String (List String)}
    {p r : String} (h : s.Edge p r) : (s.buildEdgesFor news inputs).Edge p r :=
  buildEdgesFor_rec (P := fun s' => s'.Edge p r) h fun _ _ _ _ _ _ _ ih =>
    edge_addEdge_iff.mpr (Or.inl ih)

theorem edge_buildEdgesFor {news : List String} {inputs : HashMap String (List String)}
    {p r : String} (h : (s.buildEdgesFor news inputs).Edge p r) :
    s.Edge p r ∨ (r ∈ news ∧ ∃ l, inputs.lookup r = some l ∧ p ∈ l) := by
  revert h
  refine buildEdgesFor_rec
    (P := fun s' => s'.Edge p r → s.Edge p r ∨ (r ∈ news ∧ ∃ l, inputs.lookup r = some l ∧ p ∈ l))
    Or.inl ?_
  intro s' d l input hd hl hi ih he
  rcases edge_addEdge_iff.mp he with he | ⟨rfl, rfl, -⟩
  · exact ih he
  · exact Or.inr ⟨hd, l, hl, hi⟩

/-- The loop reaches every input of every new Step, and draws the edge if it may. -/
theorem edge_drawn {news l : List String} {inputs : HashMap String (List String)}
    {p r : String} {x : StepState} (hr : r ∈ news) (hl : inputs.lookup r = some l) (hp : p ∈ l)
    (hx : (s.byDrv.lookup p).map (·.state) = some x) (hns : x.isSuccessfulTerminal = false) :
    (s.buildEdgesFor news inputs).Edge p r := by
  have hinner : ∀ (d : String) (b : DagStrategy) (a : String),
      (b.byDrv.lookup p).map (·.state) = some x →
      ((addEdge d b a).byDrv.lookup p).map (·.state) = some x := fun d b a hb =>
    (map_addEdge_of_view (v := Step.state) (fun _ => rfl) (fun _ _ => rfl) d a b p).trans hb
  unfold buildEdgesFor
  refine foldl_establishes (I := fun b => (b.byDrv.lookup p).map (·.state) = some x)
    (Q := fun b => b.Edge p r) (x := r) ?_ ?_ ?_ news s hx hr
  · intro b d hb
    cases hd : inputs.lookup d with
    | none => exact hb
    | some l' =>
      exact List.foldlRecOn (motive := fun b : DagStrategy => (b.byDrv.lookup p).map (·.state) = some x) _ _ hb
        fun b hb a _ => hinner d b a hb
  · intro b d _ hq
    cases hd : inputs.lookup d with
    | none => exact hq
    | some l' =>
      exact List.foldlRecOn (motive := fun b : DagStrategy => b.Edge p r) _ _ hq
        fun b hb a _ => edge_addEdge_iff.mpr (Or.inl hb)
  · intro b hb
    simp only [hl]
    refine foldl_establishes (I := fun b => (b.byDrv.lookup p).map (·.state) = some x)
      (Q := fun b => b.Edge p r) (x := p) (hinner r) (fun b a _ hq =>
        edge_addEdge_iff.mpr (Or.inl hq)) (fun b hb => ?_) l b hb hp
    obtain ⟨dep, hdep, hst⟩ := Option.map_eq_some_iff.mp hb
    exact edge_addEdge_iff.mpr (Or.inr ⟨rfl, rfl, dep, hdep, hst ▸ hns⟩)

theorem insertItem_spec (s : DagStrategy) (item : ScheduleItem) : ItemInserted s item (s.insertItem item) := by
  let s₁ : DagStrategy := { s with jobMeta := s.jobMeta.insert item.jobId (item.repoId, item.evalId) }
  let news := (s₁.upsertAll item).1
  let s₂ := (s₁.upsertAll item).2
  let s₃ := s₂.modifyStep item.headDrv.drvPath (·.linkJob item.jobId)
  have hinsert : s.insertItem item = s₃.buildEdgesFor news (inputsByDrv item) := rfl
  have hup : Upserted s₁ item news s₂ := upsertAll_spec s₁ item
  have hview := map_buildEdgesFor s₃ news (inputsByDrv item)
  have hframe : ∀ {α : Type} (f : DagStrategy → α), (∀ s k g, f (modifyStep s k g) = f s) →
      f (s.insertItem item) = f s₂ := fun f hf => by
    rw [hinsert, buildEdgesFor_frame hf, show f s₃ = f s₂ from hf _ _ _]
  have hmem : ∀ {d drv}, drv ∈ mentions item → drv.drvPath = d → s.byDrv.lookup d = none →
      d ∈ news := by
    rintro d drv hm rfl hnone
    obtain ⟨st, hst⟩ := exists_lookup_upsertAll s₁ item hm
    rcases hup.new _ st hst with hold | ⟨-, hn, -⟩
    · rw [show s₁.byDrv = s.byDrv from rfl, hnone] at hold
      exact absurd hold (by simp)
    · exact hn
  -- state, token and Jobs of a Step, before and after
  have hlook : ∀ d, ((s.insertItem item).byDrv.lookup d).map adminView
      = (s₂.byDrv.lookup d).map fun st =>
          adminView (if d = item.headDrv.drvPath then st.linkJob item.jobId else st) := by
    intro d
    rw [hinsert, hview, show s₃.byDrv.lookup d = _ from lookup_modifyStep _ _ _ _]
    by_cases hd : d = item.headDrv.drvPath
    · subst hd
      simp [Function.comp_def]
    · simp [hd]
  have hstate : ∀ d, ((s.insertItem item).byDrv.lookup d).map (fun st => (st.state, st.inFlightToken))
      = (s₂.byDrv.lookup d).map (fun st => (st.state, st.inFlightToken)) := by
    intro d
    have := congrArg (Option.map fun v : String × StepState × Option DispatchToken × List JobId ×
      RepoId × EvalId => (v.2.1, v.2.2.1)) (hlook d)
    simp only [Option.map_map, Function.comp_def, adminView] at this
    rw [this]
    congr 1
    funext st
    split <;> rfl
  refine ⟨?_, ?_, ?_, ?_, ?_, ?_, ?_, ?_, ?_, ?_, ?_⟩
  · rw [hframe (·.wfq) fun _ _ _ => rfl, hup.frame]
  · rw [hframe (·.tokenToDrv) fun _ _ _ => rfl, hup.frame]
  · rw [hframe (·.nextToken) fun _ _ _ => rfl, hup.frame]
  · rw [hframe (·.jobMeta) fun _ _ _ => rfl, hup.frame]
  · intro d st hl
    have := hstate d
    rw [hup.old d st hl, Option.map_some] at this
    obtain ⟨st', hl', he⟩ := Option.map_eq_some_iff.mp this
    simp only [Prod.mk.injEq] at he
    exact ⟨st', hl', he⟩
  · intro d st' hl'
    have := hstate d
    rw [hl', Option.map_some] at this
    obtain ⟨st, hl, he⟩ := Option.map_eq_some_iff.mp this.symm
    simp only [Prod.mk.injEq] at he
    rcases hup.new d st hl with hold | ⟨hnone, -, drv, hm, hpath, rfl⟩
    · exact Or.inl ⟨st, hold⟩
    · exact Or.inr ⟨hnone, he.1.symm, drv, hm, hpath⟩
  · intro drv hm
    obtain ⟨st, hst⟩ := exists_lookup_upsertAll s₁ item hm
    have := hstate drv.drvPath
    rw [show s₂.byDrv.lookup drv.drvPath = some st from hst, Option.map_some] at this
    obtain ⟨st', hl', -⟩ := Option.map_eq_some_iff.mp this
    exact ⟨st', hl'⟩
  · intro d
    have hjobs := congrArg (Option.map fun v : String × StepState × Option DispatchToken ×
      List JobId × RepoId × EvalId => v.2.2.2.1) (hlook d)
    simp only [Option.map_map, Function.comp_def, adminView] at hjobs
    unfold headJobsOf
    rw [hjobs]
    have hhead : ∃ st, s₂.byDrv.lookup item.headDrv.drvPath = some st :=
      exists_lookup_upsertAll s₁ item (by simp [mentions])
    cases h₂ : s₂.byDrv.lookup d with
    | none =>
      have hs : s.byDrv.lookup d = none := by
        cases h : s.byDrv.lookup d with
        | none => rfl
        | some st => rw [hup.old d st h] at h₂; exact absurd h₂ (by simp)
      have hd : d ≠ item.headDrv.drvPath := by
        rintro rfl
        obtain ⟨st, hst⟩ := hhead
        rw [hst] at h₂
        exact absurd h₂ (by simp)
      simp [hs, hd]
    | some st =>
      have hbase : ((s.byDrv.lookup d).map (·.headJobs)).getD [] = st.headJobs := by
        rcases hup.new d st h₂ with hold | ⟨hnone, -, drv, -, -, rfl⟩
        · rw [show s.byDrv.lookup d = some st from hold]; rfl
        · rw [show s.byDrv.lookup d = none from hnone]; rfl
      rw [hbase]
      by_cases hd : d = item.headDrv.drvPath
      · simp [hd]
      · simp [hd]
  · intro p r he
    rcases edge_buildEdgesFor (hinsert ▸ he) with he | ⟨hnew, l, hl, hp⟩
    · obtain ⟨st, hl, hr⟩ := (edge_modifyStep_iff (f := (·.linkJob item.jobId)) (fun _ => rfl)
        _ p r).mp he
      rcases hup.new p st hl with hold | ⟨-, -, drv, -, -, rfl⟩
      · exact Or.inl ⟨st, hold, hr⟩
      · exact absurd hr (by simp [Step.new])
    · exact Or.inr ⟨(hup.news r hnew).1, l, hl, hp⟩
  · rintro p r ⟨st, hl, hr⟩
    rw [hinsert]
    refine edge_buildEdgesFor_mono ((edge_modifyStep_iff (f := (·.linkJob item.jobId))
      (fun _ => rfl) _ p r).mpr ⟨st, hup.old p st hl, hr⟩)
  · rintro p r l hnone ⟨drv, hm, hpath⟩ hl hp st' hst' hns
    rw [hinsert]
    refine edge_drawn (x := st'.state) (hmem hm hpath hnone) hl hp ?_ hns
    have := congrArg (Option.map fun v : String × StepState × Option DispatchToken ×
      List JobId × RepoId × EvalId => v.2.1) (hview p)
    simp only [Option.map_map, Function.comp_def, adminView] at this
    rw [← this, ← hinsert, hst']
    rfl

end DagStrategy

end Argunix.Sched
