import Argunix.Lib.Acyclic
import Argunix.Eval
import Argunix.Sched.Loading

/-!
# The plan of a build phase: which top-level Job waits for which

`run_build_phase` turns the persisted Jobs of one evaluation into schedule items. Each top-level
derivation waits for the *other top-level derivations* in its closure; everything else in the
closure is left to the builders' substituters.

The strategy draws an edge when the waiting Step is inserted, and only to Steps that are in the
graph by then. So the gating the daemon wants, "B waits until A succeeds", depends on the order
in which it enqueues: `gated_of_depsFirst` proves it for orders in which a derivation comes after
its top-level inputs, and `not_gated_dependent_first` shows a dependent that was enqueued first
and is dispatched beside its input.
-/

set_option autoImplicit false

namespace Argunix.Daemon

open Argunix.Lib Argunix.Sched Argunix.Sched.DagStrategy Argunix.Eval

/-- The persisted Jobs of an evaluation, in the evaluator's order. -/
abbrev Persisted := List (JobSpec × JobId)

/-- `head_paths` -/
def headPaths (persisted : Persisted) : List String := persisted.filterMap fun p => p.1.drvPath

/-- `toplevel_deps`: the closure of a derivation, filtered to derivations of Jobs. -/
def toplevelDeps (walk : ClosureWalk) (persisted : Persisted) (drvPath : String) : List String :=
  ((walk.closureFor drvPath).filter fun d => d.drvPath ∈ headPaths persisted).map (·.drvPath)

/-- The items `run_build_phase` enqueues. Jobs without a derivation are left out. -/
def scheduleItems (walk : ClosureWalk) (repoId : RepoId) (evalId : EvalId) (persisted : Persisted) :
    List ScheduleItem :=
  persisted.filterMap fun p => p.1.drvPath.map fun drvPath =>
    { repoId := repoId
      evalId := evalId
      jobId := p.2
      headDrv :=
        { drvPath := drvPath
          system := p.1.system
          requiredFeatures := p.1.requiredSystemFeatures
          inputDrvs := toplevelDeps walk persisted drvPath }
      closure := [] }

theorem scheduleItems_spec {walk : ClosureWalk} {repoId : RepoId} {evalId : EvalId}
    {persisted : Persisted} {item : ScheduleItem}
    (h : item ∈ scheduleItems walk repoId evalId persisted) :
    item.closure = [] ∧ item.headDrv.inputDrvs = toplevelDeps walk persisted item.headDrv.drvPath := by
  obtain ⟨p, -, hp⟩ := List.mem_filterMap.mp h
  obtain ⟨d, -, rfl⟩ := Option.map_eq_some_iff.mp hp
  exact ⟨rfl, rfl⟩

theorem mem_scheduleItems {walk : ClosureWalk} {repoId : RepoId} {evalId : EvalId}
    {persisted : Persisted} {item : ScheduleItem}
    (h : item ∈ scheduleItems walk repoId evalId persisted) :
    ∃ q ∈ persisted, q.2 = item.jobId ∧ q.1.drvPath = some item.headDrv.drvPath := by
  obtain ⟨q, hq, hp⟩ := List.mem_filterMap.mp h
  obtain ⟨d, hd, rfl⟩ := Option.map_eq_some_iff.mp hp
  exact ⟨q, hq, rfl, hd⟩

theorem evalId_scheduleItems {walk : ClosureWalk} {repoId : RepoId} {evalId : EvalId}
    {persisted : Persisted} {item : ScheduleItem}
    (h : item ∈ scheduleItems walk repoId evalId persisted) : item.evalId = evalId := by
  obtain ⟨q, -, hp⟩ := List.mem_filterMap.mp h
  obtain ⟨d, -, rfl⟩ := Option.map_eq_some_iff.mp hp
  rfl

theorem exists_scheduleItem (walk : ClosureWalk) (repoId : RepoId) (evalId : EvalId)
    {persisted : Persisted} {q : JobSpec × JobId} (hq : q ∈ persisted)
    (hd : q.1.drvPath.isSome = true) :
    ∃ item ∈ scheduleItems walk repoId evalId persisted, item.jobId = q.2 := by
  obtain ⟨d, hd⟩ := Option.isSome_iff_exists.mp hd
  exact ⟨_, List.mem_filterMap.mpr ⟨q, hq, by rw [hd]; rfl⟩, rfl⟩

/-- Every item has a Job of its own. -/
theorem nodup_scheduleItems (walk : ClosureWalk) (repoId : RepoId) (evalId : EvalId)
    {persisted : Persisted} (h : (persisted.map Prod.snd).Nodup) :
    ((scheduleItems walk repoId evalId persisted).map (·.jobId)).Nodup := by
  refine List.Nodup.sublist ?_ h
  suffices ∀ l : Persisted, ((l.filterMap fun p => p.1.drvPath.map fun drvPath =>
      ({ repoId := repoId, evalId := evalId, jobId := p.2,
         headDrv := { drvPath := drvPath, system := p.1.system,
                      requiredFeatures := p.1.requiredSystemFeatures,
                      inputDrvs := toplevelDeps walk persisted drvPath },
         closure := [] } : ScheduleItem)).map (·.jobId)).Sublist (l.map Prod.snd) from this persisted
  intro l
  induction l with
  | nil => exact .slnil
  | cons q l ih =>
    cases hd : q.1.drvPath with
    | none => simpa [hd] using ih.cons q.2
    | some d => simpa [hd] using ih

/-! ## Edges that loading draws -/

/-- An input that was enqueued before the first mention of a derivation gets its edge. -/
theorem edge_of_earlier {cap : Option ℕ} {items : List ScheduleItem} {s : DagStrategy}
    (h : Enqueued cap items s) (hflat : ∀ i ∈ items, i.closure = []) :
    ∀ pre item post, items = pre ++ item :: post →
      (∀ i ∈ pre, i.headDrv.drvPath ≠ item.headDrv.drvPath) →
      ∀ a ∈ item.headDrv.inputDrvs, (∃ i ∈ pre, i.headDrv.drvPath = a) →
        s.Edge a item.headDrv.drvPath := by
  induction h with
  | new => intro pre item post h; exact absurd h (by simp)
  | setWeight r w _ hs ih =>
    intro pre item post hsplit hfirst a ha hearlier
    exact (hs.sameLinks.edge _ _).mpr (ih hflat pre item post hsplit hfirst a ha hearlier)
  | @enqueue items s s₁ s₂ new henq hs hs₂ ih =>
    intro pre item post hsplit hfirst a ha hearlier
    have had := insertItem_spec s₁ new
    have hload := henq.loaded
    have hlinks : SameLinks (s₁.insertItem new) s₂.promoteReadySteps :=
      hs₂.sameLinks.trans (sameLinks_promoteReadySteps s₂)
    rw [hlinks.edge]
    rcases List.eq_nil_or_concat post with rfl | ⟨post', x, rfl⟩
    · -- `item` is the one enqueued now, and its derivation is new
      obtain ⟨rfl, hx⟩ := List.append_inj' hsplit rfl
      obtain rfl : new = item := by simpa using hx
      have hclosure : new.closure = [] := hflat new (by simp)
      have habsent : s₁.byDrv.lookup new.headDrv.drvPath = none := by
        cases hl : s₁.byDrv.lookup new.headDrv.drvPath with
        | none => rfl
        | some st =>
          obtain ⟨i, hi, drv, hm, hd⟩ := hload.mentioned _ st ((hs.step _).symm.trans hl)
          rw [mentions, hflat i (by simp [hi]), List.nil_append, List.mem_singleton] at hm
          exact absurd (hm ▸ hd) (hfirst i hi)
      obtain ⟨i, hi, rfl⟩ := hearlier
      obtain ⟨st, hl⟩ := hload.present i hi i.headDrv (by simp [mentions])
      obtain ⟨st', hl', hst, -⟩ := had.old _ st ((hs.step _).trans hl)
      refine had.drawn _ _ new.headDrv.inputDrvs habsent ⟨new.headDrv, by simp [mentions], rfl⟩ ?_ ha
        st' hl' ?_
      · rw [inputsByDrv, hclosure, List.foldl_nil, HashMap.lookup_insert_eq, if_pos rfl]
      · rcases hload.fresh _ st hl with hp | hp <;> rw [hst, hp] <;> rfl
    · have hsplit' : items ++ [new] = (pre ++ item :: post') ++ [x] := by simpa using hsplit
      obtain ⟨rfl, -⟩ := List.append_inj' hsplit' rfl
      refine had.edge_mono _ _ ((hs.sameLinks.edge _ _).mpr ?_)
      exact ih (fun i hi => hflat i (List.mem_append_left _ hi)) pre item post' rfl hfirst a ha hearlier

/-- Every derivation is enqueued, at its first mention, after the inputs it waits for. -/
def DepsFirstFrom (seen : List String) : List ScheduleItem → Prop
  | [] => True
  | item :: rest =>
    (item.headDrv.drvPath ∈ seen ∨ ∀ a ∈ item.headDrv.inputDrvs, a ∈ seen) ∧
      DepsFirstFrom (item.headDrv.drvPath :: seen) rest

def DepsFirst (items : List ScheduleItem) : Prop := DepsFirstFrom [] items

instance decidableDepsFirstFrom :
    ∀ (seen : List String) (items : List ScheduleItem), Decidable (DepsFirstFrom seen items)
  | _, [] => isTrue trivial
  | seen, item :: rest =>
    have := decidableDepsFirstFrom (item.headDrv.drvPath :: seen) rest
    inferInstanceAs (Decidable (_ ∧ _))

instance (items : List ScheduleItem) : Decidable (DepsFirst items) :=
  inferInstanceAs (Decidable (DepsFirstFrom [] items))

theorem DepsFirstFrom.earlier {items : List ScheduleItem} {seen : List String}
    (h : DepsFirstFrom seen items) :
    ∀ {pre : List ScheduleItem} {item : ScheduleItem} {post : List ScheduleItem},
      items = pre ++ item :: post → item.headDrv.drvPath ∉ seen →
      (∀ i ∈ pre, i.headDrv.drvPath ≠ item.headDrv.drvPath) →
      ∀ a ∈ item.headDrv.inputDrvs, a ∈ seen ∨ ∃ i ∈ pre, i.headDrv.drvPath = a := by
  induction items generalizing seen with
  | nil => intro pre item post hsplit; exact absurd hsplit (by simp)
  | cons x items ih =>
    intro pre item post hsplit hseen hfirst a ha
    cases pre with
    | nil =>
      obtain ⟨rfl, rfl⟩ : x = item ∧ items = post := by simpa using hsplit
      rcases h.1 with hmem | hall
      · exact absurd hmem hseen
      · exact Or.inl (hall a ha)
    | cons y pre =>
      obtain ⟨rfl, rfl⟩ : x = y ∧ items = pre ++ item :: post := by simpa using hsplit
      have hseen' : item.headDrv.drvPath ∉ x.headDrv.drvPath :: seen := by
        rw [List.mem_cons, not_or]
        exact ⟨Ne.symm (hfirst x (by simp)), hseen⟩
      rcases ih h.2 rfl hseen' (fun i hi => hfirst i (by simp [hi])) a ha with hmem | ⟨i, hi, hia⟩
      · rcases List.mem_cons.mp hmem with rfl | hmem
        · exact Or.inr ⟨x, by simp, rfl⟩
        · exact Or.inl hmem
      · exact Or.inr ⟨i, by simp [hi], hia⟩

/-! ## What the log says about Steps that succeeded -/

/-- The derivation has been completed with success. -/
def SucceededIn (log : List Event) (drvPath : String) : Prop :=
  ∃ d status, Event.completed d status ∈ log ∧ d.drvPath = drvPath ∧ status.isSuccess = true

/-- A Step is marked successful only by a completion the log has. -/
structure Witnessed (σ : Session) : Prop where
  tracks : Session.Tracks σ
  logged : ∀ k st, σ.strategy.byDrv.lookup k = some st → st.state.isSuccessfulTerminal = true →
    SucceededIn σ.log k

theorem SucceededIn.mono {log log' : List Event} {k : String} (h : SucceededIn log k) :
    SucceededIn (log ++ log') k := by
  obtain ⟨d, status, hm, h⟩ := h
  exact ⟨d, status, by simp [hm], h⟩

theorem Witnessed.dispatch {σ : Session} {s₁ : DagStrategy} (h : Witnessed σ)
    (hs : Shuffle σ.strategy s₁) :
    Witnessed (σ.record s₁.dispatch.2 .dispatch (.dispatched s₁.dispatch.1)) := by
  have hb := h.tracks.books.shuffle hs
  refine ⟨h.tracks.step hs .dispatch, ?_⟩
  have hspec := dispatch_spec s₁ hb.known_token
  rw [Session.record_strategy]
  cases hres : s₁.dispatch with
  | mk o s' =>
    rw [hres] at hspec
    intro k st hl hsucc
    cases hspec with
    | idle _ _ => exact h.logged k st ((hs.step k).symm.trans hl) hsucc
    | run _ _ _ _ =>
      rcases HashMap.lookup_modify_cases hl with ⟨-, st', -, rfl⟩ | ⟨-, hl'⟩
      · exact absurd hsucc (by simp [StepState.isSuccessfulTerminal])
      · exact (h.logged k st ((hs.step k).symm.trans hl') hsucc).mono

theorem Witnessed.complete {σ : Session} {s₁ : DagStrategy} (h : Witnessed σ)
    (hs : Shuffle σ.strategy s₁) {token : DispatchToken} (status : JobStatus)
    (hflight : ∃ d ∈ σ.inFlight, d.token = token) :
    Witnessed (σ.record (s₁.complete token status).2 (.complete token status)
      (.completed (s₁.complete token status).1)) := by
  have hb := h.tracks.books.shuffle hs
  refine ⟨h.tracks.step hs (.complete token status), ?_⟩
  have hspec := complete_spec s₁ token status hb.known_token
  obtain ⟨d₀, hmem, htok₀⟩ := hflight
  obtain ⟨std, hld, -, htok⟩ := (hs.runsAs d₀.drvPath d₀.token).mpr
    ((h.tracks.runs d₀.drvPath d₀.token).mpr ⟨d₀, hmem, rfl, rfl⟩)
  rw [htok₀] at htok
  have hknown := (hb.token token d₀.drvPath).mpr ⟨std, hld, htok⟩
  have hkeep : ∀ {k st} (effects : CompletionEffects) (s' : DagStrategy),
      s₁.byDrv.lookup k = some st → st.state.isSuccessfulTerminal = true →
      SucceededIn (σ.record s' (.complete token status) (.completed effects)).log k := by
    intro k st effects s' hl hsucc
    have := h.logged k st ((hs.step k).symm.trans hl) hsucc
    exact ((this.mono).mono).mono
  rw [Session.record_strategy]
  cases hres : s₁.complete token status with
  | mk effects s' =>
    rw [hres] at hspec
    intro k st hl hsucc
    cases hspec with
    | unknown hn => rw [hknown] at hn; exact absurd hn (by simp)
    | @succeeded d step ht hlstep hok =>
      obtain rfl : d = d₀.drvPath := by rw [hknown] at ht; exact (Option.some.inj ht).symm
      by_cases hk : k = d₀.drvPath
      · refine ⟨d₀, status, ?_, hk.symm, hok⟩
        simp [Session.record, hmem, htok₀]
      · obtain ⟨fresh, hlook⟩ := lookup_succeeded s₁ token d₀.drvPath k (.fromStatus status) step.rdeps
        rw [hl] at hlook
        obtain ⟨st₀, hl₀, hst⟩ := Option.map_eq_some_iff.mp hlook.symm
        simp only [if_neg hk] at hst
        split at hst
        · rw [← hst] at hsucc
          exact absurd hsucc (by simp [StepState.isSuccessfulTerminal])
        · rw [← hst] at hsucc
          exact hkeep _ _ hl₀ hsucc
    | @failed d step sk out _ ht hlstep hfail hc =>
      rw [hc.state, lookup_skipAll, lookup_closeToken] at hl
      split at hl
      · obtain ⟨st', -, rfl⟩ := Option.map_eq_some_iff.mp hl
        exact absurd hsucc (by simp [StepState.isSuccessfulTerminal])
      · split at hl
        · obtain ⟨st', -, rfl⟩ := Option.map_eq_some_iff.mp hl
          rw [Step.close_state, StepState.isSuccessfulTerminal_fromStatus, hfail] at hsucc
          exact absurd hsucc (by simp)
        · exact hkeep _ _ hl hsucc

theorem Witnessed.run {σ₀ σ : Session} (h : Witnessed σ₀) (hr : Session.Run Session.Drives σ₀ σ) :
    Witnessed σ := by
  induction hr with
  | refl => exact h
  | step _ hok hs hd ih =>
    cases hd with
    | setWeight r w => exact absurd hok (by simp [Session.Drives])
    | enqueue item _ => exact absurd hok (by simp [Session.Drives])
    | dispatch => exact ih.dispatch hs
    | complete token status => exact ih.complete hs status hok
    | cancelEval e => exact absurd hok (by simp [Session.Drives])

/-- Dispatches and completions leave the shape of the graph alone. -/
theorem sameLinks_run {σ₀ σ : Session} (h : Session.Tracks σ₀)
    (hr : Session.Run Session.Drives σ₀ σ) : SameLinks σ₀.strategy σ.strategy := by
  induction hr with
  | refl => exact .refl _
  | @step σ s₁ s' op a hr hok hs hd ih =>
    have hb := (h.run hr).books.shuffle hs
    rw [Session.record_strategy]
    refine ih.trans (hs.sameLinks.trans ?_)
    cases hd with
    | setWeight r w => exact absurd hok (by simp [Session.Drives])
    | enqueue item _ => exact absurd hok (by simp [Session.Drives])
    | dispatch => exact hb.sameLinks_dispatch
    | complete token status => exact hb.sameLinks_complete token status
    | cancelEval e => exact absurd hok (by simp [Session.Drives])

/-! ## Gating -/

/-- **The gating the daemon wants.** Whatever the order of the maps, of the completions and of
    their statuses: when a Step is dispatched, every top-level derivation in its closure has been
    completed with success. -/
def Gated (walk : ClosureWalk) (repoId : RepoId) (evalId : EvalId) (persisted : Persisted) : Prop :=
  ∀ (s₀ : DagStrategy) (σ : Session) (s₁ s' : DagStrategy) (d : Dispatched),
    Enqueued none (scheduleItems walk repoId evalId persisted) s₀ →
    Session.Run Session.Drives (Session.start s₀) σ → Shuffle σ.strategy s₁ →
    s₁.dispatch = (some d, s') →
    ∀ a ∈ toplevelDeps walk persisted d.drvPath, SucceededIn σ.log a

theorem gated_of_depsFirst (walk : ClosureWalk) (repoId : RepoId) (evalId : EvalId)
    (persisted : Persisted) (hord : DepsFirst (scheduleItems walk repoId evalId persisted)) :
    Gated walk repoId evalId persisted := by
  intro s₀ σ s₁ s' d henq hrun hs hd a ha
  have hload := henq.loaded
  have hstart : Session.Tracks (Session.start s₀) := by
    refine .start hload.reachable ?_
    rintro k t ⟨st, hl, hr, -⟩
    rcases hload.fresh k st hl with hp | hp <;> rw [hp] at hr <;> exact absurd hr (by decide)
  have hwit : Witnessed (Session.start s₀) := by
    refine ⟨hstart, fun k st hl hsucc => ?_⟩
    rcases hload.fresh k st hl with hp | hp <;> rw [hp] at hsucc <;> exact absurd hsucc (by decide)
  have hσ := hwit.run hrun
  have hb := hσ.tracks.books.shuffle hs
  have hlinks : SameLinks s₀ s₁ := (sameLinks_run hstart hrun).trans hs.sameLinks
  -- the dispatched Step was ready, so nothing it waits for is open
  obtain ⟨st, hl, hready, -⟩ := hb.ready_of_dispatch hd
  have hzero : s₁.openEdges d.drvPath = 0 := by
    have h₁ := hb.counter _ st hl
    have h₂ := hb.live_zero _ st hl (by rw [hready]; rfl)
    simp only [List.count_nil] at h₁
    omega
  -- its first mention came after all of its inputs
  obtain ⟨st₀, hl₀, -⟩ := hlinks.symm.lookup hl
  obtain ⟨i₀, hi₀, drv, hm, hdrv⟩ := hload.mentioned _ st₀ hl₀
  rw [mentions, (scheduleItems_spec hi₀).1, List.nil_append, List.mem_singleton] at hm
  have hfind : ((scheduleItems walk repoId evalId persisted).find?
      fun i => i.headDrv.drvPath = d.drvPath).isSome = true :=
    List.find?_isSome.mpr ⟨i₀, hi₀, by simpa using hm ▸ hdrv⟩
  obtain ⟨item, hitem⟩ := Option.isSome_iff_exists.mp hfind
  obtain ⟨hhead, pre, post, hsplit, hfirst⟩ := List.find?_eq_some_iff_append.mp hitem
  have hhead' : item.headDrv.drvPath = d.drvPath := by simpa using hhead
  have hfirst' : ∀ i ∈ pre, i.headDrv.drvPath ≠ item.headDrv.drvPath := by
    intro i hi
    rw [hhead']
    simpa using hfirst i hi
  have hinput : a ∈ item.headDrv.inputDrvs := by
    rw [(scheduleItems_spec (List.mem_of_find?_eq_some hitem)).2, hhead']
    exact ha
  have hearlier : ∃ i ∈ pre, i.headDrv.drvPath = a := by
    rcases DepsFirstFrom.earlier hord hsplit (by simp) hfirst' a hinput with h | h
    · exact absurd h (by simp)
    · exact h
  obtain ⟨sta, hla, hmem⟩ : s₁.Edge a d.drvPath := by
    refine (hlinks.edge _ _).mpr (hhead' ▸ ?_)
    exact edge_of_earlier henq (fun i hi => (scheduleItems_spec hi).1) pre item post hsplit hfirst' a
      hinput hearlier
  -- so the input's Step has succeeded
  refine hσ.logged a sta ((hs.step a).symm.trans hla) ?_
  by_contra hns
  rw [Bool.not_eq_true] at hns
  have := Counters.openEdges_pos hla hmem hns
  omega

/-! ## Two Jobs, in both orders -/

/-- `b` reads `a`. -/
def pairWalk : ClosureWalk :=
  { heads := ["a", "b"]
    derivations := (AList.insert "b" ⟨"b", none, [], ["a"]⟩ ∅ : HashMap String DerivationInfo).insert
      "a" ⟨"a", none, [], []⟩ }

def specOf (drvPath : String) : JobSpec := ⟨drvPath, some drvPath, none, none, false, [], none, []⟩

def dependentFirst : Persisted := [(specOf "b", ⟨1⟩), (specOf "a", ⟨2⟩)]

def inputFirst : Persisted := [(specOf "a", ⟨1⟩), (specOf "b", ⟨2⟩)]

/-- Which top-level derivation waits for which. -/
def WaitsFor (walk : ClosureWalk) (persisted : Persisted) (a b : String) : Prop :=
  b ∈ headPaths persisted ∧ a ∈ toplevelDeps walk persisted b

theorem acyclic_pairWalk : Acyclic (WaitsFor pairWalk dependentFirst) := by
  refine .of_rank (fun d => if d = "a" then 0 else 1) ?_
  rintro a b ⟨hb, ha⟩
  have hall : ∀ b ∈ headPaths dependentFirst, ∀ a ∈ toplevelDeps pairWalk dependentFirst b,
      (if a = "a" then 0 else 1) < if b = "a" then 0 else 1 := by decide
  exact hall b hb a ha

def dependentFirstLoaded : DagStrategy :=
  load none (scheduleItems pairWalk ⟨1⟩ ⟨1⟩ dependentFirst)

/-- `b` is enqueued first, finds no Step for `a`, takes it for an external input, and is the
    first thing to be dispatched. -/
theorem dependentFirst_dispatches_dependent :
    dependentFirstLoaded.dispatch.1 = some ⟨⟨0⟩, ⟨1⟩, ⟨1⟩, "b", none, [], some ⟨1⟩⟩ := by
  decide

theorem not_gated_dependent_first :
    Acyclic (WaitsFor pairWalk dependentFirst) ∧ ¬ Gated pairWalk ⟨1⟩ ⟨1⟩ dependentFirst := by
  refine ⟨acyclic_pairWalk, fun h => ?_⟩
  have hd : dependentFirstLoaded.dispatch
      = (some ⟨⟨0⟩, ⟨1⟩, ⟨1⟩, "b", none, [], some ⟨1⟩⟩, dependentFirstLoaded.dispatch.2) :=
    Prod.ext dependentFirst_dispatches_dependent rfl
  have hdep : "a" ∈ toplevelDeps pairWalk dependentFirst "b" := by decide
  obtain ⟨d, status, hmem, -⟩ := h dependentFirstLoaded (Session.start dependentFirstLoaded)
    dependentFirstLoaded _ _ (enqueued_load _ _) .refl (.refl _) hd "a" hdep
  exact absurd hmem (by simp [Session.start])

theorem gated_input_first : Gated pairWalk ⟨1⟩ ⟨1⟩ inputFirst :=
  gated_of_depsFirst pairWalk ⟨1⟩ ⟨1⟩ inputFirst (by decide)

end Argunix.Daemon
