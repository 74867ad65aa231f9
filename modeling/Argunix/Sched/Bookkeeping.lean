import Argunix.Sched.StepGraph

/-!
# The bookkeeping invariant of the DAG strategy

Five maps have to agree: the Steps, the edges recorded in their `rdeps`, the tokens they hold,
the map back from tokens to Steps, and the WFQ queues. `Bookkeeping` says how.

The counter of a Step is the number of recorded edges that reach it from Steps that have not
succeeded. That equation is broken in the middle of `complete`, between the moment a Step is
marked successful and the moment the last of its rdeps is decremented, so the invariant is
indexed by the list of decrements still **owed**; between operations nothing is.

Each primitive update of `Sched.Dag` has one lemma. The operations are then chains of these.
-/

set_option autoImplicit false

namespace Argunix.Sched

open Argunix.Lib

namespace DagStrategy

/-- Recorded edges into `d` from Steps that have not succeeded. -/
def openEdges (s : DagStrategy) (d : String) : ℕ :=
  s.byDrv.sumOver fun _ st => if st.state.isSuccessfulTerminal then 0 else st.rdeps.count d

/-- The counters and the recorded edges. -/
structure Counters (owed : List String) (s : DagStrategy) : Prop where
  counter : ∀ d st, s.byDrv.lookup d = some st →
    st.depsUnfinished = s.openEdges d + owed.count d
  /-- Edges lead to Steps of the graph. -/
  known : ∀ p r, s.Edge p r → ∃ st, s.byDrv.lookup r = some st
  live_zero : ∀ d st, s.byDrv.lookup d = some st → st.state.isLive = true → st.depsUnfinished = 0

/-- The tokens, the map back from them, and the WFQ core. -/
structure Tokens (s : DagStrategy) : Prop where
  path : ∀ d st, s.byDrv.lookup d = some st → st.drvPath = d
  /-- Exactly the Steps that are ready or running hold a token. -/
  holds : ∀ d st, s.byDrv.lookup d = some st → st.inFlightToken.isSome = st.state.isLive
  /-- `tokenToDrv` is exactly the inverse of `inFlightToken`. -/
  token : ∀ t d, s.tokenToDrv.lookup t = some d ↔
    ∃ st, s.byDrv.lookup d = some st ∧ st.inFlightToken = some t
  tokenFresh : ∀ t d, s.tokenToDrv.lookup t = some d → t.get < s.nextToken
  queuedFresh : ∀ t, 0 < s.wfq.queuedCount t → t.get < s.nextToken
  /-- A token that is mapped is queued once while its Step is ready, and not at all after. -/
  queued : ∀ t d st, s.tokenToDrv.lookup t = some d → s.byDrv.lookup d = some st →
    s.wfq.queuedCount t = if st.state = .ready then 1 else 0
  /-- The WFQ slots in use are those of the running Steps. -/
  slots : ∀ t, (s.wfq.inFlight.lookup t).isSome = true ↔
    ∃ d st, s.byDrv.lookup d = some st ∧ st.inFlightToken = some t ∧ st.state = .running

structure Bookkeeping (owed : List String) (s : DagStrategy) : Prop
    extends Counters owed s, Tokens s

variable {s s' : DagStrategy} {owed : List String}

/-! ## Tokens -/

/-- The fields of a Step that `Tokens` reads. -/
def tokenView (st : Step) : String × StepState × Option DispatchToken :=
  (st.drvPath, st.state, st.inFlightToken)

namespace Tokens

theorem of_token (h : Tokens s) {t : DispatchToken} {d : String}
    (ht : s.tokenToDrv.lookup t = some d) :
    ∃ st, s.byDrv.lookup d = some st ∧ st.inFlightToken = some t ∧ st.state.isLive = true := by
  obtain ⟨st, hl, htok⟩ := (h.token t d).mp ht
  refine ⟨st, hl, htok, ?_⟩
  rw [← h.holds d st hl, htok]
  rfl

/-- No two Steps hold one token. -/
theorem injective (h : Tokens s) {t : DispatchToken} {d d' : String} {st st' : Step}
    (hl : s.byDrv.lookup d = some st) (ht : st.inFlightToken = some t)
    (hl' : s.byDrv.lookup d' = some st') (ht' : st'.inFlightToken = some t) : d = d' := by
  have h₁ := (h.token t d).mpr ⟨st, hl, ht⟩
  have h₂ := (h.token t d').mpr ⟨st', hl', ht'⟩
  rw [h₁] at h₂
  exact Option.some.inj h₂

/-- `Tokens` reads nothing but lookups, and of each Step nothing but its `tokenView`. -/
theorem congr (h : Tokens s)
    (hv : ∀ d, (s'.byDrv.lookup d).map tokenView = (s.byDrv.lookup d).map tokenView)
    (ht : ∀ t, s'.tokenToDrv.lookup t = s.tokenToDrv.lookup t) (hn : s'.nextToken = s.nextToken)
    (hq : ∀ t, s'.wfq.queuedCount t = s.wfq.queuedCount t)
    (hi : ∀ t, s'.wfq.inFlight.lookup t = s.wfq.inFlight.lookup t) : Tokens s' := by
  have hold : ∀ {d st'}, s'.byDrv.lookup d = some st' →
      ∃ st, s.byDrv.lookup d = some st ∧ tokenView st' = tokenView st := by
    intro d st' hd
    have := hv d
    rw [hd, Option.map_some] at this
    obtain ⟨st, hl, he⟩ := Option.map_eq_some_iff.mp this.symm
    exact ⟨st, hl, he.symm⟩
  have hnew : ∀ {d st}, s.byDrv.lookup d = some st →
      ∃ st', s'.byDrv.lookup d = some st' ∧ tokenView st' = tokenView st := by
    intro d st hd
    have := hv d
    rw [hd, Option.map_some] at this
    obtain ⟨st', hl, he⟩ := Option.map_eq_some_iff.mp this
    exact ⟨st', hl, he⟩
  simp only [tokenView, Prod.mk.injEq] at hold hnew
  constructor
  · intro d st' hd
    obtain ⟨st, hl, hp, -, -⟩ := hold hd
    rw [hp, h.path d st hl]
  · intro d st' hd
    obtain ⟨st, hl, -, hst, htok⟩ := hold hd
    rw [htok, hst, h.holds d st hl]
  · intro t d
    rw [ht, h.token t d]
    constructor
    · rintro ⟨st, hl, htok⟩
      obtain ⟨st', hl', -, -, htok'⟩ := hnew hl
      exact ⟨st', hl', htok'.trans htok⟩
    · rintro ⟨st', hl', htok'⟩
      obtain ⟨st, hl, -, -, htok⟩ := hold hl'
      exact ⟨st, hl, htok.symm.trans htok'⟩
  · intro t d htd
    rw [ht] at htd
    rw [hn]
    exact h.tokenFresh t d htd
  · intro t htq
    rw [hq] at htq
    rw [hn]
    exact h.queuedFresh t htq
  · intro t d st' htd hd
    obtain ⟨st, hl, -, hst, -⟩ := hold hd
    rw [ht] at htd
    rw [hst, hq]
    exact h.queued t d st htd hl
  · intro t
    rw [hi, h.slots t]
    constructor
    · rintro ⟨d, st, hl, htok, hrun⟩
      obtain ⟨st', hl', -, hst, htok'⟩ := hnew hl
      exact ⟨d, st', hl', htok'.trans htok, hst.trans hrun⟩
    · rintro ⟨d, st', hl', htok', hrun⟩
      obtain ⟨st, hl, -, hst, htok⟩ := hold hl'
      exact ⟨d, st, hl, htok.symm.trans htok', hst.symm.trans hrun⟩

theorem modify (h : Tokens s) {f : Step → Step} (hf : ∀ st, tokenView (f st) = tokenView st)
    (k : String) : Tokens (s.modifyStep k f) :=
  h.congr (HashMap.map_modify_of_view hf k) (fun _ => rfl) rfl (fun _ => rfl) fun _ => rfl

theorem shuffle (h : Tokens s) (hs : Shuffle s s') : Tokens s' :=
  h.congr (fun d => by rw [hs.step]) hs.token hs.nextToken hs.wfq.queuedCount
    fun t => (HashMap.Shuffle.lookup hs.wfq.inFlight t).symm

/-- A fresh Step holds no token. -/
theorem insert (h : Tokens s) {drv : DerivationInfo} (hnone : s.byDrv.lookup drv.drvPath = none)
    (repoId : RepoId) (evalId : EvalId) :
    Tokens { s with byDrv := s.byDrv.insert drv.drvPath (Step.new drv repoId evalId) } := by
  have hl : ∀ {d st}, (s.byDrv.insert drv.drvPath (Step.new drv repoId evalId)).lookup d = some st →
      (d = drv.drvPath ∧ st = Step.new drv repoId evalId) ∨ s.byDrv.lookup d = some st := by
    intro d st hd
    rw [HashMap.lookup_insert_eq] at hd
    split at hd
    · rename_i hk
      exact Or.inl ⟨hk, (Option.some.inj hd).symm⟩
    · exact Or.inr hd
  have hr : ∀ {d st}, s.byDrv.lookup d = some st →
      (s.byDrv.insert drv.drvPath (Step.new drv repoId evalId)).lookup d = some st := by
    intro d st hd
    rw [HashMap.lookup_insert_eq, if_neg ?_, hd]
    rintro rfl
    rw [hnone] at hd
    exact absurd hd (by simp)
  constructor
  · intro d st hd
    rcases hl hd with ⟨rfl, rfl⟩ | hd
    · rfl
    · exact h.path d st hd
  · intro d st hd
    rcases hl hd with ⟨rfl, rfl⟩ | hd
    · rfl
    · exact h.holds d st hd
  · intro t d
    constructor
    · intro ht
      obtain ⟨st, hd, htok⟩ := (h.token t d).mp ht
      exact ⟨st, hr hd, htok⟩
    · rintro ⟨st, hd, htok⟩
      rcases hl hd with ⟨rfl, rfl⟩ | hd
      · exact absurd htok (by simp [Step.new])
      · exact (h.token t d).mpr ⟨st, hd, htok⟩
  · exact h.tokenFresh
  · exact h.queuedFresh
  · intro t d st ht hd
    rcases hl hd with ⟨rfl, rfl⟩ | hd
    · obtain ⟨st', hd', -⟩ := (h.token t _).mp ht
      rw [hnone] at hd'
      exact absurd hd' (by simp)
    · exact h.queued t d st ht hd
  · intro t
    refine (h.slots t).trans ⟨?_, ?_⟩
    · rintro ⟨d, st, hd, htok, hrun⟩
      exact ⟨d, st, hr hd, htok, hrun⟩
    · rintro ⟨d, st, hd, htok, hrun⟩
      rcases hl hd with ⟨rfl, rfl⟩ | hd
      · exact absurd htok (by simp [Step.new])
      · exact ⟨d, st, hd, htok, hrun⟩

/-- Promotion mints a token that neither map nor queue has seen. -/
theorem promoteStep (h : Tokens s) {p : String × RepoId} {st₀ : Step}
    (hl₀ : s.byDrv.lookup p.1 = some st₀) (hp : st₀.state = .pending) : Tokens (s.promoteStep p) := by
  have hnotok : st₀.inFlightToken = none := by
    have := h.holds p.1 st₀ hl₀
    rw [hp] at this
    simpa [StepState.isLive] using this
  have hunmapped : s.tokenToDrv.lookup ⟨s.nextToken⟩ = none := by
    cases ht : s.tokenToDrv.lookup ⟨s.nextToken⟩ with
    | none => rfl
    | some d => exact absurd (h.tokenFresh _ d ht) (lt_irrefl _)
  have hunqueued : s.wfq.queuedCount ⟨s.nextToken⟩ = 0 := by
    by_contra hne
    exact absurd (h.queuedFresh _ (Nat.pos_of_ne_zero hne)) (lt_irrefl _)
  have htoks : ∀ t, (s.promoteStep p).tokenToDrv.lookup t
      = if t = ⟨s.nextToken⟩ then some p.1 else s.tokenToDrv.lookup t :=
    fun t => HashMap.lookup_insert_eq _ _ _ _
  have hqueue : ∀ t, (s.promoteStep p).wfq.queuedCount t
      = s.wfq.queuedCount t + if t = ⟨s.nextToken⟩ then 1 else 0 :=
    fun t => WfqCore.queuedCount_enqueue _ _ _ _
  constructor
  · intro d st hd
    rcases HashMap.lookup_modify_cases hd with ⟨rfl, st', hl, rfl⟩ | ⟨-, hl⟩
    · exact h.path _ st' hl
    · exact h.path d st hl
  · intro d st hd
    rcases HashMap.lookup_modify_cases hd with ⟨rfl, st', -, rfl⟩ | ⟨-, hl⟩
    · rfl
    · exact h.holds d st hl
  · intro t d
    rw [htoks]
    by_cases ht : t = ⟨s.nextToken⟩
    · subst ht
      rw [if_pos rfl]
      constructor
      · intro hd
        obtain rfl := Option.some.inj hd
        exact ⟨_, HashMap.lookup_modify_self hl₀, rfl⟩
      · rintro ⟨st, hd, htok⟩
        rcases HashMap.lookup_modify_cases hd with ⟨rfl, -⟩ | ⟨-, hl⟩
        · rfl
        · have := (h.token _ d).mpr ⟨st, hl, htok⟩
          rw [hunmapped] at this
          exact absurd this (by simp)
    · rw [if_neg ht, h.token t d]
      constructor
      · rintro ⟨st, hl, htok⟩
        refine ⟨st, (HashMap.lookup_modify_ne ?_).trans hl, htok⟩
        rintro rfl
        rw [hl₀, Option.some.injEq] at hl
        subst hl
        rw [hnotok] at htok
        exact absurd htok (by simp)
      · rintro ⟨st, hd, htok⟩
        rcases HashMap.lookup_modify_cases hd with ⟨rfl, st', -, rfl⟩ | ⟨-, hl⟩
        · exact absurd (Option.some.inj htok).symm ht
        · exact ⟨st, hl, htok⟩
  · intro t d ht
    rw [htoks] at ht
    split at ht
    · rename_i heq
      subst heq
      exact Nat.lt_succ_self _
    · exact lt_trans (h.tokenFresh t d ht) (Nat.lt_succ_self _)
  · intro t ht
    rw [hqueue] at ht
    by_cases heq : t = ⟨s.nextToken⟩
    · subst heq
      exact Nat.lt_succ_self _
    · rw [if_neg heq] at ht
      exact lt_trans (h.queuedFresh t ht) (Nat.lt_succ_self _)
  · intro t d st ht hd
    rw [htoks] at ht
    rw [hqueue]
    by_cases heq : t = ⟨s.nextToken⟩
    · subst heq
      rw [if_pos rfl, Option.some.injEq] at ht
      subst ht
      rcases HashMap.lookup_modify_cases hd with ⟨-, st', -, rfl⟩ | ⟨hne, -⟩
      · simp [hunqueued]
      · exact absurd rfl hne
    · rw [if_neg heq] at ht ⊢
      rcases HashMap.lookup_modify_cases hd with ⟨rfl, -⟩ | ⟨-, hl⟩
      · obtain ⟨st', hl', htok, -⟩ := h.of_token ht
        rw [hl₀, Option.some.injEq] at hl'
        subst hl'
        rw [hnotok] at htok
        exact absurd htok (by simp)
      · rw [Nat.add_zero]
        exact h.queued t d st ht hl
  · intro t
    refine (h.slots t).trans ⟨?_, ?_⟩
    · rintro ⟨d, st, hl, htok, hrun⟩
      refine ⟨d, st, (HashMap.lookup_modify_ne ?_).trans hl, htok, hrun⟩
      rintro rfl
      rw [hl₀, Option.some.injEq] at hl
      subst hl
      rw [hp] at hrun
      exact absurd hrun (by decide)
    · rintro ⟨d, st, hd, htok, hrun⟩
      rcases HashMap.lookup_modify_cases hd with ⟨rfl, st', -, rfl⟩ | ⟨-, hl⟩
      · exact absurd hrun (by simp)
      · exact ⟨d, st, hl, htok, hrun⟩

/-- Closing a Step gives its token up, in the map and in the WFQ slots. -/
theorem close (h : Tokens s) {k : String} {st₀ : Step} {x : StepState}
    (hl₀ : s.byDrv.lookup k = some st₀) (hx : x.isLive = false)
    {tokens : HashMap DispatchToken String} {wfq : WfqCore DispatchToken}
    (ht : ∀ t, tokens.lookup t
      = if st₀.inFlightToken = some t then none else s.tokenToDrv.lookup t)
    (hq : ∀ t, wfq.queuedCount t = s.wfq.queuedCount t)
    (hi : ∀ t, wfq.inFlight.lookup t
      = if st₀.inFlightToken = some t then none else s.wfq.inFlight.lookup t) :
    Tokens { s with
      byDrv := s.byDrv.modify k (·.close x), tokenToDrv := tokens, wfq := wfq } := by
  -- a token that is still mapped belongs to another Step
  have hother : ∀ {t d}, s.tokenToDrv.lookup t = some d → st₀.inFlightToken ≠ some t → d ≠ k := by
    rintro t d htd hne rfl
    obtain ⟨st, hl, htok, -⟩ := h.of_token htd
    rw [hl₀, Option.some.injEq] at hl
    exact hne (hl ▸ htok)
  constructor
  · intro d st hd
    rcases HashMap.lookup_modify_cases hd with ⟨rfl, st', hl, rfl⟩ | ⟨-, hl⟩
    · exact h.path _ st' hl
    · exact h.path d st hl
  · intro d st hd
    rcases HashMap.lookup_modify_cases hd with ⟨rfl, st', -, rfl⟩ | ⟨-, hl⟩
    · exact hx.symm
    · exact h.holds d st hl
  · intro t d
    rw [ht]
    by_cases hmine : st₀.inFlightToken = some t
    · rw [if_pos hmine]
      refine ⟨fun hd => absurd hd (by simp), ?_⟩
      rintro ⟨st, hd, htok⟩
      rcases HashMap.lookup_modify_cases hd with ⟨rfl, st', -, rfl⟩ | ⟨hne, hl⟩
      · exact absurd htok (by simp)
      · exact absurd (h.injective hl htok hl₀ hmine) hne
    · rw [if_neg hmine]
      constructor
      · intro htd
        obtain ⟨st, hl, htok, -⟩ := h.of_token htd
        exact ⟨st, (HashMap.lookup_modify_ne (hother htd hmine)).trans hl, htok⟩
      · rintro ⟨st, hd, htok⟩
        rcases HashMap.lookup_modify_cases hd with ⟨rfl, st', -, rfl⟩ | ⟨-, hl⟩
        · exact absurd htok (by simp)
        · exact (h.token t d).mpr ⟨st, hl, htok⟩
  · intro t d htd
    rw [ht] at htd
    split at htd
    · exact absurd htd (by simp)
    · exact h.tokenFresh t d htd
  · intro t htq
    rw [hq] at htq
    exact h.queuedFresh t htq
  · intro t d st htd hd
    rw [ht] at htd
    split at htd
    · exact absurd htd (by simp)
    · rename_i hmine
      rw [HashMap.lookup_modify_ne (hother htd hmine)] at hd
      exact (hq t).trans (h.queued t d st htd hd)
  · intro t
    rw [hi]
    by_cases hmine : st₀.inFlightToken = some t
    · rw [if_pos hmine]
      refine ⟨fun hsome => absurd hsome (by simp), ?_⟩
      rintro ⟨d, st, hd, htok, -⟩
      rcases HashMap.lookup_modify_cases hd with ⟨rfl, st', -, rfl⟩ | ⟨hne, hl⟩
      · exact absurd htok (by simp)
      · exact absurd (h.injective hl htok hl₀ hmine) hne
    · rw [if_neg hmine]
      refine (h.slots t).trans ⟨?_, ?_⟩
      · rintro ⟨d, st, hl, htok, hrun⟩
        have hne : d ≠ k := hother ((h.token t d).mpr ⟨st, hl, htok⟩) hmine
        exact ⟨d, st, (HashMap.lookup_modify_ne hne).trans hl, htok, hrun⟩
      · rintro ⟨d, st, hd, htok, hrun⟩
        rcases HashMap.lookup_modify_cases hd with ⟨rfl, st', -, rfl⟩ | ⟨-, hl⟩
        · exact absurd htok (by simp)
        · exact ⟨d, st, hl, htok, hrun⟩

/-- `retire`, for a Step that is not running: it occupies no slot. -/
theorem retire (h : Tokens s) {k : String} {st₀ : Step} {x : StepState}
    (hl₀ : s.byDrv.lookup k = some st₀) (hx : x.isLive = false) (hnr : st₀.state ≠ .running) :
    Tokens (s.retire k x) := by
  refine h.close hl₀ hx ?_ (fun _ => rfl) ?_
  · intro t
    simp only [hl₀, Option.bind_some]
    cases htok : st₀.inFlightToken with
    | none => simp
    | some tok => simp [HashMap.lookup_erase_eq, eq_comm]
  · intro t
    split
    · rename_i hmine
      cases hin : s.wfq.inFlight.lookup t with
      | none => rfl
      | some r =>
        obtain ⟨d, st, hl, htok, hrun⟩ := (h.slots t).mp (by rw [hin]; rfl)
        obtain rfl := h.injective hl htok hl₀ hmine
        rw [hl₀, Option.some.injEq] at hl
        exact absurd (hl ▸ hrun) hnr
    · rfl

/-- A popped token without a Step behind it is swallowed. -/
theorem swallow (h : Tokens s) {p : Popped DispatchToken} {c' : WfqCore DispatchToken}
    (hd : s.wfq.dispatch = (some p, c')) (hstale : s.tokenToDrv.lookup p.tag = none) :
    Tokens { s with wfq := (c'.complete p.tag).2 } := by
  have hq : ∀ t, s.wfq.queuedCount t
      = (c'.complete p.tag).2.queuedCount t + if t = p.tag then 1 else 0 := fun t =>
    WfqCore.queuedCount_pop hd t
  have hi : ∀ t, (c'.complete p.tag).2.inFlight.lookup t
      = if t = p.tag then none else s.wfq.inFlight.lookup t := by
    intro t
    rw [WfqCore.complete, (WfqCore.inFlight_pop hd).1, HashMap.lookup_erase_eq,
      HashMap.lookup_insert_eq]
    split <;> rfl
  refine ⟨h.path, h.holds, h.token, h.tokenFresh, ?_, ?_, ?_⟩
  · intro t ht
    have := hq t
    exact h.queuedFresh t (by simp only at ht; omega)
  · intro t d st ht hl
    have hne : t ≠ p.tag := by
      rintro rfl
      rw [hstale] at ht
      exact absurd ht (by simp)
    have := hq t
    rw [if_neg hne] at this
    exact this.symm.trans (h.queued t d st ht hl)
  · intro t
    simp only [hi]
    by_cases ht : t = p.tag
    · subst ht
      rw [if_pos rfl]
      refine ⟨fun hsome => absurd hsome (by simp), ?_⟩
      rintro ⟨d, st, hl, htok, -⟩
      have := (h.token _ d).mpr ⟨st, hl, htok⟩
      rw [hstale] at this
      exact absurd this (by simp)
    · rw [if_neg ht]
      exact h.slots t

theorem swallowed (h : Tokens s) {c : WfqCore DispatchToken} (hc : Swallowed s c) :
    Tokens { s with wfq := c } := by
  induction hc with
  | start => exact h
  | pop _ hd hstale ih => exact ih.swallow hd hstale

/-- A popped token that is mapped was queued, so its Step is ready. -/
theorem ready_of_pop (h : Tokens s) {p : Popped DispatchToken} {c' : WfqCore DispatchToken}
    {d : String} {st : Step} (hd : s.wfq.dispatch = (some p, c'))
    (ht : s.tokenToDrv.lookup p.tag = some d) (hl : s.byDrv.lookup d = some st) :
    st.state = .ready := by
  by_contra hne
  have hq := h.queued _ d st ht hl
  rw [if_neg hne] at hq
  have := WfqCore.queuedCount_pop hd p.tag
  rw [hq, if_pos rfl] at this
  omega

/-- The Step of a popped token starts running, and its token moves from queue to slot. -/
theorem run (h : Tokens s) {p : Popped DispatchToken} {c' : WfqCore DispatchToken}
    {d₀ : String} {st₀ : Step} (hd : s.wfq.dispatch = (some p, c'))
    (ht₀ : s.tokenToDrv.lookup p.tag = some d₀) (hl₀ : s.byDrv.lookup d₀ = some st₀) :
    Tokens { s with wfq := c', byDrv := s.byDrv.modify d₀ (·.makeRunning) } := by
  have hready := h.ready_of_pop hd ht₀ hl₀
  have htok₀ : st₀.inFlightToken = some p.tag := by
    obtain ⟨st, hl, htok, -⟩ := h.of_token ht₀
    rw [hl₀, Option.some.injEq] at hl
    exact hl ▸ htok
  have hq := WfqCore.queuedCount_pop hd
  have hi : ∀ t, c'.inFlight.lookup t
      = if t = p.tag then some p.repoId else s.wfq.inFlight.lookup t := by
    intro t
    rw [(WfqCore.inFlight_pop hd).1, HashMap.lookup_insert_eq]
  constructor
  · intro d st hd
    rcases HashMap.lookup_modify_cases hd with ⟨rfl, st', hl, rfl⟩ | ⟨-, hl⟩
    · exact h.path _ st' hl
    · exact h.path d st hl
  · intro d st hd
    rcases HashMap.lookup_modify_cases hd with ⟨rfl, st', hl, rfl⟩ | ⟨-, hl⟩
    · rw [hl₀, Option.some.injEq] at hl
      subst hl
      simp [htok₀, StepState.isLive]
    · exact h.holds d st hl
  · intro t d
    refine (h.token t d).trans ⟨?_, ?_⟩
    · rintro ⟨st, hl, htok⟩
      by_cases hk : d = d₀
      · subst hk
        exact ⟨_, HashMap.lookup_modify_self hl, htok⟩
      · exact ⟨st, (HashMap.lookup_modify_ne hk).trans hl, htok⟩
    · rintro ⟨st, hd, htok⟩
      rcases HashMap.lookup_modify_cases hd with ⟨rfl, st', hl, rfl⟩ | ⟨-, hl⟩
      · exact ⟨st', hl, htok⟩
      · exact ⟨st, hl, htok⟩
  · exact h.tokenFresh
  · intro t ht
    have := hq t
    exact h.queuedFresh t (by simp only at ht; omega)
  · intro t d st ht hd
    have hqt := hq t
    rcases HashMap.lookup_modify_cases hd with ⟨rfl, st', hl, rfl⟩ | ⟨hne, hl⟩
    · -- the Step that starts: its token was queued once and has just been popped
      rw [hl₀, Option.some.injEq] at hl
      subst hl
      have hmine : t = p.tag := by
        obtain ⟨st, hl, htok, -⟩ := h.of_token ht
        rw [hl₀, Option.some.injEq] at hl
        subst hl
        rw [htok₀] at htok
        exact (Option.some.inj htok).symm
      have hone := h.queued t d st₀ ht hl₀
      rw [if_pos hready] at hone
      rw [if_pos hmine, hone] at hqt
      simp only [Step.makeRunning_state, reduceCtorEq, if_false]
      omega
    · have hother : t ≠ p.tag := by
        rintro rfl
        rw [ht₀, Option.some.injEq] at ht
        exact hne ht.symm
      rw [if_neg hother] at hqt
      exact hqt.symm.trans (h.queued t d st ht hl)
  · intro t
    simp only [hi]
    by_cases ht : t = p.tag
    · subst ht
      rw [if_pos rfl]
      exact ⟨fun _ => ⟨d₀, _, HashMap.lookup_modify_self hl₀, htok₀, rfl⟩, fun _ => rfl⟩
    · rw [if_neg ht]
      refine (h.slots t).trans ⟨?_, ?_⟩
      · rintro ⟨d, st, hl, htok, hrun⟩
        refine ⟨d, st, (HashMap.lookup_modify_ne ?_).trans hl, htok, hrun⟩
        rintro rfl
        rw [hl₀, Option.some.injEq] at hl
        subst hl
        rw [hready] at hrun
        exact absurd hrun (by decide)
      · rintro ⟨d, st, hd, htok, hrun⟩
        rcases HashMap.lookup_modify_cases hd with ⟨rfl, st', hl, rfl⟩ | ⟨-, hl⟩
        · rw [hl₀, Option.some.injEq] at hl
          subst hl
          have : some p.tag = some t := htok₀.symm.trans htok
          exact absurd (Option.some.inj this).symm ht
        · exact ⟨d, st, hl, htok, hrun⟩

end Tokens

/-! ## Counters -/

namespace Counters

theorem pending_of_openEdges (h : Counters [] s) {d : String} {st : Step}
    (hl : s.byDrv.lookup d = some st) (hpos : 0 < s.openEdges d)
    (hopen : st.state.isTerminal = false) : st.state = .pending := by
  rcases st.state.pending_or_live_or_terminal with hp | hlive | ht
  · exact hp
  · have hcount := h.counter d st hl
    have hzero := h.live_zero d st hl hlive
    simp only [List.count_nil] at hcount
    omega
  · rw [hopen] at ht
    exact absurd ht (by simp)

theorem openEdges_pos {p r : String} {st : Step} (hl : s.byDrv.lookup p = some st)
    (hr : r ∈ st.rdeps) (hns : st.state.isSuccessfulTerminal = false) : 0 < s.openEdges r := by
  have hle := HashMap.le_sumOver
    (w := fun _ (st : Step) => if st.state.isSuccessfulTerminal then 0 else st.rdeps.count r) hl
  simp only [hns, Bool.false_eq_true, if_false] at hle
  have := List.count_pos_iff.mpr hr
  unfold openEdges
  omega

/-- A counter is positive only for a reason. -/
theorem exists_edge_of_openEdges {d : String} (h : s.openEdges d ≠ 0) :
    ∃ p st, s.byDrv.lookup p = some st ∧ d ∈ st.rdeps ∧ st.state.isSuccessfulTerminal = false := by
  by_contra hno
  refine h (HashMap.sumOver_eq_zero_iff.mpr fun p st hl => ?_)
  cases hs : st.state.isSuccessfulTerminal with
  | true => simp
  | false =>
    simp only [Bool.false_eq_true, if_false, List.count_eq_zero]
    exact fun hd => hno ⟨p, st, hl, hd, hs⟩

/-- Several open edges from one Step count several times. -/
theorem count_le_openEdges {p r : String} {st : Step} (hl : s.byDrv.lookup p = some st)
    (hns : st.state.isSuccessfulTerminal = false) : st.rdeps.count r ≤ s.openEdges r := by
  have hle := HashMap.le_sumOver
    (w := fun _ (st : Step) => if st.state.isSuccessfulTerminal then 0 else st.rdeps.count r) hl
  simp only [hns, Bool.false_eq_true, if_false] at hle
  exact hle

theorem openEdges_modifyStep {f : Step → Step} (hs : ∀ st, (f st).state = st.state)
    (hr : ∀ st, (f st).rdeps = st.rdeps) (k d : String) :
    (s.modifyStep k f).openEdges d = s.openEdges d := by
  unfold openEdges modifyStep
  exact HashMap.sumOver_modify_same (fun st => by rw [hs, hr]) _

theorem shuffle (h : Counters owed s) (hs : Shuffle s s') : Counters owed s' := by
  have hopen : ∀ d, s'.openEdges d = s.openEdges d :=
    fun d => (HashMap.sumOver_shuffle hs.byDrv).symm
  constructor
  · simpa only [hs.step, hopen] using h.counter
  · simpa only [hs.step, Edge] using h.known
  · simpa only [hs.step] using h.live_zero

theorem insert (h : Counters [] s) {drv : DerivationInfo}
    (hnone : s.byDrv.lookup drv.drvPath = none) (repoId : RepoId) (evalId : EvalId) :
    Counters [] { s with byDrv := s.byDrv.insert drv.drvPath (Step.new drv repoId evalId) } := by
  have hopen : ∀ d, openEdges
      { s with byDrv := s.byDrv.insert drv.drvPath (Step.new drv repoId evalId) } d
        = s.openEdges d := by
    intro d
    unfold openEdges
    rw [HashMap.sumOver_insert_of_notMem hnone]
    exact Nat.zero_add _
  have hl : ∀ {d st}, (s.byDrv.insert drv.drvPath (Step.new drv repoId evalId)).lookup d = some st →
      (d = drv.drvPath ∧ st = Step.new drv repoId evalId) ∨ s.byDrv.lookup d = some st := by
    intro d st hd
    rw [HashMap.lookup_insert_eq] at hd
    split at hd
    · rename_i hk
      exact Or.inl ⟨hk, (Option.some.inj hd).symm⟩
    · exact Or.inr hd
  constructor
  · intro d st hd
    rw [hopen]
    rcases hl hd with ⟨rfl, rfl⟩ | hd
    · -- nothing waits for, or is waited for by, a path that was not in the graph
      by_contra hne
      obtain ⟨p, st, hp, hmem, -⟩ := exists_edge_of_openEdges
        (s := s) (d := drv.drvPath) (fun h0 => hne (by simp [h0, Step.new]))
      obtain ⟨st', hst'⟩ := h.known p _ ⟨st, hp, hmem⟩
      rw [hnone] at hst'
      exact absurd hst' (by simp)
    · exact h.counter d st hd
  · rintro p r ⟨st, hd, hr⟩
    rcases hl hd with ⟨rfl, rfl⟩ | hd
    · exact absurd hr (by simp [Step.new])
    · obtain ⟨st', hst'⟩ := h.known p r ⟨st, hd, hr⟩
      rw [HashMap.lookup_insert_eq]
      split
      · exact ⟨_, rfl⟩
      · exact ⟨st', hst'⟩
  · intro d st hd hlive
    rcases hl hd with ⟨rfl, rfl⟩ | hd
    · rfl
    · exact h.live_zero d st hd hlive

/-- An update of one Step that keeps its edges and its counter, and does not make it succeed. -/
theorem modify (h : Counters owed s) {k : String} {st₀ : Step} {f : Step → Step}
    (hb : s'.byDrv = s.byDrv.modify k f) (hl₀ : s.byDrv.lookup k = some st₀)
    (hr : (f st₀).rdeps = st₀.rdeps) (hc : (f st₀).depsUnfinished = st₀.depsUnfinished)
    (hs : (f st₀).state.isSuccessfulTerminal = st₀.state.isSuccessfulTerminal)
    (hz : (f st₀).state.isLive = true → st₀.depsUnfinished = 0) : Counters owed s' := by
  have hopen : ∀ d, s'.openEdges d = s.openEdges d := by
    intro d
    have := HashMap.sumOver_modify
      (w := fun _ (st : Step) => if st.state.isSuccessfulTerminal then 0 else st.rdeps.count d) hl₀ f
    simp only [hs, hr] at this
    unfold openEdges
    rw [hb]
    omega
  constructor
  · intro d st hd
    rw [hb] at hd
    rw [hopen]
    rcases HashMap.lookup_modify_cases hd with ⟨rfl, st', hl, rfl⟩ | ⟨-, hl⟩
    · rw [hl₀, Option.some.injEq] at hl
      subst hl
      rw [hc]
      exact h.counter _ _ hl₀
    · exact h.counter d st hl
  · rintro p r ⟨st, hd, hmem⟩
    rw [hb] at hd ⊢
    refine HashMap.exists_lookup_modify f ?_
    rcases HashMap.lookup_modify_cases hd with ⟨rfl, st', hl, rfl⟩ | ⟨-, hl⟩
    · rw [hl₀, Option.some.injEq] at hl
      subst hl
      exact h.known _ r ⟨_, hl₀, hr ▸ hmem⟩
    · exact h.known p r ⟨st, hl, hmem⟩
  · intro d st hd hlive
    rw [hb] at hd
    rcases HashMap.lookup_modify_cases hd with ⟨rfl, st', hl, rfl⟩ | ⟨-, hl⟩
    · rw [hl₀, Option.some.injEq] at hl
      subst hl
      rw [hc]
      exact hz hlive
    · exact h.live_zero d st hl hlive

/-- A Step that succeeds leaves one decrement owed for each of its edges. -/
theorem closeSuccess (h : Counters [] s) {k : String} {st₀ : Step} {x : StepState}
    (hb : s'.byDrv = s.byDrv.modify k (·.close x)) (hl₀ : s.byDrv.lookup k = some st₀)
    (hopen₀ : st₀.state.isTerminal = false) (hx : x.isSuccessfulTerminal = true) :
    Counters st₀.rdeps s' := by
  have hns := StepState.isSuccessfulTerminal_eq_false_of_open hopen₀
  have hopen : ∀ d, s'.openEdges d + st₀.rdeps.count d = s.openEdges d := by
    intro d
    have := HashMap.sumOver_modify
      (w := fun _ (st : Step) => if st.state.isSuccessfulTerminal then 0 else st.rdeps.count d) hl₀
      (·.close x)
    simp only [Step.close_state, hx, hns, if_true, Bool.false_eq_true, if_false, Nat.add_zero] at this
    unfold openEdges
    rw [hb]
    exact this
  constructor
  · intro d st hd
    rw [hb] at hd
    rw [hopen]
    rcases HashMap.lookup_modify_cases hd with ⟨rfl, st', hl, rfl⟩ | ⟨-, hl⟩
    · simpa using h.counter d st' hl
    · simpa using h.counter d st hl
  · rintro p r ⟨st, hd, hmem⟩
    rw [hb] at hd ⊢
    refine HashMap.exists_lookup_modify _ ?_
    rcases HashMap.lookup_modify_cases hd with ⟨rfl, st', hl, rfl⟩ | ⟨-, hl⟩
    · exact h.known _ r ⟨st', hl, hmem⟩
    · exact h.known p r ⟨st, hl, hmem⟩
  · intro d st hd hlive
    rw [hb] at hd
    rcases HashMap.lookup_modify_cases hd with ⟨rfl, st', hl, rfl⟩ | ⟨-, hl⟩
    · rw [Step.close_state, StepState.isLive_eq_false_of_isTerminal
        (StepState.isTerminal_of_isSuccessfulTerminal hx)] at hlive
      exact absurd hlive (by simp)
    · exact h.live_zero d st hl hlive

/-- One decrement. The counter it acts on is positive, so nothing saturates. -/
theorem pay {r : String} (h : Counters (r :: owed) s) :
    Counters owed (s.modifyStep r (·.waitLess)) := by
  have hopen : ∀ d, (s.modifyStep r (·.waitLess)).openEdges d = s.openEdges d :=
    openEdges_modifyStep (f := (·.waitLess)) (fun _ => rfl) (fun _ => rfl) r
  constructor
  · intro d st hd
    rw [hopen]
    rcases HashMap.lookup_modify_cases hd with ⟨rfl, st', hl, rfl⟩ | ⟨hne, hl⟩
    · have := h.counter d st' hl
      rw [List.count_cons_self] at this
      simp only [Step.waitLess_depsUnfinished]
      omega
    · have := h.counter d st hl
      rwa [List.count_cons_of_ne (Ne.symm hne)] at this
  · rintro p r' ⟨st, hd, hmem⟩
    refine HashMap.exists_lookup_modify _ ?_
    rcases HashMap.lookup_modify_cases hd with ⟨rfl, st', hl, rfl⟩ | ⟨-, hl⟩
    · exact h.known _ r' ⟨st', hl, hmem⟩
    · exact h.known p r' ⟨st, hl, hmem⟩
  · intro d st hd hlive
    rcases HashMap.lookup_modify_cases hd with ⟨rfl, st', hl, rfl⟩ | ⟨-, hl⟩
    · have := h.live_zero d st' hl hlive
      simp only [Step.waitLess_depsUnfinished]
      omega
    · exact h.live_zero d st hl hlive

/-- A new edge into a Step that is still pending. -/
theorem addEdge (h : Counters [] s) {d : String} {std : Step} (hd : s.byDrv.lookup d = some std)
    (hp : std.state = .pending) (input : String) : Counters [] (DagStrategy.addEdge d s input) := by
  unfold DagStrategy.addEdge
  cases hin : s.byDrv.lookup input with
  | none => exact h
  | some dep =>
    by_cases hsucc : dep.state.isSuccessfulTerminal = true
    · simpa [hsucc] using h
    · rw [Bool.not_eq_true] at hsucc
      simp only [hsucc, Bool.false_eq_true, if_false]
      -- the two updates, one after the other; `input` may be `d` itself
      obtain ⟨dep', hin', hrd, hst⟩ : ∃ dep', (s.modifyStep d (·.waitMore)).byDrv.lookup input
          = some dep' ∧ dep'.rdeps = dep.rdeps ∧ dep'.state = dep.state := by
        by_cases hk : input = d
        · subst hk
          exact ⟨_, HashMap.lookup_modify_self hin, rfl, rfl⟩
        · exact ⟨dep, (HashMap.lookup_modify_ne hk).trans hin, rfl, rfl⟩
      have hopen : ∀ r, ((s.modifyStep d (·.waitMore)).modifyStep input (·.addRdep d)).openEdges r
          = s.openEdges r + if r = d then 1 else 0 := by
        intro r
        have h₁ : (s.modifyStep d (·.waitMore)).openEdges r = s.openEdges r :=
          openEdges_modifyStep (f := (·.waitMore)) (fun _ => rfl) (fun _ => rfl) d r
        have h₂ := HashMap.sumOver_modify
          (w := fun _ (st : Step) => if st.state.isSuccessfulTerminal then 0 else st.rdeps.count r)
          hin' (·.addRdep d)
        simp only [Step.addRdep_state, Step.addRdep_rdeps, hst, hsucc, hrd, Bool.false_eq_true,
          if_false, List.count_append, List.count_singleton, beq_iff_eq] at h₂
        have hif : (if d = r then 1 else 0) = if r = d then 1 else 0 := by
          simp [eq_comm]
        unfold openEdges at h₁ ⊢
        simp only [modifyStep] at h₁ h₂ ⊢
        omega
      -- what a Step looks like afterwards
      have hold : ∀ {k st'}, ((s.modifyStep d (·.waitMore)).modifyStep input
          (·.addRdep d)).byDrv.lookup k = some st' → ∃ st, s.byDrv.lookup k = some st ∧
            st'.state = st.state ∧ st'.depsUnfinished = st.depsUnfinished + (if k = d then 1 else 0) ∧
            ∀ r ∈ st'.rdeps, r ∈ st.rdeps ∨ r = d := by
        have hmid : ∀ {k st'}, (s.modifyStep d (·.waitMore)).byDrv.lookup k = some st' →
            ∃ st, s.byDrv.lookup k = some st ∧ st'.state = st.state ∧
              st'.depsUnfinished = st.depsUnfinished + (if k = d then 1 else 0) ∧
              st'.rdeps = st.rdeps := by
          intro k st' hk
          rcases HashMap.lookup_modify_cases hk with ⟨rfl, st, hl, rfl⟩ | ⟨hne, hl⟩
          · exact ⟨st, hl, rfl, by simp, rfl⟩
          · exact ⟨st', hl, rfl, by simp [hne], rfl⟩
        intro k st' hk
        rcases HashMap.lookup_modify_cases hk with ⟨-, st₁, hl, rfl⟩ | ⟨-, hl⟩
        · obtain ⟨st, hl', hs', hc', hr'⟩ := hmid hl
          refine ⟨st, hl', hs', hc', fun r hr => ?_⟩
          simpa [hr'] using hr
        · obtain ⟨st, hl', hs', hc', hr'⟩ := hmid hl
          exact ⟨st, hl', hs', hc', fun r hr => Or.inl (hr' ▸ hr)⟩
      constructor
      · intro k st' hk
        obtain ⟨st, hl, -, hc, -⟩ := hold hk
        rw [hopen, hc, h.counter k st hl]
        simp only [List.count_nil]
        omega
      · rintro p r ⟨st', hk, hmem⟩
        obtain ⟨st, hl, -, -, hrd'⟩ := hold hk
        refine HashMap.exists_lookup_modify _ (HashMap.exists_lookup_modify _ ?_)
        rcases hrd' r hmem with hr | rfl
        · exact h.known p r ⟨st, hl, hr⟩
        · exact ⟨std, hd⟩
      · intro k st' hk hlive
        obtain ⟨st, hl, hs', hc, -⟩ := hold hk
        rw [hs'] at hlive
        have hne : k ≠ d := by
          rintro rfl
          rw [hd, Option.some.injEq] at hl
          subst hl
          rw [hp] at hlive
          exact absurd hlive (by decide)
        rw [hc, if_neg hne, Nat.add_zero]
        exact h.live_zero k st hl hlive

end Counters

end DagStrategy

end Argunix.Sched
