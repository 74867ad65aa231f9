import Argunix.Sched.Strategy

/-!
# `argunix-sched::flat`: the strategy without a graph

`FlatStrategy` queues every Job under its own id and hands the Jobs out as the WFQ core pops
them; the closure of an item is ignored. Beside the core it keeps the item of each Job that is
queued or in flight (`pending`) and the Job behind each token it has handed out.

`Books` ties the three maps to the dispatches the caller holds. It needs **distinct Job ids**:
`pending` and the slots of the core are keyed by them, so the second of two items with one id
takes the entry of the first.
-/

set_option autoImplicit false

namespace Argunix.Sched

open Argunix.Lib
open DagStrategy (Op Answer)

/-- What the strategy remembers of a Job to build its `Dispatched`. -/
structure FlatPending where
  repoId : RepoId
  evalId : EvalId
  headDrv : DerivationInfo
deriving DecidableEq, Repr

/-- One queue of Jobs for each repository; nothing waits for anything else. -/
structure FlatStrategy where
  wfq : WfqCore JobId
  pending : HashMap JobId FlatPending
  nextToken : ℕ
  inFlightTokenToJob : HashMap DispatchToken JobId

namespace FlatStrategy

/-- No Job is known. -/
def new (concurrencyCap : Option ℕ) : FlatStrategy :=
  { wfq := WfqCore.new concurrencyCap
    pending := ∅
    nextToken := 0
    inFlightTokenToJob := ∅ }

/-- `mint_token` -/
def mintToken (s : FlatStrategy) : DispatchToken × FlatStrategy :=
  (⟨s.nextToken⟩, { s with nextToken := s.nextToken + 1 })

/-- `set_weight` -/
def setWeight (s : FlatStrategy) (repoId : RepoId) (weight : ℕ) : FlatStrategy :=
  { s with wfq := s.wfq.setWeight repoId weight }

/-- `enqueue` -/
def enqueue (s : FlatStrategy) (item : ScheduleItem) : FlatStrategy :=
  { s with
    pending := s.pending.insert item.jobId
      { repoId := item.repoId, evalId := item.evalId, headDrv := item.headDrv }
    wfq := s.wfq.enqueue item.repoId item.jobId }

/-- `dispatch` -/
def dispatch (s : FlatStrategy) : Option Dispatched × FlatStrategy :=
  match s.wfq.dispatch with
  | (none, wfq) => (none, { s with wfq := wfq })
  | (some popped, wfq) =>
    let s := { s with wfq := wfq }
    match s.pending.lookup popped.tag with
    | none => (none, s) -- `expect`; `Books.dispatch` shows the branch is not taken
    | some pend =>
      let (token, s) := s.mintToken
      (some
        { token := token
          repoId := popped.repoId
          evalId := pend.evalId
          drvPath := pend.headDrv.drvPath
          system := pend.headDrv.system
          requiredFeatures := pend.headDrv.requiredFeatures
          headJob := some popped.tag },
        { s with inFlightTokenToJob := s.inFlightTokenToJob.insert token popped.tag })

/-- The status is not looked at. -/
def complete (s : FlatStrategy) (token : DispatchToken) (_status : JobStatus) :
    CompletionEffects × FlatStrategy :=
  match s.inFlightTokenToJob.lookup token with
  | none => ({}, s)
  | some jobId =>
    ({ repoId := (s.wfq.complete jobId).1 },
      { s with
        inFlightTokenToJob := s.inFlightTokenToJob.erase token
        pending := s.pending.erase jobId
        wfq := (s.wfq.complete jobId).2 })

/-- `matches!(self.pending.get(tag), Some(p) if p.eval_id == eval_id)` -/
def belongsTo (s : FlatStrategy) (evalId : EvalId) (tag : JobId) : Bool :=
  match s.pending.lookup tag with
  | some p => p.evalId = evalId
  | none => false

/-- The `filter_map` of `cancel_eval`: forget each removed Job, answering a skip for it. -/
def dropRemoved (reason : String) :
    List JobId → HashMap JobId FlatPending → List CascadedSkip × HashMap JobId FlatPending
  | [], pending => ([], pending)
  | jid :: removed, pending =>
    let (skips, rest) := dropRemoved reason removed (pending.erase jid)
    match pending.lookup jid with
    | none => (skips, rest)
    | some p =>
      ({ jobId := jid, evalId := p.evalId, repoId := p.repoId, reasonDrv := reason } :: skips,
        rest)

/-- `cancel_eval`: what is pending is skipped, what is in flight stays. -/
def cancelEval (s : FlatStrategy) (evalId : EvalId) : List CascadedSkip × FlatStrategy :=
  let (removed, wfq) := s.wfq.cancelPending (s.belongsTo evalId)
  let (skips, pending) := dropRemoved (DagStrategy.cancelReason evalId) removed s.pending
  (skips, { s with wfq := wfq, pending := pending })

/-- `pending_count` -/
def pendingCount (s : FlatStrategy) : ℕ := s.wfq.pendingCount

/-- `in_flight_count` -/
def inFlightCount (s : FlatStrategy) : ℕ := s.wfq.inFlightCount

/-! ## Specifications -/

/-- The same strategy with its hash maps iterated in another order. -/
structure Shuffle (s s' : FlatStrategy) : Prop where
  wfq : WfqCore.Shuffle s.wfq s'.wfq
  pending : HashMap.Shuffle s.pending s'.pending
  nextToken : s'.nextToken = s.nextToken
  inFlightTokenToJob : HashMap.Shuffle s.inFlightTokenToJob s'.inFlightTokenToJob

theorem lookup_dropRemoved (reason : String) (j : JobId) :
    ∀ (removed : List JobId) (pending : HashMap JobId FlatPending), j ∉ removed →
      (dropRemoved reason removed pending).2.lookup j = pending.lookup j
  | [], _, _ => rfl
  | jid :: removed, pending, hj => by
    obtain ⟨hne, hrest⟩ := not_or.mp (mt List.mem_cons.mpr hj)
    have hdrop := lookup_dropRemoved reason j removed (pending.erase jid) hrest
    rw [HashMap.lookup_erase_eq, if_neg hne] at hdrop
    unfold dropRemoved
    cases hl : pending.lookup jid with
    | none => exact hdrop
    | some p => exact hdrop

/-- One call, with what it does to the core. -/
inductive Logs (s : FlatStrategy) : Op → Answer → FlatStrategy → Ledger JobId → Prop
  | setWeight (repoId : RepoId) (weight : ℕ) :
      Logs s (.setWeight repoId weight) .unit (s.setWeight repoId weight) .empty
  | enqueue (item : ScheduleItem) :
      Logs s (.enqueue item) .unit (s.enqueue item) ⟨[(item.repoId, item.jobId)], []⟩
  | dispatch : Logs s .dispatch (.dispatched s.dispatch.1) s.dispatch.2
      ⟨[], (s.wfq.dispatch.1.map fun p => (p.repoId, p.tag)).toList⟩
  | complete (token : DispatchToken) (status : JobStatus) :
      Logs s (.complete token status) (.completed (s.complete token status).1)
        (s.complete token status).2 .empty
  | cancelEval (evalId : EvalId) :
      Logs s (.cancelEval evalId) (.cancelled (s.cancelEval evalId).1) (s.cancelEval evalId).2
        .empty

/-- The strategy as the build phase uses it. -/
def scheduleStrategy : ScheduleStrategy JobId FlatStrategy where
  new := FlatStrategy.new
  pendingCount := FlatStrategy.pendingCount
  inFlightCount := FlatStrategy.inFlightCount
  Shuffle := FlatStrategy.Shuffle
  Does := Logs

/-! ## The books of a strategy in use -/

/-- What ties the maps to the items and to the dispatches the caller holds. -/
structure Books (cap : Option ℕ) (u : Caller JobId FlatStrategy) : Prop where
  fits : u.ledger.Fits cap u.strategy.wfq
  enqueued : u.ledger.enqueued = u.items.map fun item => (item.repoId, item.jobId)
  /-- The `expect` of `dispatch`. -/
  known : ∀ j, 0 < u.strategy.wfq.queuedCount j → ∃ p, u.strategy.pending.lookup j = some p
  tokens : ∀ t j, u.strategy.inFlightTokenToJob.lookup t = some j ↔
    ∃ d ∈ u.held, d.token = t ∧ d.headJob = some j
  slots : ∀ j, (u.strategy.wfq.inFlight.lookup j).isSome = true ↔
    ∃ d ∈ u.held, d.headJob = some j
  fresh : ∀ d ∈ u.held, d.token.get < u.strategy.nextToken
  nodup : (u.held.map (·.headJob)).Nodup
  /-- A Job that is held has been popped. -/
  popped : ∀ d ∈ u.held, ∃ j, d.headJob = some j ∧ j ∈ u.ledger.popped.map Prod.snd

namespace Books

variable {cap : Option ℕ} {u : Caller JobId FlatStrategy}

theorem enqueued_nodup (h : Books cap u) (hnd : (u.items.map (·.jobId)).Nodup) :
    (u.ledger.enqueued.map Prod.snd).Nodup := by
  rw [h.enqueued, List.map_map]
  exact hnd

theorem new (cap : Option ℕ) : Books cap ⟨FlatStrategy.new cap, [], [], .empty⟩ where
  fits := .new cap
  enqueued := rfl
  known := fun j hj => absurd hj (by simp [FlatStrategy.new, WfqCore.new, WfqCore.queuedCount,
    HashMap.sumOver])
  tokens := by simp [FlatStrategy.new]
  slots := by simp [FlatStrategy.new, WfqCore.new]
  fresh := by simp
  nodup := by simp
  popped := by simp

theorem shuffle (h : Books cap u) {s : FlatStrategy} (hs : Shuffle u.strategy s) :
    Books cap { u with strategy := s } where
  fits := h.fits.shuffle hs.wfq
  enqueued := h.enqueued
  known := fun j hj => by
    rw [hs.wfq.queuedCount] at hj
    obtain ⟨p, hp⟩ := h.known j hj
    exact ⟨p, (HashMap.Shuffle.lookup hs.pending j).symm.trans hp⟩
  tokens := fun t j => by
    rw [← HashMap.Shuffle.lookup hs.inFlightTokenToJob t]
    exact h.tokens t j
  slots := fun j => by
    rw [← HashMap.Shuffle.lookup hs.wfq.inFlight j]
    exact h.slots j
  fresh := fun d hd => hs.nextToken ▸ h.fresh d hd
  nodup := h.nodup
  popped := h.popped

theorem setWeight (h : Books cap u) (r : RepoId) (w : ℕ) :
    Books cap { u with strategy := u.strategy.setWeight r w } where
  fits := h.fits.setWeight r w
  enqueued := h.enqueued
  known := fun j hj => h.known j (by simpa [FlatStrategy.setWeight] using hj)
  tokens := h.tokens
  slots := h.slots
  fresh := h.fresh
  nodup := h.nodup
  popped := h.popped

theorem enqueue (h : Books cap u) (item : ScheduleItem) :
    Books cap ⟨u.strategy.enqueue item, u.items ++ [item], u.held,
      u.ledger ++ ⟨[(item.repoId, item.jobId)], []⟩⟩ where
  fits := h.fits.enqueue item.repoId item.jobId
  enqueued := by simp [h.enqueued]
  known := fun j hj => by
    simp only [FlatStrategy.enqueue, HashMap.lookup_insert_eq]
    split
    · exact ⟨_, rfl⟩
    · rename_i hne
      refine h.known j ?_
      simpa [FlatStrategy.enqueue, WfqCore.queuedCount_enqueue, hne] using hj
  tokens := h.tokens
  slots := h.slots
  fresh := h.fresh
  nodup := h.nodup
  popped := by simpa using h.popped

/-- Completing frees the slot of the Job behind the token. It is not queued any more, so the
    entry that is dropped with it is not missed. -/
theorem complete (h : Books cap u) (hnd : (u.items.map (·.jobId)).Nodup)
    (token : DispatchToken) (status : JobStatus) :
    Books cap { u with
      strategy := (u.strategy.complete token status).2
      held := u.held.filter fun d => d.token ≠ token } := by
  unfold FlatStrategy.complete
  cases ht : u.strategy.inFlightTokenToJob.lookup token with
  | none =>
    have hheld : u.held.filter (fun d => d.token ≠ token) = u.held := by
      refine List.filter_eq_self.mpr fun d hd => ?_
      simp only [ne_eq, decide_eq_true_eq]
      intro hdt
      obtain ⟨j, hj, -⟩ := h.popped d hd
      have := (h.tokens token j).mpr ⟨d, hd, hdt, hj⟩
      simp [ht] at this
    rw [hheld]
    exact h
  | some j =>
    obtain ⟨d₀, hd₀, rfl, hj₀⟩ := (h.tokens token j).mp ht
    have hsame : ∀ d ∈ u.held, d.token = d₀.token → d.headJob = some j := by
      intro d hd hdt
      obtain ⟨j', hj', -⟩ := h.popped d hd
      have := (h.tokens d₀.token j').mpr ⟨d, hd, hdt, hj'⟩
      rw [ht] at this
      rw [hj', Option.some.inj this]
    have hsame' : ∀ d ∈ u.held, d.headJob = some j → d.token = d₀.token := by
      intro d hd hdj
      rw [List.inj_on_of_nodup_map h.nodup hd hd₀ (hdj.trans hj₀.symm)]
    refine
      { fits := h.fits.complete j
        enqueued := h.enqueued
        known := fun j' hj' => ?_
        tokens := fun t j' => ?_
        slots := fun j' => ?_
        fresh := fun d hd => h.fresh d (List.mem_of_mem_filter hd)
        nodup := h.nodup.sublist (List.filter_sublist.map _)
        popped := fun d hd => h.popped d (List.mem_of_mem_filter hd) }
    · -- the completed Job is not queued
      have hne : j' ≠ j := by
        rintro rfl
        obtain ⟨j'', hj'', hmem⟩ := h.popped d₀ hd₀
        rw [hj₀, Option.some.injEq] at hj''
        exact h.fits.notMem_popped (h.enqueued_nodup hnd) hj' (hj'' ▸ hmem)
      obtain ⟨p, hp⟩ := h.known j' hj'
      exact ⟨p, by rw [HashMap.lookup_erase_eq, if_neg hne, hp]⟩
    · simp only [HashMap.lookup_erase_eq, List.mem_filter, ne_eq, decide_eq_true_eq]
      by_cases htt : t = d₀.token
      · subst htt
        simp only [if_true, reduceCtorEq, false_iff]
        rintro ⟨d, ⟨-, hne⟩, hdt, -⟩
        exact hne hdt
      · rw [if_neg htt, h.tokens]
        constructor
        · rintro ⟨d, hd, rfl, hdj⟩
          exact ⟨d, ⟨hd, htt⟩, rfl, hdj⟩
        · rintro ⟨d, ⟨hd, -⟩, hdt, hdj⟩
          exact ⟨d, hd, hdt, hdj⟩
    · simp only [WfqCore.complete, HashMap.lookup_erase_eq, List.mem_filter, ne_eq,
        decide_eq_true_eq]
      by_cases hjj : j' = j
      · subst hjj
        simp only [if_true, Option.isSome_none, Bool.false_eq_true, false_iff]
        rintro ⟨d, ⟨hd, hne⟩, hdj⟩
        exact hne (hsame' d hd hdj)
      · rw [if_neg hjj, h.slots]
        constructor
        · rintro ⟨d, hd, hdj⟩
          refine ⟨d, ⟨hd, fun hdt => hjj ?_⟩, hdj⟩
          rw [hsame d hd hdt] at hdj
          exact (Option.some.inj hdj).symm
        · rintro ⟨d, ⟨hd, -⟩, hdj⟩
          exact ⟨d, hd, hdj⟩

theorem cancelEval (h : Books cap u) (evalId : EvalId) :
    Books cap { u with strategy := (u.strategy.cancelEval evalId).2 } where
  fits := h.fits.cancelPending _
  enqueued := h.enqueued
  known := fun j hj => by
    simp only [FlatStrategy.cancelEval, WfqCore.queuedCount_cancelPending] at hj
    have hkeep : u.strategy.belongsTo evalId j = false := by
      by_contra hb
      simp [Bool.not_eq_false _ ▸ hb] at hj
    have hnot : j ∉ (u.strategy.wfq.cancelPending (u.strategy.belongsTo evalId)).1 := by
      simp [WfqCore.cancelPending, hkeep]
    rw [hkeep] at hj
    obtain ⟨p, hp⟩ := h.known j (by simpa using hj)
    exact ⟨p, (lookup_dropRemoved _ j _ _ hnot).trans hp⟩
  tokens := h.tokens
  slots := h.slots
  fresh := h.fresh
  nodup := h.nodup
  popped := h.popped

/-- Everything a dispatch can do: the Job it pops has its entry. -/
theorem dispatch_cases (h : Books cap u) :
    (u.strategy.wfq.dispatch = (none, u.strategy.wfq) ∧
      u.strategy.dispatch = (none, u.strategy)) ∨
    ∃ p c' d, u.strategy.wfq.dispatch = (some p, c') ∧ d.token = ⟨u.strategy.nextToken⟩ ∧
      d.headJob = some p.tag ∧
      u.strategy.dispatch = (some d,
        { u.strategy with
          wfq := c'
          nextToken := u.strategy.nextToken + 1
          inFlightTokenToJob :=
            u.strategy.inFlightTokenToJob.insert ⟨u.strategy.nextToken⟩ p.tag }) := by
  unfold FlatStrategy.dispatch
  cases hd : u.strategy.wfq.dispatch with
  | mk o c' =>
    cases o with
    | none =>
      obtain ⟨rfl, -⟩ := WfqCore.dispatch_none hd
      exact Or.inl ⟨rfl, rfl⟩
    | some p =>
      have hq : 0 < u.strategy.wfq.queuedCount p.tag := by
        rw [WfqCore.queuedCount_pop hd, if_pos rfl]
        exact Nat.succ_pos _
      obtain ⟨pend, hp⟩ := h.known p.tag hq
      refine Or.inr ⟨p, c',
        { token := ⟨u.strategy.nextToken⟩
          repoId := p.repoId
          evalId := pend.evalId
          drvPath := pend.headDrv.drvPath
          system := pend.headDrv.system
          requiredFeatures := pend.headDrv.requiredFeatures
          headJob := some p.tag }, rfl, rfl, rfl, ?_⟩
      simp only [hp, mintToken]

theorem dispatch (h : Books cap u) (hnd : (u.items.map (·.jobId)).Nodup) :
    Books cap ⟨u.strategy.dispatch.2, u.items,
      heldAfter u.held .dispatch (.dispatched u.strategy.dispatch.1),
      u.ledger ++ ⟨[], (u.strategy.wfq.dispatch.1.map fun p => (p.repoId, p.tag)).toList⟩⟩ := by
  rcases h.dispatch_cases with ⟨hc, hd⟩ | ⟨p, c', d, hc, htok, hjob, hd⟩
  · rw [hc, hd]
    simpa [heldAfter, Ledger.append_empty] using h
  · rw [hc, hd]
    have hq : 0 < u.strategy.wfq.queuedCount p.tag := by
      rw [WfqCore.queuedCount_pop hc, if_pos rfl]
      exact Nat.succ_pos _
    -- the Job is not held: it was popped only now
    have hnew : ∀ d' ∈ u.held, d'.headJob ≠ some p.tag := by
      intro d' hd' hj
      obtain ⟨j, hj', hmem⟩ := h.popped d' hd'
      rw [hj, Option.some.injEq] at hj'
      exact h.fits.notMem_popped (h.enqueued_nodup hnd) hq (hj' ▸ hmem)
    refine
      { fits := h.fits.pop hc
        enqueued := by simp [h.enqueued]
        known := fun j hj => h.known j ?_
        tokens := fun t j => ?_
        slots := fun j => ?_
        fresh := fun d' hd' => ?_
        nodup := ?_
        popped := fun d' hd' => ?_ }
    · rw [WfqCore.queuedCount_pop hc]
      exact Nat.lt_of_lt_of_le hj (Nat.le_add_right _ _)
    · simp only [HashMap.lookup_insert_eq, heldAfter, List.mem_append, List.mem_singleton]
      by_cases ht : t = ⟨u.strategy.nextToken⟩
      · subst ht
        simp only [if_true, Option.some.injEq]
        constructor
        · rintro rfl
          exact ⟨d, Or.inr rfl, htok, hjob⟩
        · rintro ⟨d', hd' | rfl, hdt, hdj⟩
          · have := h.fresh d' hd'
            rw [hdt] at this
            exact absurd this (Nat.lt_irrefl _)
          · exact Option.some.inj (hjob.symm.trans hdj)
      · rw [if_neg ht, h.tokens]
        constructor
        · rintro ⟨d', hd', hdt⟩
          exact ⟨d', Or.inl hd', hdt⟩
        · rintro ⟨d', hd' | rfl, hdt, hdj⟩
          · exact ⟨d', hd', hdt, hdj⟩
          · exact absurd (hdt.symm.trans htok) ht
    · rw [(WfqCore.inFlight_pop hc).1, HashMap.lookup_insert_eq]
      simp only [heldAfter, List.mem_append, List.mem_singleton]
      by_cases hj : j = p.tag
      · subst hj
        simp only [if_true, Option.isSome_some, true_iff]
        exact ⟨d, Or.inr rfl, hjob⟩
      · rw [if_neg hj, h.slots]
        constructor
        · rintro ⟨d', hd', hdj⟩
          exact ⟨d', Or.inl hd', hdj⟩
        · rintro ⟨d', hd' | rfl, hdj⟩
          · exact ⟨d', hd', hdj⟩
          · exact absurd (Option.some.inj (hdj.symm.trans hjob)) hj
    · simp only [heldAfter, List.mem_append, List.mem_singleton] at hd'
      rcases hd' with hd' | rfl
      · exact Nat.lt_succ_of_lt (h.fresh d' hd')
      · rw [htok]
        exact Nat.lt_succ_self _
    · simp only [heldAfter, List.map_append, List.map_cons, List.map_nil]
      refine List.nodup_append.mpr ⟨h.nodup, by simp, ?_⟩
      rintro o ho o' ho' rfl
      obtain ⟨d', hd', rfl⟩ := List.mem_map.mp ho
      exact hnew d' hd' ((List.mem_singleton.mp ho').trans hjob)
    · simp only [heldAfter, List.mem_append, List.mem_singleton] at hd'
      rcases hd' with hd' | rfl
      · obtain ⟨j, hj, hmem⟩ := h.popped d' hd'
        exact ⟨j, hj, by simpa using Or.inl (List.mem_map.mp hmem)⟩
      · exact ⟨p.tag, hjob, by simp⟩

theorem run (h : scheduleStrategy.Runs cap u) (hnd : (u.items.map (·.jobId)).Nodup) :
    Books cap u := by
  induction h with
  | new => exact .new cap
  | shuffle _ hs ih => exact (ih hnd).shuffle hs
  | @call u op a s lg _ hd ih =>
    have hnd' := hnd.sublist ((prefix_itemsAfter u.items op).map _)
    have hb := ih hnd'
    cases hd with
    | setWeight r w =>
      rw [Ledger.empty, Ledger.append_empty]
      exact hb.setWeight r w
    | enqueue item => exact hb.enqueue item
    | dispatch => exact hb.dispatch hnd'
    | complete t x =>
      rw [Ledger.empty, Ledger.append_empty]
      exact hb.complete hnd' t x
    | cancelEval e =>
      rw [Ledger.empty, Ledger.append_empty]
      exact hb.cancelEval e

theorem length_held (h : Books cap u) : u.strategy.inFlightCount = u.held.length := by
  refine length_keys_of_iff h.nodup (fun d hd => ?_) h.slots
  obtain ⟨j, hj, -⟩ := h.popped d hd
  simp [hj]

end Books

theorem Logs.of_idle {s s' : FlatStrategy} {lg : Ledger JobId}
    (h : Logs s .dispatch (.dispatched none) s' lg) : s.dispatch.1 = none ∧ s' = s.dispatch.2 := by
  generalize ha : Answer.dispatched none = a at h
  cases h with
  | dispatch => exact ⟨(Answer.dispatched.inj ha).symm, rfl⟩

theorem honest : scheduleStrategy.Honest := by
  intro cap u hrun hnd
  have h := Books.run hrun hnd
  have henq := h.enqueued_nodup hnd
  refine ⟨h.length_held, h.fits.slots, h.fits.nodup henq, h.fits.lane_sublist, henq, ?_⟩
  intro s lg hd
  obtain ⟨hnone, rfl⟩ := Logs.of_idle hd
  rcases h.dispatch_cases with ⟨hc, hdis⟩ | ⟨p, c', d, -, -, -, hdis⟩
  · rw [hdis]
    refine (WfqCore.dispatch_none hc).2.imp (fun hfull => ?_) id
    obtain ⟨n, hcap, hle⟩ := WfqCore.capReached_iff.mp hfull
    exact ⟨n, h.fits.capKept.symm.trans hcap, hle⟩
  · rw [hdis] at hnone
    exact absurd hnone (by simp)

end FlatStrategy

/-- **Slot accounting and drain honesty hold of both strategies.** -/
theorem strategies_honest :
    FlatStrategy.scheduleStrategy.Honest ∧ DagStrategy.scheduleStrategy.Honest :=
  ⟨FlatStrategy.honest, DagStrategy.honest⟩

/-- A Job without inputs. -/
def lone (job : ℕ) : ScheduleItem :=
  { repoId := ⟨1⟩, evalId := ⟨1⟩, jobId := ⟨job⟩, closure := []
    headDrv := { drvPath := toString job, system := none, requiredFeatures := [],
                 inputDrvs := [] } }

/-- A DAG strategy of cap one after its evaluation was cancelled with two Jobs queued. -/
def cancelledQueue : DagStrategy :=
  ((((DagStrategy.new (some 1)).enqueue (lone 1)).enqueue (lone 2)).cancelEval ⟨1⟩).2

/-- Both queued tokens are stale; the one dispatch that answers nothing swallows them, and the
    slot each took on the way is free again. -/
theorem strategies_honest_stale :
    cancelledQueue.pendingCount = 2 ∧ cancelledQueue.dispatch.1 = none ∧
      cancelledQueue.dispatch.2.pendingCount = 0 := by
  have hnone : cancelledQueue.dispatch.1 = none := by decide
  have hnew : DagStrategy.scheduleStrategy.Runs (some 1)
      ⟨DagStrategy.new (some 1), [], [], .empty⟩ := .new
  have hrun := ((hnew.call (DagStrategy.Logs.enqueue (lone 1) (.refl _))).call
    (DagStrategy.Logs.enqueue (lone 2) (.refl _))).call (DagStrategy.Logs.cancelEval ⟨1⟩)
  have hcall : DagStrategy.Logs cancelledQueue .dispatch (.dispatched none)
      cancelledQueue.dispatch.2 ⟨[], cancelledQueue.pops⟩ := by
    rw [← hnone]
    exact .dispatch
  refine ⟨by decide, hnone, ?_⟩
  rcases (strategies_honest.2 (some 1) _ hrun (by decide)).drained _ _ hcall with ⟨n, hn, hle⟩ | h0
  · obtain rfl := Option.some.inj hn
    exact absurd hle (by decide)
  · exact h0

end Argunix.Sched
