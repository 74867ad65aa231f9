import Argunix.Sched.Ledger
import Argunix.Sched.Session

/-!
# `ScheduleStrategy`: what a caller may rely on, whichever strategy it drives

The trait as its caller sees it: calls, answers, two counters, and behind them a WFQ core. A
`Caller` keeps the dispatches it was handed and has not completed; beside that it carries the
items it enqueued and the ledger of the core.

`Honest` is the contract `run_build_phase` rests on. The in-flight counter is the number of
dispatches the caller holds, it stays within the cap, the queues are first-in-first-out, and a
`dispatch` that answers nothing means **full or drained**: with a slot free and something
pending it hands something out.

The second half is `DagStrategy`. Its queues also hold the tokens of Steps that were closed
while they waited, so what a call does to the core (`Logs`) is not what the caller sees:
`popsLoop` are the pops of one `dispatch`, of which at most the last is handed out.
-/

set_option autoImplicit false

namespace Argunix.Sched

open Argunix.Lib
open DagStrategy (Op Answer)

/-- A strategy over a core with tags in `T`. `Does s op a s' l` is one call: it answers `a`,
    and `l` is what it enqueued onto the core and popped from it. -/
structure ScheduleStrategy (T S : Type) where
  new : Option ℕ → S
  pendingCount : S → ℕ
  inFlightCount : S → ℕ
  /-- The same strategy with its hash maps iterated in another order. -/
  Shuffle : S → S → Prop
  Does : S → Op → Answer → S → Ledger T → Prop

/-- The dispatches a caller holds after an answer. -/
def heldAfter (held : List Dispatched) : Op → Answer → List Dispatched
  | .dispatch, .dispatched (some d) => held ++ [d]
  | .complete token _, _ => held.filter fun d => d.token ≠ token
  | _, _ => held

/-- The items enqueued after a call. -/
def itemsAfter (items : List ScheduleItem) : Op → List ScheduleItem
  | .enqueue item => items ++ [item]
  | _ => items

/-- A strategy in use. -/
structure Caller (T S : Type) where
  strategy : S
  items : List ScheduleItem
  /-- Handed out and not yet completed. -/
  held : List Dispatched
  ledger : Ledger T

namespace ScheduleStrategy

variable {T S : Type}

/-- Every run of calls on a new strategy, with any iteration order before each of them. A
    `complete` may name any token. -/
inductive Runs (K : ScheduleStrategy T S) (cap : Option ℕ) : Caller T S → Prop
  | new : Runs K cap ⟨K.new cap, [], [], .empty⟩
  | shuffle {u : Caller T S} {s : S} :
      Runs K cap u → K.Shuffle u.strategy s → Runs K cap { u with strategy := s }
  | call {u : Caller T S} {op : Op} {a : Answer} {s : S} {l : Ledger T} :
      Runs K cap u → K.Does u.strategy op a s l →
      Runs K cap ⟨s, itemsAfter u.items op, heldAfter u.held op a, u.ledger ++ l⟩

/-- What holds of a strategy in use. -/
structure HonestAt (K : ScheduleStrategy T S) (cap : Option ℕ) (u : Caller T S) : Prop where
  inFlight : K.inFlightCount u.strategy = u.held.length
  withinCap : ∀ n, cap = some n → K.inFlightCount u.strategy ≤ n
  poppedOnce : (u.ledger.popped.map Prod.snd).Nodup
  inOrder : ∀ r, (lane u.ledger.popped r).Sublist (lane u.ledger.enqueued r)
  enqueuedOnce : (u.ledger.enqueued.map Prod.snd).Nodup
  drained : ∀ s l, K.Does u.strategy .dispatch (.dispatched none) s l →
    (∃ n, cap = some n ∧ n ≤ K.inFlightCount s) ∨ K.pendingCount s = 0

/-- **Slot accounting and drain honesty**, over every run with distinct Job ids. -/
def Honest (K : ScheduleStrategy T S) : Prop :=
  ∀ cap u, K.Runs cap u → (u.items.map (·.jobId)).Nodup → K.HonestAt cap u

end ScheduleStrategy

theorem prefix_itemsAfter (items : List ScheduleItem) (op : Op) :
    items.Sublist (itemsAfter items op) := by
  cases op with
  | enqueue item => exact List.sublist_append_left _ _
  | setWeight | dispatch | complete | cancelEval => exact List.Sublist.refl _

/-- A map with one key for each element of a list has as many keys. -/
theorem length_keys_of_iff {K V D : Type} [DecidableEq K] {m : HashMap K V} {ds : List D}
    {f : D → Option K} (hnd : (ds.map f).Nodup) (hkey : ∀ d ∈ ds, (f d).isSome = true)
    (h : ∀ k, (m.lookup k).isSome = true ↔ ∃ d ∈ ds, f d = some k) :
    m.keys.length = ds.length := by
  have hperm : (m.keys.map some).Perm (ds.map f) := by
    refine (List.perm_ext_iff_of_nodup ?_ hnd).mpr fun o => ?_
    · exact m.nodupKeys.map (Option.some_injective K)
    · simp only [List.mem_map]
      constructor
      · rintro ⟨k, hk, rfl⟩
        obtain ⟨d, hd, hdk⟩ := (h k).mp (AList.lookup_isSome.mpr hk)
        exact ⟨d, hd, hdk⟩
      · rintro ⟨d, hd, rfl⟩
        obtain ⟨k, hk⟩ := Option.isSome_iff_exists.mp (hkey d hd)
        exact ⟨k, AList.lookup_isSome.mp ((h k).mpr ⟨d, hd, hk⟩), hk.symm⟩
  simpa using hperm.length_eq

/-! ## The DAG strategy -/

namespace DagStrategy

variable {s s' : DagStrategy} {l : Ledger DispatchToken} {cap : Option ℕ}

/-- What `promote_ready_steps` enqueues: one fresh token for each Step it collects. -/
def promotions (s : DagStrategy) : List (RepoId × DispatchToken) :=
  (s.toPromote.zipIdx s.nextToken).map fun e => (e.1.2, ⟨e.2⟩)

/-- What `complete` enqueues: the promotions behind a Step that succeeded. -/
def promotedBy (s : DagStrategy) (token : DispatchToken) (status : JobStatus) :
    List (RepoId × DispatchToken) :=
  match s.tokenToDrv.lookup token with
  | none => []
  | some drvPath =>
    match s.byDrv.lookup drvPath with
    | none => []
    | some step =>
      let newState := StepState.fromStatus status
      if newState.isSuccessfulTerminal then
        ((s.closeToken token drvPath newState).decrementRdeps step.rdeps).promotions
      else []

/-- What the swallow loop of `dispatch` pops, the stale tokens included. -/
def popsLoop : ℕ → DagStrategy → List (RepoId × DispatchToken)
  | 0, _ => []
  | fuel + 1, s =>
    match s.wfq.dispatch with
    | (none, _) => []
    | (some popped, wfq) =>
      (popped.repoId, popped.tag) ::
        match s.tokenToDrv.lookup popped.tag with
        | none => popsLoop fuel { s with wfq := (wfq.complete popped.tag).2 }
        | some _ => []

def pops (s : DagStrategy) : List (RepoId × DispatchToken) := popsLoop (s.wfq.pendingCount + 1) s

/-- One call, as in `Does`, with what it does to the core. -/
inductive Logs (s : DagStrategy) : Op → Answer → DagStrategy → Ledger DispatchToken → Prop
  | setWeight (repoId : RepoId) (weight : ℕ) :
      Logs s (.setWeight repoId weight) .unit (s.setWeight repoId weight) .empty
  | enqueue {s₁ : DagStrategy} (item : ScheduleItem) : Shuffle (s.insertItem item) s₁ →
      Logs s (.enqueue item) .unit s₁.promoteReadySteps ⟨s₁.promotions, []⟩
  | dispatch : Logs s .dispatch (.dispatched s.dispatch.1) s.dispatch.2 ⟨[], s.pops⟩
  | complete (token : DispatchToken) (status : JobStatus) :
      Logs s (.complete token status) (.completed (s.complete token status).1)
        (s.complete token status).2 ⟨s.promotedBy token status, []⟩
  | cancelEval (evalId : EvalId) :
      Logs s (.cancelEval evalId) (.cancelled (s.cancelEval evalId).1) (s.cancelEval evalId).2
        .empty

theorem Logs.does {op : Op} {a : Answer} (h : Logs s op a s' l) : Does s op a s' := by
  cases h with
  | setWeight r w => exact .setWeight r w
  | enqueue item hs => exact .enqueue item hs
  | dispatch => exact .dispatch
  | complete t x => exact .complete t x
  | cancelEval e => exact .cancelEval e

def scheduleStrategy : ScheduleStrategy DispatchToken DagStrategy where
  new := DagStrategy.new
  pendingCount := DagStrategy.pendingCount
  inFlightCount := DagStrategy.inFlightCount
  Shuffle := DagStrategy.Shuffle
  Does := Logs

/-! ### What a call does to the core -/

theorem wfq_foldl_promoteStep (ps : List (String × RepoId)) :
    ∀ s : DagStrategy, (ps.foldl promoteStep s).wfq
        = ((ps.zipIdx s.nextToken).map fun e => (e.1.2, (⟨e.2⟩ : DispatchToken))).foldl
            (fun c e => c.enqueue e.1 e.2) s.wfq ∧
      (ps.foldl promoteStep s).nextToken = s.nextToken + ps.length := by
  induction ps with
  | nil => exact fun s => ⟨rfl, rfl⟩
  | cons p ps ih =>
    intro s
    obtain ⟨hwfq, hnext⟩ := ih (promoteStep s p)
    refine ⟨by simpa [promoteStep] using hwfq, ?_⟩
    rw [List.foldl_cons, hnext, List.length_cons]
    simp only [promoteStep]
    omega

theorem fits_promoteReadySteps (h : l.Fits cap s.wfq) :
    (l ++ ⟨s.promotions, []⟩).Fits cap s.promoteReadySteps.wfq := by
  have hfold := h.enqueueAll s.promotions
  rw [promoteReadySteps, (wfq_foldl_promoteStep _ s).1]
  exact hfold

/-- The tokens that were enqueued are those that were minted, in that order. -/
def Minted (l : Ledger DispatchToken) (s : DagStrategy) : Prop :=
  l.enqueued.map (fun e => e.2.get) = List.range s.nextToken

theorem minted_promoteReadySteps (h : Minted l s) :
    Minted (l ++ ⟨s.promotions, []⟩) s.promoteReadySteps := by
  unfold Minted at *
  have hnew : s.promotions.map (fun e => e.2.get)
      = List.range' s.nextToken s.toPromote.length := by
    simp [promotions, Function.comp_def, ← List.zipIdx_map_snd]
  rw [promoteReadySteps, (wfq_foldl_promoteStep _ s).2, Ledger.append_enqueued, List.map_append,
    h, hnew, List.range_eq_range', List.range_eq_range', ← List.range'_append_1]
  simp

theorem Minted.congr (h : Minted l s) (hn : s'.nextToken = s.nextToken) : Minted l s' := by
  unfold Minted at *
  rw [hn]
  exact h

/-- The swallow loop: every pop but the last is completed again at once. -/
theorem fits_dispatchLoop (s : DagStrategy) : ∀ (fuel : ℕ) {l : Ledger DispatchToken}
    {c : WfqCore DispatchToken}, l.Fits cap c →
      (l ++ ⟨[], popsLoop fuel { s with wfq := c }⟩).Fits cap
        (dispatchLoop fuel { s with wfq := c }).2.wfq := by
  intro fuel
  induction fuel with
  | zero =>
    intro l c h
    simpa [popsLoop, dispatchLoop, Ledger.append_empty] using h
  | succ fuel ih =>
    intro l c h
    simp only [popsLoop, dispatchLoop]
    cases hd : c.dispatch with
    | mk o c' =>
      cases o with
      | none =>
        obtain ⟨rfl, -⟩ := WfqCore.dispatch_none hd
        simpa [Ledger.append_empty] using h
      | some p =>
        have hpop := h.pop hd
        cases ht : s.tokenToDrv.lookup p.tag with
        | some k =>
          simp only [ht]
          cases hk : s.byDrv.lookup k <;> simpa [hk] using hpop
        | none =>
          simp only [ht]
          have hnext := ih (hpop.complete p.tag)
          have hl : ∀ ps, l ++ ⟨[], [(p.repoId, p.tag)]⟩ ++ ⟨[], ps⟩
              = l ++ ⟨[], (p.repoId, p.tag) :: ps⟩ := by
            intro ps
            ext1 <;> simp
          rw [hl] at hnext
          exact hnext

/-- The strategy in use, its Session and its ledger. -/
structure InUse (cap : Option ℕ) (u : Caller DispatchToken DagStrategy) : Prop where
  tracks : Session.Tracks { strategy := u.strategy, inFlight := u.held, log := [] }
  fits : u.ledger.Fits cap u.strategy.wfq
  minted : Minted u.ledger u.strategy

/-- What one call keeps of the core and of the token counter. -/
theorem Logs.core {op : Op} {a : Answer} {lg : Ledger DispatchToken} (hd : Logs s op a s' lg)
    (hb : Bookkeeping [] s) (hf : l.Fits cap s.wfq) (hm : Minted l s) :
    (l ++ lg).Fits cap s'.wfq ∧ Minted (l ++ lg) s' := by
  cases hd with
  | setWeight r w =>
    rw [Ledger.empty, Ledger.append_empty]
    exact ⟨hf.setWeight r w, hm⟩
  | @enqueue s₁ item hs =>
    have hspec := insertItem_spec s item
    refine ⟨fits_promoteReadySteps ?_, minted_promoteReadySteps ?_⟩
    · exact Ledger.Fits.shuffle (hspec.wfq ▸ hf) hs.wfq
    · exact hm.congr (hs.nextToken.trans hspec.nextToken)
  | dispatch =>
    refine ⟨fits_dispatchLoop s _ hf, ?_⟩
    have hspec := dispatch_spec s hb.known_token
    have hnext : s.dispatch.2.nextToken = s.nextToken := by
      cases hres : s.dispatch with
      | mk o s' =>
        rw [hres] at hspec
        cases hspec <;> rfl
    simpa [Minted, hnext] using hm
  | complete token status =>
    have hspec := complete_spec s token status hb.known_token
    unfold promotedBy
    cases hres : s.complete token status with
    | mk effects s' =>
      rw [hres] at hspec
      cases hspec with
      | unknown hn =>
        rw [hn, Ledger.append_empty]
        exact ⟨hf, hm⟩
      | @succeeded d step ht hl hs =>
        have hterm : (StepState.fromStatus status).isSuccessfulTerminal = true := by
          cases status <;> first | rfl | exact absurd hs (by decide)
        simp only [ht, hl, hterm, if_true]
        refine ⟨fits_promoteReadySteps ?_, minted_promoteReadySteps ?_⟩
        · rw [decrementRdeps_frame (·.wfq) fun _ _ _ => rfl]
          exact hf.complete token
        · exact hm.congr (decrementRdeps_frame (·.nextToken) (fun _ _ _ => rfl) _ _)
      | @failed d step sk out s'' ht hl hs hc =>
        have hterm : (StepState.fromStatus status).isSuccessfulTerminal = false := by
          cases status <;> first | rfl | exact absurd hs (by decide)
        simp only [ht, hl, hterm, Bool.false_eq_true, if_false, Ledger.append_empty]
        rw [hc.state]
        refine ⟨?_, hm.congr (skipAll_nextToken _ sk)⟩
        rw [skipAll_wfq]
        exact hf.complete token
  | cancelEval e =>
    obtain ⟨hwfq, hnext⟩ := cancelEval_core s e
    rw [Ledger.empty, Ledger.append_empty, hwfq]
    exact ⟨hf, hm.congr hnext⟩

theorem InUse.run {u : Caller DispatchToken DagStrategy} (h : scheduleStrategy.Runs cap u) :
    InUse cap u := by
  induction h with
  | new =>
    refine ⟨.start (.new) ?_, .new cap, rfl⟩
    rintro k t ⟨st, hl, -⟩
    simp [scheduleStrategy, DagStrategy.new] at hl
  | shuffle _ hs ih =>
    exact ⟨ih.tracks.reorder hs, ih.fits.shuffle hs.wfq, ih.minted.congr hs.nextToken⟩
  | @call u op a s lg _ hd ih =>
    obtain ⟨hfits, hminted⟩ := hd.core ih.tracks.books ih.fits ih.minted
    refine ⟨?_, hfits, hminted⟩
    have ht := ih.tracks.step (.refl _) hd.does
    have hheld : (Session.record { strategy := u.strategy, inFlight := u.held, log := [] } s op a
        ).inFlight = heldAfter u.held op a := by
      cases hd with
      | dispatch => cases hres : u.strategy.dispatch.1 <;> rfl
      | setWeight | enqueue | complete | cancelEval => rfl
    refine ⟨?_, ?_, ?_, ?_⟩
    · simpa using ht.books
    · simpa using ht.settled
    · simpa [hheld] using ht.runs
    · simpa [hheld] using ht.nodup

/-- The slots of the core are the tokens the caller holds. -/
theorem InUse.length_held {u : Caller DispatchToken DagStrategy} (h : InUse cap u) :
    u.strategy.inFlightCount = u.held.length := by
  refine length_keys_of_iff (f := fun d => some d.token) ?_ (fun _ _ => rfl) fun t => ?_
  · have := h.tracks.nodup.map (Option.some_injective DispatchToken)
    rwa [List.map_map] at this
  · rw [h.tracks.books.slots t]
    constructor
    · rintro ⟨k, st, hl, htok, hrun⟩
      obtain ⟨d, hd, -, hdt⟩ := (h.tracks.runs k t).mp ⟨st, hl, hrun, htok⟩
      exact ⟨d, hd, congrArg some hdt⟩
    · rintro ⟨d, hd, hdt⟩
      obtain ⟨st, hl, hrun, htok⟩ :=
        (h.tracks.runs d.drvPath t).mpr ⟨d, hd, rfl, Option.some.inj hdt⟩
      exact ⟨_, st, hl, htok, hrun⟩

theorem Logs.of_idle {lg : Ledger DispatchToken} (h : Logs s .dispatch (.dispatched none) s' lg) :
    s.dispatch.1 = none ∧ s' = s.dispatch.2 := by
  generalize ha : Answer.dispatched none = a at h
  cases h with
  | dispatch => exact ⟨(Answer.dispatched.inj ha).symm, rfl⟩

theorem honest : scheduleStrategy.Honest := by
  intro cap u hrun _
  have h := InUse.run hrun
  have hnd : (u.ledger.enqueued.map Prod.snd).Nodup := by
    refine List.Nodup.of_map (fun t : DispatchToken => t.get) ?_
    rw [List.map_map]
    exact h.minted ▸ List.nodup_range
  refine ⟨h.length_held, h.fits.slots, h.fits.nodup hnd, h.fits.lane_sublist, hnd, ?_⟩
  intro s lg hd
  have hspec := dispatch_spec u.strategy h.tracks.books.known_token
  obtain ⟨hnone, rfl⟩ := Logs.of_idle hd
  cases hres : u.strategy.dispatch with
  | mk o s' =>
    rw [hres] at hspec hnone
    obtain rfl : o = none := hnone
    cases hspec with
    | @idle c hc hidle =>
      -- the core that answered nothing is the one the call leaves behind
      refine (WfqCore.dispatch_none hidle).2.imp (fun hfull => ?_) id
      obtain ⟨n, hcap, hle⟩ := WfqCore.capReached_iff.mp hfull
      exact ⟨n, (hc.cap.trans h.fits.capKept).symm.trans hcap, hle⟩

end DagStrategy

end Argunix.Sched
