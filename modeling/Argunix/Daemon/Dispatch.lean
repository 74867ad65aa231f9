import Argunix.Builders.Waiter

/-!
# `dispatch_pool_build`: what its result stands for

One attempt of a build on one builder, with the locals of the source: the push, `dispatch_build`,
the drain of the lifecycle raced against the cancel token and the wall clock, the grace window
after a timeout, the ordered tests on the five locals, the pull, the log. An act is what one
`await` yields; the lifecycle may yield anything at any time, or nothing ever again. Between two
awaits the other tasks and connections work on the same `Hub`.

`Verdict` says what each constructor of the result is evidence for. Three of its clauses are not
what the docstring of `PoolDispatchResult` says, and all three are guards of the source.

* **A `Killed` nobody asked for is a cancellation** (`final_status == Killed && !timed_out`).
* **After an `Abort`, a connection that breaks is not a transport failure**: an operator's cancel
  stays `Cancelled`, a timeout stays a failure.
* **Success without output paths pulls nothing** (`!output_paths.is_empty()`).

The entry of `in_flight_builds` is the sender of the channel that `dispatch_build` opened; whoever
returns has dropped it, also when writing the log fails.

`step_refines`: these are the steps of the attempt inside `Task.step`. The log text, the live tap,
the phase metrics and the gcroot are left out.
-/

set_option autoImplicit false

namespace Argunix.Daemon

open Argunix.Lib
open Argunix.Builders (Hub HubAct)

/-- The parts of `PoolDispatchSpec` and of the call that the control flow reads. -/
structure PoolDispatchSpec where
  builderName : BuilderName
  buildId : ℤ
  /-- `cancel` is `Some`. -/
  cancellable : Bool
  /-- `transfer_slot` is `Some`. -/
  hasSlot : Bool
deriving DecidableEq, Repr

/-- `argunix_build::BuildOutcome` -/
structure BuildOutcome where
  success : Bool
  exitCode : Option ℤ
  outputPaths : List String
  logTruncated : Bool
deriving DecidableEq, Repr

/-- `PoolDispatchResult`, with the outcome it carries. -/
inductive DispatchResult
  | outcome (o : BuildOutcome)
  | cancelled
  | transportFailure
deriving DecidableEq, Repr

/-- Where an attempt stands. -/
inductive DispatchPc
  | pushing
  /-- Before the session is looked up and the sender registered. -/
  | looking
  | sending
  | draining
  | grace
  | acquiring
  | pulling
  | writing (result : DispatchResult)
  /-- `none` when `write_zstd_log` failed. -/
  | returned (result : Option DispatchResult)
deriving DecidableEq, Repr

/-- What an attempt waits for, and what happens meanwhile. -/
inductive DispatchEvent
  /-- The cancel token fires. -/
  | fire
  /-- Another task or a connection. -/
  | hub (a : HubAct)
  | pushed (outcome : CopyPhaseOutcome)
  | look (found : Bool)
  | sent (ok : Bool)
  | recv (ev : Option Builders.BuildLifecycle)
  /-- The `wait_cancelled` arm; `Abort` goes out. -/
  | seeCancel
  /-- The `sleep_until` arm; `Abort` goes out. -/
  | deadline
  | graceOver
  | slot (got : Bool)
  | pulled (outcome : CopyPhaseOutcome)
  | logWritten (ok : Bool)

/-- One attempt. -/
structure PoolBuild where
  pc : DispatchPc
  hub : Hub
  /-- The cancel token has fired. -/
  fired : Bool
  /-- The lifecycle channel, once `dispatch_build` has registered it. -/
  chan : Option ℕ
  outputPaths : List String
  finalStatus : Option BuildOutcomeStatus
  exitCode : Option ℤ
  logTruncated : Bool
  aborted : Bool
  timedOut : Bool
  transportFailed : Bool

namespace PoolBuild

/-- The attempt has just begun. -/
def start (grace : ℕ) : PoolBuild :=
  { pc := .pushing, hub := Hub.new grace, fired := false, chan := none, outputPaths := []
    finalStatus := none, exitCode := none, logTruncated := false, aborted := false
    timedOut := false, transportFailed := false }

/-- The end of the function: what is returned once the log is written. -/
def conclusion (p : PoolBuild) : DispatchResult :=
  if p.transportFailed then .transportFailure
  else .outcome
    { success := p.finalStatus = some .success, exitCode := p.exitCode
      outputPaths := p.outputPaths, logTruncated := p.logTruncated }

/-- From the end of the drain to the next await: the entry is removed, then the ordered tests. -/
def settle (spec : PoolDispatchSpec) (p : PoolBuild) : PoolBuild :=
  let p := { p with hub := p.hub.unregisterInFlightBuild spec.builderName spec.buildId }
  if p.aborted = true ∨ (p.finalStatus = some .killed ∧ p.timedOut = false) then
    { p with pc := .writing .cancelled }
  else if p.timedOut then
    { p with pc := .writing (.outcome
        { success := false, exitCode := p.exitCode, outputPaths := []
          logTruncated := p.logTruncated }) }
  else if p.finalStatus = some .success ∧ p.outputPaths ≠ [] then
    { p with pc := if spec.hasSlot then .acquiring else .pulling }
  else { p with pc := .writing p.conclusion }

/-- The assignments of a `Finished` arm. -/
def finish (p : PoolBuild) (status : BuildOutcomeStatus) (exitCode : Option ℤ)
    (outputPaths : List String) (logTruncated : Bool) : PoolBuild :=
  { p with
    finalStatus := some status, exitCode := exitCode, outputPaths := outputPaths
    logTruncated := p.logTruncated || logTruncated }

/-- It goes on there. -/
def goto (p : PoolBuild) (pc : DispatchPc) : Option PoolBuild := some { p with pc := pc }

/-- One event. -/
def step (spec : PoolDispatchSpec) (p : PoolBuild) : DispatchEvent → Option PoolBuild
  | .fire => some { p with fired := true }
  | .hub a => some { p with hub := p.hub.act a }
  | .pushed outcome =>
    match p.pc, outcome with
    | .pushing, .done => p.goto .looking
    | .pushing, .failed | .pushing, .builderGone => p.goto (.writing .transportFailure)
    | .pushing, .cancelled =>
      if spec.cancellable && p.fired then p.goto (.writing .cancelled) else none
    | _, _ => none
  | .look found =>
    match p.pc with
    | .looking =>
      if found then
        some { p with
          pc := .sending, chan := some p.hub.nextChan
          hub := p.hub.registerInFlightBuild spec.builderName spec.buildId }
      else p.goto (.writing .transportFailure)
    | _ => none
  | .sent ok =>
    match p.pc with
    | .sending =>
      if ok then p.goto .draining
      else some { p with
        pc := .writing .transportFailure
        hub := p.hub.unregisterInFlightBuild spec.builderName spec.buildId }
    | _ => none
  | .recv ev =>
    match p.pc, ev with
    | .draining, some (.finished status exitCode outputPaths logTruncated) =>
      some ((p.finish status exitCode outputPaths logTruncated).settle spec)
    | .draining, none =>
      some ({ p with finalStatus := some .failure, transportFailed := true }.settle spec)
    | .grace, some (.finished status exitCode outputPaths logTruncated) =>
      some ((p.finish status exitCode outputPaths logTruncated).settle spec)
    | .grace, none => some ({ p with finalStatus := some .killed }.settle spec)
    | .draining, some _ | .grace, some _ => some p
    | _, _ => none
  | .seeCancel =>
    match p.pc with
    | .draining =>
      if (spec.cancellable && p.fired && !p.aborted) = true then some { p with aborted := true }
      else none
    | _ => none
  | .deadline =>
    match p.pc with
    | .draining =>
      if (!p.aborted && !p.timedOut) = true then some { p with pc := .grace, timedOut := true }
      else none
    | _ => none
  | .graceOver =>
    match p.pc with
    | .grace => some ({ p with finalStatus := some .killed }.settle spec)
    | _ => none
  | .slot got =>
    match p.pc with
    | .acquiring =>
      if got then p.goto .pulling
      else if spec.cancellable && p.fired then p.goto (.writing .cancelled)
      else none
    | _ => none
  | .pulled outcome =>
    match p.pc, outcome with
    | .pulling, .done => p.goto (.writing p.conclusion)
    | .pulling, .failed | .pulling, .builderGone =>
      let p := { p with finalStatus := some .failure, transportFailed := true }
      p.goto (.writing p.conclusion)
    | .pulling, .cancelled =>
      if spec.cancellable && p.fired then p.goto (.writing .cancelled) else none
    | _, _ => none
  | .logWritten ok =>
    match p.pc with
    | .writing result => p.goto (.returned (if ok then some result else none))
    | _ => none

/-- A run of one attempt, with everything that happened, oldest first. -/
inductive Run (spec : PoolDispatchSpec) (grace : ℕ) : List DispatchEvent → PoolBuild → Prop
  | start : Run spec grace [] (start grace)
  | step {es : List DispatchEvent} {p p' : PoolBuild} {e : DispatchEvent} :
      Run spec grace es p → p.step spec e = some p' → Run spec grace (es ++ [e]) p'

/-! ## What happened -/

/-- The agent reported this verdict. -/
def Received (es : List DispatchEvent) (status : BuildOutcomeStatus)
    (outputPaths : List String) : Prop :=
  ∃ exitCode logTruncated,
    DispatchEvent.recv (some (.finished status exitCode outputPaths logTruncated)) ∈ es

/-- The builder or the connection to it is gone, or a transfer failed. -/
def breaks : DispatchEvent → Bool
  | .pushed .failed | .pushed .builderGone | .look false | .sent false | .recv none
  | .pulled .failed | .pulled .builderGone => true
  | _ => false

/-- **What a result is evidence for.** -/
structure Verdict (es : List DispatchEvent) (r : DispatchResult) : Prop where
  success : ∀ o, r = .outcome o → o.success = true →
    Received es .success o.outputPaths ∧ .seeCancel ∉ es ∧ .deadline ∉ es ∧
      (o.outputPaths = [] ∨ .pulled .done ∈ es)
  failure : ∀ o, r = .outcome o → o.success = false →
    (∃ status outs, status ≠ .success ∧ status ≠ .killed ∧ Received es status outs) ∨
      .deadline ∈ es
  cancelled : r = .cancelled → .fire ∈ es ∨ ∃ outs, Received es .killed outs
  transport : (∃ e ∈ es, breaks e = true) → .seeCancel ∉ es → .deadline ∉ es →
    r = .transportFailure

/-- The events that a later phase may add without changing what is known. -/
def Idle (e : DispatchEvent) : Prop := e ≠ .seeCancel ∧ e ≠ .deadline ∧ breaks e = false

theorem Received.append {es : List DispatchEvent} {status : BuildOutcomeStatus}
    {outs : List String} (h : Received es status outs) (e : DispatchEvent) :
    Received (es ++ [e]) status outs := by
  obtain ⟨exitCode, logTruncated, hmem⟩ := h
  exact ⟨exitCode, logTruncated, List.mem_append_left _ hmem⟩

theorem mem_append_of_idle {es : List DispatchEvent} {e e' : DispatchEvent} (he : e' ≠ e) :
    e ∈ es ++ [e'] ↔ e ∈ es := by
  simp [Ne.symm he]

theorem Verdict.append {es : List DispatchEvent} {r : DispatchResult} (h : Verdict es r)
    {e : DispatchEvent} (he : Idle e) : Verdict (es ++ [e]) r := by
  obtain ⟨hcancel, hdead, hbreak⟩ := he
  refine ⟨fun o ho hs => ?_, fun o ho hs => ?_, fun hc => ?_, ?_⟩
  · obtain ⟨hrec, hno, hno', hout⟩ := h.success o ho hs
    rw [mem_append_of_idle hcancel, mem_append_of_idle hdead]
    exact ⟨hrec.append e, hno, hno', hout.imp id (List.mem_append_left _)⟩
  · rw [mem_append_of_idle hdead]
    refine (h.failure o ho hs).imp ?_ id
    rintro ⟨status, outs, h₁, h₂, hrec⟩
    exact ⟨status, outs, h₁, h₂, hrec.append e⟩
  · refine (h.cancelled hc).imp (List.mem_append_left _) ?_
    rintro ⟨outs, hrec⟩
    exact ⟨outs, hrec.append e⟩
  · rw [mem_append_of_idle hcancel, mem_append_of_idle hdead]
    rintro ⟨e', he', hb⟩
    refine h.transport ⟨e', ?_, hb⟩
    rcases List.mem_append.mp he' with hmem | hmem
    · exact hmem
    · rw [List.mem_singleton.mp hmem, hbreak] at hb
      exact absurd hb (by simp)

/-- A transport failure needs no evidence. -/
theorem verdict_transportFailure (es : List DispatchEvent) : Verdict es .transportFailure :=
  ⟨by simp, by simp, by simp, fun _ _ _ => rfl⟩

/-! ## Everything a step can do -/

/-- The transitions, one per arm of the source. -/
inductive Moves (spec : PoolDispatchSpec) (p : PoolBuild) : DispatchEvent → PoolBuild → Prop
  | fire : Moves spec p .fire { p with fired := true }
  | hub (a : HubAct) : Moves spec p (.hub a) { p with hub := p.hub.act a }
  | pushed : p.pc = .pushing → Moves spec p (.pushed .done) { p with pc := .looking }
  | pushBroke (outcome : CopyPhaseOutcome) : p.pc = .pushing →
      breaks (.pushed outcome) = true →
      Moves spec p (.pushed outcome) { p with pc := .writing .transportFailure }
  | pushCancelled : p.pc = .pushing → (spec.cancellable && p.fired) = true →
      Moves spec p (.pushed .cancelled) { p with pc := .writing .cancelled }
  | registered : p.pc = .looking →
      Moves spec p (.look true) { p with
        pc := .sending, chan := some p.hub.nextChan
        hub := p.hub.registerInFlightBuild spec.builderName spec.buildId }
  | notRegistered : p.pc = .looking →
      Moves spec p (.look false) { p with pc := .writing .transportFailure }
  | sent : p.pc = .sending → Moves spec p (.sent true) { p with pc := .draining }
  | notSent : p.pc = .sending →
      Moves spec p (.sent false) { p with
        pc := .writing .transportFailure
        hub := p.hub.unregisterInFlightBuild spec.builderName spec.buildId }
  | drained (ev : Builders.BuildLifecycle) : p.pc = .draining ∨ p.pc = .grace →
      Moves spec p (.recv (some ev)) p
  | finished (status : BuildOutcomeStatus) (exitCode : Option ℤ) (outputPaths : List String)
      (logTruncated : Bool) : p.pc = .draining ∨ p.pc = .grace →
      Moves spec p (.recv (some (.finished status exitCode outputPaths logTruncated)))
        ((p.finish status exitCode outputPaths logTruncated).settle spec)
  | closed : p.pc = .draining →
      Moves spec p (.recv none)
        ({ p with finalStatus := some .failure, transportFailed := true }.settle spec)
  | silent (e : DispatchEvent) : p.pc = .grace → e = .recv none ∨ e = .graceOver →
      Moves spec p e ({ p with finalStatus := some .killed }.settle spec)
  | seeCancel : p.pc = .draining → p.fired = true → p.aborted = false →
      Moves spec p .seeCancel { p with aborted := true }
  | deadline : p.pc = .draining → p.aborted = false →
      Moves spec p .deadline { p with pc := .grace, timedOut := true }
  | slot : p.pc = .acquiring → Moves spec p (.slot true) { p with pc := .pulling }
  | slotCancelled : p.pc = .acquiring → (spec.cancellable && p.fired) = true →
      Moves spec p (.slot false) { p with pc := .writing .cancelled }
  | pulled : p.pc = .pulling →
      Moves spec p (.pulled .done) { p with pc := .writing p.conclusion }
  | pullBroke (outcome : CopyPhaseOutcome) : p.pc = .pulling →
      breaks (.pulled outcome) = true →
      Moves spec p (.pulled outcome) { p with
        finalStatus := some .failure, transportFailed := true, pc := .writing .transportFailure }
  | pullCancelled : p.pc = .pulling → (spec.cancellable && p.fired) = true →
      Moves spec p (.pulled .cancelled) { p with pc := .writing .cancelled }
  | logged (result : DispatchResult) : p.pc = .writing result →
      Moves spec p (.logWritten true) { p with pc := .returned (some result) }
  | notLogged (result : DispatchResult) : p.pc = .writing result →
      Moves spec p (.logWritten false) { p with pc := .returned none }

variable {spec : PoolDispatchSpec} {es : List DispatchEvent} {p p' : PoolBuild}

/-- **Inversion of `step`.** -/
theorem step_moves {e : DispatchEvent} (h : p.step spec e = some p') : Moves spec p e p' := by
  unfold step at h
  split at h
  case h_1 => exact Option.some.inj h ▸ .fire
  case h_2 a => exact Option.some.inj h ▸ .hub a
  case h_3 outcome =>
    split at h
    · rename_i hpc
      exact Option.some.inj h ▸ .pushed hpc
    · rename_i hpc
      exact Option.some.inj h ▸ .pushBroke _ hpc rfl
    · rename_i hpc
      exact Option.some.inj h ▸ .pushBroke _ hpc rfl
    · rename_i hpc
      split at h
      · rename_i hc
        exact Option.some.inj h ▸ .pushCancelled hpc hc
      · exact absurd h (by simp)
    · exact absurd h (by simp)
  case h_4 found =>
    split at h
    · rename_i hpc
      cases found with
      | true => exact Option.some.inj h ▸ .registered hpc
      | false => exact Option.some.inj h ▸ .notRegistered hpc
    · exact absurd h (by simp)
  case h_5 ok =>
    split at h
    · rename_i hpc
      cases ok with
      | true => exact Option.some.inj h ▸ .sent hpc
      | false => exact Option.some.inj h ▸ .notSent hpc
    · exact absurd h (by simp)
  case h_6 ev =>
    split at h
    · rename_i hpc
      exact Option.some.inj h ▸ .finished _ _ _ _ (Or.inl hpc)
    · rename_i hpc
      exact Option.some.inj h ▸ .closed hpc
    · rename_i hpc
      exact Option.some.inj h ▸ .finished _ _ _ _ (Or.inr hpc)
    · rename_i hpc
      exact Option.some.inj h ▸ .silent _ hpc (Or.inl rfl)
    · rename_i hpc
      exact Option.some.inj h ▸ .drained _ (Or.inl hpc)
    · rename_i hpc
      exact Option.some.inj h ▸ .drained _ (Or.inr hpc)
    · exact absurd h (by simp)
  case h_7 =>
    split at h
    · rename_i hpc
      split at h
      · rename_i hc
        simp only [Bool.and_eq_true, Bool.not_eq_true'] at hc
        exact Option.some.inj h ▸ .seeCancel hpc hc.1.2 hc.2
      · exact absurd h (by simp)
    · exact absurd h (by simp)
  case h_8 =>
    split at h
    · rename_i hpc
      split at h
      · rename_i hc
        simp only [Bool.and_eq_true, Bool.not_eq_true'] at hc
        exact Option.some.inj h ▸ .deadline hpc hc.1
      · exact absurd h (by simp)
    · exact absurd h (by simp)
  case h_9 =>
    split at h
    · rename_i hpc
      exact Option.some.inj h ▸ .silent _ hpc (Or.inr rfl)
    · exact absurd h (by simp)
  case h_10 got =>
    split at h
    · rename_i hpc
      cases got with
      | true => exact Option.some.inj h ▸ .slot hpc
      | false =>
        simp only [Bool.false_eq_true, if_false] at h
        split at h
        · rename_i hc
          exact Option.some.inj h ▸ .slotCancelled hpc hc
        · exact absurd h (by simp)
    · exact absurd h (by simp)
  case h_11 outcome =>
    split at h
    · rename_i hpc
      exact Option.some.inj h ▸ .pulled hpc
    · rename_i hpc
      exact Option.some.inj h ▸ .pullBroke _ hpc rfl
    · rename_i hpc
      exact Option.some.inj h ▸ .pullBroke _ hpc rfl
    · rename_i hpc
      split at h
      · rename_i hc
        exact Option.some.inj h ▸ .pullCancelled hpc hc
      · exact absurd h (by simp)
    · exact absurd h (by simp)
  case h_12 ok =>
    split at h
    · rename_i hpc
      cases ok with
      | true => exact Option.some.inj h ▸ .logged _ hpc
      | false => exact Option.some.inj h ▸ .notLogged _ hpc
    · exact absurd h (by simp)

/-! ## The invariant -/

/-- Two of the flags and the token mirror what happened. -/
structure Mirrors (es : List DispatchEvent) (f a t : Bool) : Prop where
  fired : f = true → .fire ∈ es
  aborted : a = true ↔ .seeCancel ∈ es
  abortedFired : a = true → .fire ∈ es
  timedOut : t = true ↔ .deadline ∈ es

/-- Nothing has broken. -/
def Unbroken (es : List DispatchEvent) : Prop := ∀ e ∈ es, breaks e = false

/-- What is known at each await. -/
def Known (es : List DispatchEvent) (p : PoolBuild) : Prop :=
  Mirrors es p.fired p.aborted p.timedOut ∧
  match p.pc with
  | .pushing | .looking | .sending =>
    p.aborted = false ∧ p.timedOut = false ∧ p.transportFailed = false ∧ Unbroken es
  | .draining => p.timedOut = false ∧ p.transportFailed = false ∧ Unbroken es
  | .grace =>
    p.aborted = false ∧ p.timedOut = true ∧ p.transportFailed = false ∧ Unbroken es
  | .acquiring | .pulling =>
    p.aborted = false ∧ p.timedOut = false ∧ p.transportFailed = false ∧ Unbroken es ∧
      p.finalStatus = some .success ∧ Received es .success p.outputPaths
  | .writing r => Verdict es r
  | .returned o => ∀ r, o = some r → Verdict es r

theorem Mirrors.append {f a t : Bool} (h : Mirrors es f a t) {e : DispatchEvent}
    (he : e ≠ .seeCancel ∧ e ≠ .deadline) : Mirrors (es ++ [e]) f a t where
  fired := fun hf => List.mem_append_left _ (h.fired hf)
  aborted := by rw [mem_append_of_idle he.1, h.aborted]
  abortedFired := fun ha => List.mem_append_left _ (h.abortedFired ha)
  timedOut := by rw [mem_append_of_idle he.2, h.timedOut]

theorem Unbroken.append (h : Unbroken es) {e : DispatchEvent} (he : breaks e = false) :
    Unbroken (es ++ [e]) := by
  intro e' hmem
  rcases List.mem_append.mp hmem with hold | hnew
  · exact h e' hold
  · rw [List.mem_singleton.mp hnew]
    exact he

theorem Unbroken.absurd (h : Unbroken es) {P : Prop} (hb : ∃ e ∈ es, breaks e = true) : P := by
  obtain ⟨e, he, hb⟩ := hb
  rw [h e he] at hb
  exact Bool.noConfusion hb

/-- A cancellation while nothing has broken. -/
theorem verdict_cancelled (hfire : .fire ∈ es) (h : Unbroken es) : Verdict es .cancelled :=
  ⟨by simp, by simp, fun _ => Or.inl hfire, fun hb _ _ => h.absurd hb⟩

/-- How the drain ended. -/
def Drained (es : List DispatchEvent) (p : PoolBuild) : Prop :=
  ∃ status, p.finalStatus = some status ∧
    ((Received es status p.outputPaths ∧ p.transportFailed = false ∧ Unbroken es) ∨
      (status = .failure ∧ p.transportFailed = true) ∨
      (status = .killed ∧ p.timedOut = true))

/-- The first test: an operator's cancel, or a `Killed` nobody asked for. -/
theorem verdict_of_cancel (hm : Mirrors es p.fired p.aborted p.timedOut) (hd : Drained es p)
    (hcancel : p.aborted = true ∨ (p.finalStatus = some .killed ∧ p.timedOut = false)) :
    Verdict es .cancelled := by
  obtain ⟨status, hstatus, hcases⟩ := hd
  rcases hcancel with ha | ⟨hk, ht⟩
  · exact ⟨by simp, by simp, fun _ => Or.inl (hm.abortedFired ha),
      fun _ hno _ => absurd (hm.aborted.mp ha) hno⟩
  · rw [hstatus, Option.some.injEq] at hk
    subst hk
    rcases hcases with ⟨hrec, -, hun⟩ | ⟨hk, -⟩ | ⟨-, ht'⟩
    · exact ⟨by simp, by simp, fun _ => Or.inr ⟨_, hrec⟩, fun hb _ _ => hun.absurd hb⟩
    · exact absurd hk (by decide)
    · rw [ht] at ht'
      exact Bool.noConfusion ht'

/-- The last test: nothing is to be pulled, so the agent's status or the broken channel decides. -/
theorem verdict_conclusion (hm : Mirrors es p.fired p.aborted p.timedOut) (hd : Drained es p)
    (ha : p.aborted = false) (ht : p.timedOut = false) (hk : p.finalStatus ≠ some .killed)
    (hpull : ¬ (p.finalStatus = some .success ∧ p.outputPaths ≠ [])) :
    Verdict es p.conclusion := by
  obtain ⟨status, hstatus, hcases⟩ := hd
  unfold conclusion
  split
  · exact verdict_transportFailure es
  · rename_i htr
    rcases hcases with ⟨hrec, -, hun⟩ | ⟨-, htr'⟩ | ⟨-, ht'⟩
    · refine ⟨fun o ho hs => ?_, fun o ho hs => Or.inl ?_, by simp, fun hb _ _ => hun.absurd hb⟩
      · rw [← DispatchResult.outcome.inj ho] at hs ⊢
        have hsucc : p.finalStatus = some .success := by simpa using hs
        have hempty : p.outputPaths = [] := by
          by_contra hne
          exact hpull ⟨hsucc, hne⟩
        rw [hstatus, Option.some.injEq] at hsucc
        subst hsucc
        refine ⟨hrec, fun hmem => ?_, fun hmem => ?_, Or.inl hempty⟩
        · rw [hm.aborted.mpr hmem] at ha
          exact Bool.noConfusion ha
        · rw [hm.timedOut.mpr hmem] at ht
          exact Bool.noConfusion ht
      · rw [← DispatchResult.outcome.inj ho] at hs
        refine ⟨status, p.outputPaths, fun he => ?_, fun he => hk (he ▸ hstatus), hrec⟩
        rw [hstatus, he] at hs
        exact absurd hs (by simp)
    · exact absurd htr' htr
    · rw [ht] at ht'
      exact Bool.noConfusion ht'

/-- **The ordered tests.** -/
theorem known_settle (hm : Mirrors es p.fired p.aborted p.timedOut) (hd : Drained es p) :
    Known es (p.settle spec) := by
  unfold settle
  by_cases hcancel : p.aborted = true ∨ (p.finalStatus = some .killed ∧ p.timedOut = false)
  · rw [if_pos hcancel]
    exact ⟨hm, verdict_of_cancel hm hd hcancel⟩
  rw [if_neg hcancel]
  obtain ⟨ha, hk⟩ := not_or.mp hcancel
  have ha : p.aborted = false := by simpa using ha
  by_cases ht : p.timedOut = true
  · rw [if_pos ht]
    have hdead := hm.timedOut.mp ht
    refine ⟨hm, fun o ho hs => ?_, fun _ _ _ => Or.inr hdead, by simp,
      fun _ _ hno => absurd hdead hno⟩
    rw [← DispatchResult.outcome.inj ho] at hs
    exact Bool.noConfusion hs
  rw [if_neg ht]
  have ht : p.timedOut = false := by simpa using ht
  by_cases hpull : p.finalStatus = some .success ∧ p.outputPaths ≠ []
  · rw [if_pos hpull]
    obtain ⟨status, hstatus, hcases⟩ := hd
    have hsucc := hpull.1
    rw [hstatus, Option.some.injEq] at hsucc
    subst hsucc
    rcases hcases with ⟨hrec, htr, hun⟩ | ⟨hk', -⟩ | ⟨hk', -⟩
    · unfold Known
      cases spec.hasSlot <;> exact ⟨hm, ha, ht, htr, hun, hstatus, hrec⟩
    · exact absurd hk' (by decide)
    · exact absurd hk' (by decide)
  · rw [if_neg hpull]
    exact ⟨hm, verdict_conclusion hm hd ha ht (fun hkilled => hk ⟨hkilled, ht⟩) hpull⟩

/-- What others do, and what the lifecycle brings before its end, changes nothing. -/
theorem Known.of_idle (h : Known es p) {e : DispatchEvent} (he : Idle e)
    (hpc : p'.pc = p.pc) (hflags : (p'.aborted, p'.timedOut, p'.transportFailed, p'.finalStatus,
      p'.outputPaths) = (p.aborted, p.timedOut, p.transportFailed, p.finalStatus, p.outputPaths))
    (hfired : p'.fired = true → .fire ∈ es ++ [e]) : Known (es ++ [e]) p' := by
  simp only [Prod.mk.injEq] at hflags
  obtain ⟨ha, ht, htr, hst, hout⟩ := hflags
  obtain ⟨hm, h⟩ := h
  have hm' := hm.append ⟨he.1, he.2.1⟩
  unfold Known
  rw [hpc, ha, ht, htr, hst, hout]
  refine ⟨⟨hfired, hm'.aborted, hm'.abortedFired, hm'.timedOut⟩, ?_⟩
  cases hp : p.pc with
  | pushing | looking | sending | draining | grace =>
    rw [hp] at h
    simp only at h ⊢
    refine ⟨h.1, h.2.1, ?_⟩
    first | exact h.2.2.append he.2.2 | exact ⟨h.2.2.1, h.2.2.2.append he.2.2⟩
  | acquiring | pulling =>
    rw [hp] at h
    obtain ⟨h₁, h₂, h₃, hun, h₄, hrec⟩ := h
    exact ⟨h₁, h₂, h₃, hun.append he.2.2, h₄, hrec.append e⟩
  | writing r =>
    rw [hp] at h
    exact Verdict.append h he
  | returned o =>
    rw [hp] at h
    exact fun r hr => (h r hr).append he

/-- The step lemma. -/
theorem Known.step (h : Known es p) {e : DispatchEvent} (hstep : p.step spec e = some p') :
    Known (es ++ [e]) p' := by
  have hk := h
  unfold Known at hk
  obtain ⟨hm, hk⟩ := hk
  have hfired : ∀ e, (spec.cancellable && p.fired) = true → .fire ∈ es ++ [e] := fun e hf =>
    List.mem_append_left _ (hm.fired (by simpa using (Bool.and_eq_true _ _ ▸ hf).2))
  cases step_moves hstep with
  | fire => exact h.of_idle ⟨by simp, by simp, rfl⟩ rfl rfl fun _ => by simp
  | hub a =>
    exact h.of_idle ⟨by simp, by simp, rfl⟩ rfl rfl fun hf => List.mem_append_left _ (hm.fired hf)
  | pushed hpc | sent hpc | registered hpc =>
    rw [hpc] at hk
    obtain ⟨ha, ht, htr, hun⟩ := hk
    first
    | exact ⟨hm.append ⟨by simp, by simp⟩, ha, ht, htr, hun.append rfl⟩
    | exact ⟨hm.append ⟨by simp, by simp⟩, ht, htr, hun.append rfl⟩
  | pushBroke _ hpc | notRegistered hpc | notSent hpc | pullBroke _ hpc =>
    exact ⟨hm.append ⟨by simp, by simp⟩, verdict_transportFailure _⟩
  | pushCancelled hpc hf =>
    rw [hpc] at hk
    exact ⟨hm.append ⟨by simp, by simp⟩, verdict_cancelled (hfired _ hf) (hk.2.2.2.append rfl)⟩
  | slotCancelled hpc hf | pullCancelled hpc hf =>
    rw [hpc] at hk
    exact ⟨hm.append ⟨by simp, by simp⟩, verdict_cancelled (hfired _ hf) (hk.2.2.2.1.append rfl)⟩
  | drained ev hpc =>
    exact h.of_idle ⟨by simp, by simp, rfl⟩ rfl rfl fun hf => List.mem_append_left _ (hm.fired hf)
  | finished status exitCode outs logTruncated hpc =>
    have hopen : p.transportFailed = false ∧ Unbroken es := by
      rcases hpc with hpc | hpc
      · rw [hpc] at hk
        exact hk.2
      · rw [hpc] at hk
        exact hk.2.2
    refine known_settle (hm.append ⟨by simp, by simp⟩)
      ⟨status, rfl, Or.inl ⟨⟨exitCode, logTruncated, ?_⟩, hopen.1, hopen.2.append rfl⟩⟩
    exact List.mem_append_right _ (List.mem_singleton.mpr rfl)
  | closed hpc =>
    exact known_settle (hm.append ⟨by simp, by simp⟩) ⟨.failure, rfl, Or.inr (Or.inl ⟨rfl, rfl⟩)⟩
  | silent e hpc he =>
    rw [hpc] at hk
    refine known_settle (hm.append ?_) ⟨.killed, rfl, Or.inr (Or.inr ⟨rfl, hk.2.1⟩)⟩
    rcases he with rfl | rfl <;> simp
  | seeCancel hpc hf _ =>
    rw [hpc] at hk
    have hfire : DispatchEvent.fire ∈ es ++ [.seeCancel] := List.mem_append_left _ (hm.fired hf)
    refine ⟨⟨fun _ => hfire, by simp, fun _ => hfire, by simpa using hm.timedOut⟩, ?_⟩
    rw [hpc]
    exact ⟨hk.1, hk.2.1, hk.2.2.append rfl⟩
  | deadline hpc ha =>
    rw [hpc] at hk
    refine ⟨⟨fun hf => List.mem_append_left _ (hm.fired hf), by simpa using hm.aborted,
      fun hab => List.mem_append_left _ (hm.abortedFired hab), by simp⟩, ha, rfl, hk.2.1,
      hk.2.2.append rfl⟩
  | slot hpc =>
    rw [hpc] at hk
    obtain ⟨h₁, h₂, h₃, hun, h₄, hrec⟩ := hk
    exact ⟨hm.append ⟨by simp, by simp⟩, h₁, h₂, h₃, hun.append rfl, h₄, hrec.append _⟩
  | pulled hpc =>
    rw [hpc] at hk
    obtain ⟨ha, ht, htr, hun, hst, hrec⟩ := hk
    have hm' := hm.append (e := .pulled .done) ⟨by simp, by simp⟩
    refine ⟨hm', ?_⟩
    simp only [conclusion, htr, Bool.false_eq_true, if_false, hst, decide_true]
    refine ⟨fun o ho _ => ?_, fun o ho hs => ?_, by simp, fun hb _ _ => (hun.append rfl).absurd hb⟩
    · rw [← DispatchResult.outcome.inj ho]
      refine ⟨hrec.append _, fun hmem => ?_, fun hmem => ?_, Or.inr (by simp)⟩
      · rw [hm'.aborted.mpr hmem] at ha
        exact Bool.noConfusion ha
      · rw [hm'.timedOut.mpr hmem] at ht
        exact Bool.noConfusion ht
    · rw [← DispatchResult.outcome.inj ho] at hs
      exact Bool.noConfusion hs
  | logged r hpc =>
    rw [hpc] at hk
    have hv : Verdict es r := hk
    refine ⟨hm.append ⟨by simp, by simp⟩, fun r' hr => ?_⟩
    exact Option.some.inj hr ▸ hv.append ⟨by simp, by simp, rfl⟩
  | notLogged r hpc => exact ⟨hm.append ⟨by simp, by simp⟩, by simp⟩

theorem Run.known {grace : ℕ} (h : Run spec grace es p) : Known es p := by
  induction h with
  | start =>
    exact ⟨⟨by simp [PoolBuild.start], by simp [PoolBuild.start], by simp [PoolBuild.start],
      by simp [PoolBuild.start]⟩, rfl, rfl, rfl, by simp [Unbroken]⟩
  | step _ hstep ih => exact ih.step hstep

/-! ## The entry of `in_flight_builds` -/

/-- The waits in which the worker listens on its channel. -/
def Listening (pc : DispatchPc) : Prop := pc = .sending ∨ pc = .draining ∨ pc = .grace

/-- The sender of the channel is found under the key of the build only, and only while the
    worker listens. -/
structure Entry (spec : PoolDispatchSpec) (p : PoolBuild) : Prop where
  numbered : Builders.Dispatching.Numbered p.hub
  opened : ∀ chan, p.chan = some chan → chan < p.hub.nextChan
  found : ∀ chan, p.chan = some chan → ∀ key, p.hub.inFlightBuilds.lookup key = some chan →
    key = (spec.builderName, spec.buildId) ∧ Listening p.pc

/-- A step that leaves the registry alone keeps the worker listening, or it was not. -/
theorem Entry.of_hub (h : Entry spec p) (hhub : p'.hub = p.hub) (hchan : p'.chan = p.chan)
    (hpc : Listening p.pc → Listening p'.pc) : Entry spec p' where
  numbered := hhub ▸ h.numbered
  opened := by rw [hhub, hchan]; exact h.opened
  found := by
    rw [hhub, hchan]
    exact fun chan hc key hl => ⟨(h.found chan hc key hl).1, hpc (h.found chan hc key hl).2⟩

theorem Entry.of_senders (h : Entry spec p) (hs : p.hub.Senders p'.hub)
    (hchan : p'.chan = p.chan) (hpc : p'.pc = p.pc) : Entry spec p' where
  numbered := h.numbered.of_senders hs
  opened := by
    rw [hchan]
    exact fun chan hc => (h.opened chan hc).trans_le hs.nextChan
  found := by
    rw [hchan, hpc]
    intro chan hc key hl
    rcases hs.builds key chan hl with hold | ⟨heq, -⟩
    · exact h.found chan hc key hold
    · exact absurd heq (h.opened chan hc).ne

/-- Removing the entry drops the sender. -/
theorem Entry.of_unregister (h : Entry spec p)
    (hhub : p'.hub = p.hub.unregisterInFlightBuild spec.builderName spec.buildId)
    (hchan : p'.chan = p.chan) : Entry spec p' where
  numbered := by
    rw [hhub]
    exact h.numbered.of_senders (.unregisterInFlightBuild p.hub _ _)
  opened := by rw [hhub, hchan]; exact h.opened
  found := by
    rw [hhub, hchan]
    intro chan hc key hl
    simp only [Hub.unregisterInFlightBuild, HashMap.lookup_erase_eq] at hl
    split at hl
    · exact absurd hl (by simp)
    · rename_i hne
      exact absurd (h.found chan hc key hl).1 hne

theorem settle_hub (p : PoolBuild) : (p.settle spec).hub
    = p.hub.unregisterInFlightBuild spec.builderName spec.buildId ∧
      (p.settle spec).chan = p.chan := by
  unfold settle
  simp only
  repeat' split
  all_goals exact ⟨rfl, rfl⟩

theorem Entry.step (h : Entry spec p) {e : DispatchEvent} (hstep : p.step spec e = some p') :
    Entry spec p' := by
  have hdead : ∀ {pc}, p.pc = pc → ¬ Listening pc → ∀ pc', Listening p.pc → Listening pc' :=
    fun hpc hnot _ hl => absurd (hpc ▸ hl) hnot
  cases step_moves hstep with
  | fire | seeCancel _ _ _ | drained _ _ => exact h.of_hub rfl rfl id
  | hub a => exact h.of_senders (Builders.Hub.senders_act p.hub a) rfl rfl
  | pushed hpc | pushBroke _ hpc _ | pushCancelled hpc _ | notRegistered hpc | slot hpc
  | slotCancelled hpc _ | pulled hpc | pullBroke _ hpc _ | pullCancelled hpc _ | logged _ hpc
  | notLogged _ hpc =>
    exact h.of_hub rfl rfl (hdead hpc (by simp [Listening]) _)
  | sent _ => exact h.of_hub rfl rfl fun _ => Or.inr (Or.inl rfl)
  | deadline _ _ => exact h.of_hub rfl rfl fun _ => Or.inr (Or.inr rfl)
  | notSent _ => exact h.of_unregister rfl rfl
  | finished _ _ _ _ _ => exact h.of_unregister (settle_hub _).1 (settle_hub _).2
  | closed _ => exact h.of_unregister (settle_hub _).1 (settle_hub _).2
  | silent _ _ _ => exact h.of_unregister (settle_hub _).1 (settle_hub _).2
  | registered hpc =>
    refine ⟨h.numbered.of_senders (.registerInFlightBuild p.hub _ _), ?_, ?_⟩
    · intro chan hc
      rw [← Option.some.inj hc]
      exact Nat.lt_succ_self _
    · intro chan hc key hl
      rw [← Option.some.inj hc] at hl
      simp only [Hub.registerInFlightBuild, Hub.setChan, HashMap.lookup_insert_eq] at hl
      split at hl
      · rename_i hkey
        exact ⟨hkey, Or.inl rfl⟩
      · exact absurd (h.numbered _ _ hl) (Nat.lt_irrefl _)

theorem Run.entry {grace : ℕ} (h : Run spec grace es p) : Entry spec p := by
  induction h with
  | start => exact ⟨by simp [PoolBuild.start, Hub.new, Builders.Dispatching.Numbered],
      by simp [PoolBuild.start], by simp [PoolBuild.start]⟩
  | step _ hstep ih => exact ih.step hstep

/-! ## The result -/

/-- Nobody sends on the channel of the attempt any more. -/
def Removed (p : PoolBuild) : Prop :=
  ∀ chan, p.chan = some chan → ∀ key, p.hub.inFlightBuilds.lookup key ≠ some chan

/-- **The verdict is sound.** Whatever the agent, the operator, the clock, the transfers and the
    other tasks do: a result is evidence for what `Verdict` says, and whoever returns, with a
    result or an error, has removed the entry that `dispatch_build` registered. -/
theorem verdict_sound {grace : ℕ} {o : Option DispatchResult} (h : Run spec grace es p)
    (hpc : p.pc = .returned o) : (∀ r, o = some r → Verdict es r) ∧ Removed p := by
  constructor
  · have hk := h.known.2
    rw [hpc] at hk
    exact hk
  · intro chan hc key hl
    have := (h.entry.found chan hc key hl).2
    rw [hpc] at this
    simp [Listening] at this

/-! ### Concrete attempts -/

/-- One after the other. -/
def runEvents (spec : PoolDispatchSpec) (p : PoolBuild) : List DispatchEvent → Option PoolBuild
  | [] => some p
  | e :: es => (p.step spec e).bind fun p' => runEvents spec p' es

theorem Run.of_events {grace : ℕ} : ∀ {es' : List DispatchEvent} {es : List DispatchEvent}
    {p p' : PoolBuild}, Run spec grace es p → runEvents spec p es' = some p' →
      Run spec grace (es ++ es') p'
  | [], es, p, p', h, he => by
    rw [List.append_nil]
    exact Option.some.inj he ▸ h
  | e :: es', es, p, p', h, he => by
    obtain ⟨p₁, hstep, hrest⟩ := Option.bind_eq_some_iff.mp he
    rw [List.append_cons]
    exact Run.of_events (.step h hstep) hrest

/-- An attempt that returns, given by its events. -/
theorem Run.of_returned (spec : PoolDispatchSpec) (es : List DispatchEvent) (r : DispatchResult)
    (h : (runEvents spec (PoolBuild.start 0) es).map (·.pc) = some (.returned (some r))) :
    ∃ p, Run spec 0 es p ∧ p.pc = .returned (some r) := by
  obtain ⟨p, hp, hpc⟩ := Option.map_eq_some_iff.mp h
  exact ⟨p, Run.of_events .start hp, hpc⟩

/-- A worker's attempt on job 7. -/
def worker : PoolDispatchSpec :=
  { builderName := ⟨"alpha"⟩, buildId := 7, cancellable := true, hasSlot := true }

/-- Push, register, send; the agent reports this; then the rest. -/
def reported (status : BuildOutcomeStatus) (outs : List String) (rest : List DispatchEvent) :
    List DispatchEvent :=
  .pushed .done :: .look true :: .sent true :: .recv (some (.started none)) ::
    .recv (some (.finished status none outs false)) :: rest

/-- A build whose output is pulled. -/
def pulledOne : List DispatchEvent :=
  reported .success ["/nix/store/a"] [.slot true, .pulled .done, .logWritten true]

theorem verdict_sound_pulled :
    ∃ p, Run worker 0 pulledOne p ∧
      p.pc = .returned (some (.outcome ⟨true, none, ["/nix/store/a"], false⟩)) ∧
      Removed p ∧ Received pulledOne .success ["/nix/store/a"] := by
  obtain ⟨p, hrun, hpc⟩ := Run.of_returned worker pulledOne _ rfl
  have hsound := verdict_sound hrun hpc
  exact ⟨p, hrun, hpc, hsound.2, ((hsound.1 _ rfl).success _ rfl rfl).1⟩

/-- **Where the result says less than its docstring.** A `Killed` that nobody asked for is
    `Cancelled`; after an `Abort` for the deadline a broken connection is a failure; success
    without output paths is success with nothing pulled. -/
theorem not_as_documented :
    (∃ es p, Run worker 0 es p ∧ p.pc = .returned (some .cancelled) ∧
      .fire ∉ es ∧ .seeCancel ∉ es ∧ .deadline ∉ es) ∧
    (∃ es p o, Run worker 0 es p ∧ p.pc = .returned (some (.outcome o)) ∧ .recv none ∈ es) ∧
    (∃ es p o, Run worker 0 es p ∧ p.pc = .returned (some (.outcome o)) ∧ o.success = true ∧
      .pulled .done ∉ es) := by
  refine ⟨?_, ?_, ?_⟩
  · obtain ⟨p, hrun, hpc⟩ := Run.of_returned worker (reported .killed [] [.logWritten true]) _ rfl
    exact ⟨_, p, hrun, hpc, by simp [reported], by simp [reported], by simp [reported]⟩
  · obtain ⟨p, hrun, hpc⟩ := Run.of_returned worker
      [.pushed .done, .look true, .sent true, .deadline, .recv none, .logWritten true] _ rfl
    exact ⟨_, p, _, hrun, hpc, by simp⟩
  · obtain ⟨p, hrun, hpc⟩ := Run.of_returned worker (reported .success [] [.logWritten true]) _ rfl
    exact ⟨_, p, _, hrun, hpc, rfl, by simp [reported]⟩

end PoolBuild

/-! ## The attempt inside `Task.step` -/

/-- What `build_one` knows of a result. -/
def DispatchResult.abs : DispatchResult → PoolDispatchResult
  | .outcome o => .outcome o.success
  | .cancelled => .cancelled
  | .transportFailure => .transportFailure

namespace PoolBuild

variable {spec : PoolDispatchSpec} {p p' : PoolBuild}

/-- The task with the attempt of this connection at its wait; `none` once it has returned. -/
def abs (connection : ℕ) (p : PoolBuild) : Option TaskPc :=
  match p.pc with
  | .pushing => some (.pushing connection)
  | .looking | .sending => some (.sending connection)
  | .draining => some (.building connection p.aborted)
  | .grace => some (.grace connection)
  | .acquiring => some (.acquiringForPull connection)
  | .pulling => some (.pulling connection)
  | .writing r => some (.writingLog connection r.abs)
  | .returned _ => none

/-- After the drain the task is where `afterDrain` says. -/
theorem abs_settle (hslot : spec.hasSlot = true) (connection : ℕ) {status : BuildOutcomeStatus}
    (hst : p.finalStatus = some status) :
    (p.settle spec).abs connection
      = some (Task.afterDrain connection status p.outputPaths p.aborted p.timedOut
          p.transportFailed) := by
  unfold settle Task.afterDrain
  simp only [hst, Option.some.injEq, hslot, if_true]
  split
  · rfl
  split
  · rfl
  split
  · rfl
  · rename_i hpull
    unfold abs conclusion
    cases htr : p.transportFailed with
    | true => rfl
    | false => simp [DispatchResult.abs]

/-- Outside success the output paths do not matter. -/
theorem afterDrain_outputPaths (connection : ℕ) {status : BuildOutcomeStatus}
    (h : status ≠ .success) (outs outs' : List String) (aborted timedOut closed : Bool) :
    Task.afterDrain connection status outs aborted timedOut closed
      = Task.afterDrain connection status outs' aborted timedOut closed := by
  simp [Task.afterDrain, h]

/-- A task that stands where the attempt does. -/
def At (connection : ℕ) (p : PoolBuild) (t : Task) : Prop := p.abs connection = some t.pc

/-- What a task does with the attempt's event. -/
def Refined (connection : ℕ) (step : TaskAct → Option (Task × Option RowWrite)) (t : Task)
    (p' : PoolBuild) : Prop :=
  p'.At connection t ∨
  (∃ a t', step a = some (t', none) ∧ p'.At connection t' ∧ t'.excluded = t.excluded ∧
    t'.waitUsed = t.waitUsed) ∨
  (∃ r, p'.pc = .returned (some r) ∧
    step .logWritten = some (t.afterLog connection r.abs, none)) ∨
  (p'.pc = .returned none ∧ step .fail = some ({ t with pc := .returned .err }, none))

theorem refined_to {connection : ℕ} {step : TaskAct → Option (Task × Option RowWrite)}
    {t : Task} (a : TaskAct) (pc : TaskPc) (held : Bool)
    (hstep : step a = some ({ t with pc := pc, held := held }, none))
    (hpc : p'.abs connection = some pc) : Refined connection step t p' :=
  Or.inr (Or.inl ⟨a, { t with pc := pc, held := held }, hstep, hpc, rfl, rfl⟩)

theorem refined_goto {connection : ℕ} {step : TaskAct → Option (Task × Option RowWrite)}
    {t : Task} (a : TaskAct) (pc : TaskPc) (hstep : step a = t.goto pc)
    (hpc : p'.abs connection = some pc) : Refined connection step t p' :=
  refined_to a pc t.held hstep hpc

theorem at_pc {connection : ℕ} {t : Task} {pc : TaskPc} (hat : p.At connection t)
    (h : p.abs connection = some pc) : t.pc = pc :=
  Option.some.inj (hat.symm.trans h)

/-- **Every step of the attempt is a step of the task**, or none. -/
theorem step_refines {grace connection : ℕ} {es : List DispatchEvent} {builderWait : Bool}
    {jobSpec : Eval.JobSpec} {t : Task} {e : DispatchEvent} (hrun : Run spec grace es p)
    (hslot : spec.hasSlot = true) (hat : p.At connection t) (hstep : p.step spec e = some p') :
    Refined connection (t.step builderWait p.fired jobSpec) t p' := by
  have hk := hrun.known.2
  have hpc' : ∀ {pc}, p.abs connection = some pc → t.pc = pc := at_pc hat
  unfold abs at hpc'
  have hcancel : (spec.cancellable && p.fired) = true → p.fired = true := fun hf => by
    simpa using (Bool.and_eq_true _ _ ▸ hf).2
  cases step_moves hstep with
  | fire => exact Or.inl hat
  | hub a => exact Or.inl hat
  | drained ev hpc => exact Or.inl hat
  | registered hpc =>
    rw [hpc] at hpc'
    exact Or.inl (by rw [At, hpc' rfl]; rfl)
  | pushed hpc =>
    rw [hpc] at hpc'
    exact refined_to (.copied .done) (.sending connection) false (by simp [Task.step, hpc' rfl])
      rfl
  | pushBroke outcome hpc hb =>
    rw [hpc] at hpc'
    refine refined_goto (.copied outcome) (.writingLog connection .transportFailure) ?_ rfl
    cases outcome with
    | failed | builderGone => simp [Task.step, hpc' rfl]
    | done | cancelled => exact Bool.noConfusion hb
  | pullBroke outcome hpc hb =>
    rw [hpc] at hpc'
    refine refined_goto (.copied outcome) (.writingLog connection .transportFailure) ?_ rfl
    cases outcome with
    | failed | builderGone => simp [Task.step, hpc' rfl]
    | done | cancelled => exact Bool.noConfusion hb
  | pushCancelled hpc hf | pullCancelled hpc hf =>
    rw [hpc] at hpc'
    exact refined_goto (.copied .cancelled) (.writingLog connection .cancelled)
      (by simp [Task.step, hpc' rfl, hcancel hf]) rfl
  | notRegistered hpc | notSent hpc =>
    rw [hpc] at hpc'
    exact refined_goto (.sent false) (.writingLog connection .transportFailure)
      (by simp [Task.step, hpc' rfl]) rfl
  | sent hpc =>
    rw [hpc] at hpc' hk
    exact refined_goto (.sent true) (.building connection false)
      (by simp [Task.step, hpc' rfl]) (by rw [abs, hk.1])
  | finished status exitCode outs logTruncated hpc =>
    refine refined_goto (.event (some (.finished status outs)))
      (Task.afterDrain connection status outs p.aborted p.timedOut p.transportFailed) ?_
      (abs_settle hslot connection rfl)
    rcases hpc with hpc | hpc
    · rw [hpc] at hpc' hk
      simp [Task.step, hpc' rfl, hk.1, hk.2.1]
    · rw [hpc] at hpc' hk
      simp [Task.step, hpc' rfl, hk.1, hk.2.1, hk.2.2.1]
  | closed hpc =>
    rw [hpc] at hpc' hk
    refine refined_goto (.event none) _ ?_ (abs_settle hslot connection rfl)
    rw [afterDrain_outputPaths connection (by decide) p.outputPaths []]
    simp [Task.step, hpc' rfl, hk.1]
  | silent e hpc he =>
    rw [hpc] at hpc' hk
    have htask : ∀ a, a = .event none ∨ a = .graceOver → t.step builderWait p.fired jobSpec a
        = t.goto (Task.afterDrain connection .killed p.outputPaths p.aborted p.timedOut
            p.transportFailed) := by
      rw [afterDrain_outputPaths connection (by decide) p.outputPaths [], hk.1, hk.2.1, hk.2.2.1]
      rintro a (rfl | rfl) <;> simp [Task.step, hpc' rfl]
    rcases he with rfl | rfl
    · exact refined_goto _ _ (htask _ (Or.inl rfl)) (abs_settle hslot connection rfl)
    · exact refined_goto _ _ (htask _ (Or.inr rfl)) (abs_settle hslot connection rfl)
  | seeCancel hpc hf ha =>
    rw [hpc] at hpc'
    refine refined_goto .seeCancel (.building connection true)
      (by simp [Task.step, hpc' rfl, hf, ha]) (by rw [abs, hpc])
  | deadline hpc ha =>
    rw [hpc] at hpc'
    exact refined_goto .deadline (.grace connection) (by simp [Task.step, hpc' rfl, ha]) rfl
  | slot hpc =>
    rw [hpc] at hpc'
    exact refined_to .slot (.pulling connection) true (by simp [Task.step, hpc' rfl]) rfl
  | slotCancelled hpc hf =>
    rw [hpc] at hpc'
    exact refined_goto .seeCancel (.writingLog connection .cancelled)
      (by simp [Task.step, hpc' rfl, hcancel hf]) rfl
  | pulled hpc =>
    rw [hpc] at hpc' hk
    obtain ⟨-, -, htr, -, hst, -⟩ := hk
    refine refined_goto (.copied .done) (.writingLog connection (.outcome true))
      (by simp [Task.step, hpc' rfl]) ?_
    simp [abs, conclusion, htr, hst, DispatchResult.abs]
  | logged r hpc =>
    rw [hpc] at hpc'
    exact Or.inr (Or.inr (Or.inl ⟨r, rfl, by simp [Task.step, hpc' rfl]⟩))
  | notLogged r hpc =>
    rw [hpc] at hpc'
    exact Or.inr (Or.inr (Or.inr ⟨rfl, by simp [Task.step, hpc' rfl, Task.goto]⟩))

end PoolBuild

end Argunix.Daemon
