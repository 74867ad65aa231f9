import Argunix.Builders.Hub

/-!
# `dispatch_build`: the worker that waits for a build

`dispatch_build` looks the session up, registers a sender under the name and the build id, and
writes `Build` to the session it looked up. These are three critical sections. When the connection
goes, the senders of its name are drained, so that the worker sees its channel close and fails the
build over.

A drain that falls between the look and the registration comes too early. The sender is registered
under a name whose connection is another one by then; the `Build` goes out on the old session,
which may still take it into its queue; and nobody drains the name for the old connection again.
The worker waits for its wall clock.

`no_orphan`: that is the only way. If at every registration the connection is still the one that
was looked up, or a drain of the name is still to come, no sender outlives the connection its
`Build` went to.
-/

set_option autoImplicit false

namespace Argunix.Builders

open Argunix.Lib

/-- One call of `dispatch_build`, with the connection whose session it works with. -/
inductive Call
  | idle
  | looked (name : BuilderName) (buildId : ℤ) (conn : ℕ)
  | opened (name : BuilderName) (buildId : ℤ) (conn chan : ℕ)
  | returned (name : BuilderName) (buildId : ℤ) (conn chan : ℕ)
  | failed
deriving DecidableEq, Repr

/-- The call has registered its sender. -/
def Call.Opened (call : Call) (name : BuilderName) (buildId : ℤ) (conn chan : ℕ) : Prop :=
  call = .opened name buildId conn chan ∨ call = .returned name buildId conn chan

/-- The registry with the calls of `dispatch_build`. -/
structure Dispatching where
  hub : Hub
  calls : ℕ → Call

/-- What the calls do, and what everything else does in between. -/
inductive DispatchAct
  | hub (a : HubAct)
  | look (t : ℕ) (name : BuilderName) (buildId : ℤ)
  | register (t : ℕ)
  | send (t : ℕ) (ok : Bool)

namespace Dispatching

/-- Nobody is connected and nobody calls. -/
def start (grace : ℕ) : Dispatching := { hub := Hub.new grace, calls := fun _ => .idle }

/-- What becomes of a call. -/
def setCall (d : Dispatching) (t : ℕ) (call : Call) : Dispatching :=
  { d with calls := Function.update d.calls t call }

/-- Whether `Handle::data` accepts the message is the session's business. -/
def act (d : Dispatching) : DispatchAct → Dispatching
  | .hub a => { d with hub := d.hub.act a }
  | .look t name buildId =>
    match d.calls t with
    | .idle =>
      match d.hub.current name with
      | some conn => d.setCall t (.looked name buildId conn)
      | none => d.setCall t .failed
    | _ => d
  | .register t =>
    match d.calls t with
    | .looked name buildId conn =>
      { d.setCall t (.opened name buildId conn d.hub.nextChan) with
        hub := d.hub.registerInFlightBuild name buildId }
    | _ => d
  | .send t ok =>
    match d.calls t with
    | .opened name buildId conn chan =>
      if ok then d.setCall t (.returned name buildId conn chan)
      else { d.setCall t .failed with hub := d.hub.unregisterInFlightBuild name buildId }
    | _ => d

/-- One after the other. -/
def run (d : Dispatching) (as : List DispatchAct) : Dispatching := as.foldl act d

/-- At the registration of a sender its connection is still the registered one, or a drain of the
    name is still to come. -/
def Prompt (d : Dispatching) : DispatchAct → Prop
  | .register t =>
    match d.calls t with
    | .looked name _ conn => d.hub.current name = some conn ∨ name ∈ d.hub.drains
    | _ => True
  | _ => True

instance (d : Dispatching) (a : DispatchAct) : Decidable (d.Prompt a) := by
  unfold Prompt
  split
  · split <;> infer_instance
  · infer_instance

/-! ## The sender of a call is found under its key only, and while its connection is there -/

/-- Where the sender of a channel is, and that it is drained when the connection goes. -/
def Tended (h : Hub) (name : BuilderName) (buildId : ℤ) (conn chan : ℕ) : Prop :=
  chan < h.nextChan ∧ ∀ key, h.inFlightBuilds.lookup key = some chan →
    key = (name, buildId) ∧ (h.current name = some conn ∨ name ∈ h.drains)

/-- Channels are numbered in the order in which they are opened. -/
def Numbered (h : Hub) : Prop :=
  ∀ key chan, h.inFlightBuilds.lookup key = some chan → chan < h.nextChan

variable {h h' : Hub} {name : BuilderName} {buildId : ℤ} {conn chan : ℕ}

theorem Numbered.of_senders (hn : Numbered h) (hs : h.Senders h') : Numbered h' := by
  intro key chan hl
  rcases hs.builds key chan hl with hold | ⟨-, hlt⟩
  · exact (hn key chan hold).trans_le hs.nextChan
  · exact hlt

/-- A step that changes neither the connection nor the drains of the name. -/
theorem Tended.of_senders (ht : Tended h name buildId conn chan) (hs : h.Senders h')
    (hcur : h.current name = some conn → h'.current name = some conn ∨ name ∈ h'.drains) :
    Tended h' name buildId conn chan := by
  refine ⟨ht.1.trans_le hs.nextChan, fun key hl => ?_⟩
  rcases hs.builds key chan hl with hold | ⟨heq, -⟩
  · obtain ⟨rfl, hwho⟩ := ht.2 key hold
    refine ⟨rfl, ?_⟩
    rcases hwho with hc | hm
    · exact hcur hc
    · rcases hs.drains name hm with hm | hnone
      · exact Or.inr hm
      · -- the drain has run: the sender is gone
        rw [hnone buildId] at hl
        exact absurd hl (by simp)
  · exact absurd heq ht.1.ne

/-- **Whoever takes the connection away leaves a drain of its name.** -/
theorem Tended.act (ht : Tended h name buildId conn chan) (a : HubAct) :
    Tended (h.act a) name buildId conn chan := by
  refine ht.of_senders (h.senders_act a) fun hc => ?_
  rcases h.current_act a name with hsame | ⟨_, _, -, -, hdrain⟩ | ⟨-, hdrain⟩
  · exact Or.inl (hsame.trans hc)
  · exact Or.inr (hdrain (by rw [hc]; rfl))
  · exact Or.inr hdrain

/-- The sender that is registered now. -/
theorem Tended.registered (hn : Numbered h) (hprompt : h.current name = some conn ∨ name ∈ h.drains) :
    Tended (h.registerInFlightBuild name buildId) name buildId conn h.nextChan := by
  refine ⟨Nat.lt_succ_self _, fun key hl => ?_⟩
  simp only [Hub.registerInFlightBuild] at hl
  rw [HashMap.lookup_insert_eq] at hl
  split at hl
  · rename_i hkey
    exact ⟨hkey, hprompt⟩
  · exact absurd (hn key _ hl) (lt_irrefl _)

/-! ## Runs -/

/-- Every sender that a call has registered is tended. -/
structure Clean (d : Dispatching) : Prop where
  numbered : Numbered d.hub
  tended : ∀ t name buildId conn chan, (d.calls t).Opened name buildId conn chan →
    Tended d.hub name buildId conn chan

namespace Clean

variable {d : Dispatching} {t : ℕ}

theorem start (grace : ℕ) : Clean (start grace) :=
  ⟨fun key chan hl => absurd hl (by simp [Dispatching.start, Hub.new]),
    fun t name buildId conn chan ho => absurd ho (by simp [Dispatching.start, Call.Opened])⟩

/-- A call that moves on without a sender of its own. -/
theorem setCall (hc : d.Clean) {call : Call}
    (hcall : ∀ name buildId conn chan, call.Opened name buildId conn chan →
      Tended d.hub name buildId conn chan) : (d.setCall t call).Clean := by
  refine ⟨hc.numbered, fun t' name buildId conn chan ho => ?_⟩
  by_cases ht : t' = t
  · subst ht
    simp only [Dispatching.setCall, Function.update_self] at ho
    exact hcall name buildId conn chan ho
  · simp only [Dispatching.setCall, Function.update_of_ne ht] at ho
    exact hc.tended t' name buildId conn chan ho

theorem setHub (hc : d.Clean) {h : Hub} (hs : d.hub.Senders h)
    (hcur : ∀ name conn, d.hub.current name = some conn →
      h.current name = some conn ∨ name ∈ h.drains) : Clean { d with hub := h } :=
  ⟨hc.numbered.of_senders hs, fun t name buildId conn chan ho =>
    (hc.tended t name buildId conn chan ho).of_senders hs (hcur name conn)⟩

theorem act (hc : d.Clean) (a : DispatchAct) (hprompt : d.Prompt a) : (d.act a).Clean := by
  cases a with
  | hub a =>
    exact ⟨hc.numbered.of_senders (d.hub.senders_act a), fun t name buildId conn chan ho =>
      (hc.tended t name buildId conn chan ho).act a⟩
  | look t name buildId =>
    simp only [Dispatching.act]
    split
    · split
      · exact hc.setCall fun _ _ _ _ ho => absurd ho (by simp [Call.Opened])
      · exact hc.setCall fun _ _ _ _ ho => absurd ho (by simp [Call.Opened])
    · exact hc
  | register t =>
    simp only [Dispatching.act]
    split
    · rename_i name buildId conn hcall
      have hnow : d.hub.current name = some conn ∨ name ∈ d.hub.drains := by
        simpa only [Prompt, hcall] using hprompt
      have hhub : Clean { d with hub := d.hub.registerInFlightBuild name buildId } :=
        hc.setHub (.registerInFlightBuild d.hub name buildId) fun _ _ hcur => Or.inl hcur
      refine hhub.setCall fun name' buildId' conn' chan' ho => ?_
      obtain ⟨rfl, rfl, rfl, rfl⟩ : name = name' ∧ buildId = buildId' ∧ conn = conn' ∧
          d.hub.nextChan = chan' := by simpa [Call.Opened] using ho
      exact .registered hc.numbered hnow
    · exact hc
  | send t ok =>
    simp only [Dispatching.act]
    split
    · rename_i name buildId conn chan hcall
      split
      · refine hc.setCall fun name' buildId' conn' chan' ho => ?_
        obtain ⟨rfl, rfl, rfl, rfl⟩ : name = name' ∧ buildId = buildId' ∧ conn = conn' ∧
            chan = chan' := by simpa [Call.Opened] using ho
        exact hc.tended t name buildId conn chan (Or.inl hcall)
      · have hhub : Clean { d with hub := d.hub.unregisterInFlightBuild name buildId } :=
          hc.setHub (.unregisterInFlightBuild d.hub name buildId) fun _ _ hcur => Or.inl hcur
        exact hhub.setCall fun _ _ _ _ ho => absurd ho (by simp [Call.Opened])
    · exact hc

theorem run {as : List DispatchAct} : ∀ {d : Dispatching}, d.Clean →
    Steps Dispatching.act Prompt d as → (d.run as).Clean := by
  induction as with
  | nil => exact fun hc _ => hc
  | cons a as ih => exact fun hc hsteps => ih (hc.act a hsteps.1) hsteps.2

end Clean

/-- The worker is not left waiting: no sender of its channel is registered, and if it waits all the
    same it is for a final event that a detached task holds. -/
structure Released (h : Hub) (chan : ℕ) : Prop where
  dropped : ∀ key, h.inFlightBuilds.lookup key ≠ some chan
  poll : h.poll chan = .pending → ∃ f ∈ h.forwards, f.sender = some chan

theorem released_of_dropped (hdropped : ∀ key, h.inFlightBuilds.lookup key ≠ some chan) :
    Released h chan := by
  refine ⟨hdropped, fun hpending => ?_⟩
  unfold Hub.poll at hpending
  split at hpending
  · exact absurd hpending (by simp)
  · split at hpending
    · rename_i hsender
      unfold Hub.hasSender at hsender
      rw [Bool.or_eq_true] at hsender
      rcases hsender with hmap | hclone
      · obtain ⟨c, hc, heq⟩ := List.any_eq_true.mp hmap
        obtain ⟨e, he, rfl⟩ := List.mem_map.mp hc
        have hl : h.inFlightBuilds.lookup e.1 = some e.2 := HashMap.mem_entries_iff.mp he
        exact absurd (of_decide_eq_true heq ▸ hl) (hdropped e.1)
      · obtain ⟨f, hf, heq⟩ := List.any_eq_true.mp hclone
        exact ⟨f, hf, of_decide_eq_true heq⟩
    · exact absurd hpending (by simp)

/-- **No orphaned build waiter.** A `Build` was sent on a connection that is no longer the
    registered one, and the drains of its name have run. -/
theorem no_orphan (grace : ℕ) (as : List DispatchAct)
    (hprompt : Steps act Prompt (start grace) as) (t : ℕ) (name : BuilderName) (buildId : ℤ)
    (conn chan : ℕ) (hok : ((start grace).run as).calls t = .returned name buildId conn chan)
    (hgone : ((start grace).run as).hub.current name ≠ some conn)
    (hdrained : name ∉ ((start grace).run as).hub.drains) :
    Released ((start grace).run as).hub chan := by
  have hclean := (Clean.start grace).run hprompt
  refine released_of_dropped fun key hl => ?_
  rcases ((hclean.tended t name buildId conn chan (Or.inr hok)).2 key hl).2 with hcur | hm
  · exact hgone hcur
  · exact hdrained hm

/-! ## A drain in time and a drain too early -/

/-- An ordinary builder. -/
def muninCaps : BuilderCapabilities := ⟨["x86_64-linux"], "x86_64-linux", [], 2⟩

/-- Build 7 is dispatched on connection 0 and the builder reconnects. The takeover's drain comes
    after the sender has been registered. -/
def drainedInTime : List DispatchAct :=
  [.hub (.hello 0 ⟨"munin"⟩ muninCaps), .look 0 ⟨"munin"⟩ 7, .hub (.hello 1 ⟨"munin"⟩ muninCaps),
    .register 0, .hub (.drain ⟨"munin"⟩), .send 0 true]

theorem no_orphan_drainedInTime : Released ((start 0).run drainedInTime).hub 0 :=
  no_orphan 0 drainedInTime (by decide) 0 ⟨"munin"⟩ 7 0 0 (by decide)
    (by decide) (by decide)

/-- The drain comes between the look and the registration. -/
def drainedTooEarly : List DispatchAct :=
  [.hub (.hello 0 ⟨"munin"⟩ muninCaps), .look 0 ⟨"munin"⟩ 7, .hub (.hello 1 ⟨"munin"⟩ muninCaps),
    .hub (.drain ⟨"munin"⟩), .register 0, .send 0 true]

theorem not_no_orphan :
    ¬ ∀ (grace : ℕ) (as : List DispatchAct) (t : ℕ) (name : BuilderName) (buildId : ℤ)
      (conn chan : ℕ), ((start grace).run as).calls t = .returned name buildId conn chan →
      ((start grace).run as).hub.current name ≠ some conn →
      name ∉ ((start grace).run as).hub.drains → Released ((start grace).run as).hub chan := by
  intro hall
  have hreleased := hall 0 drainedTooEarly 0 ⟨"munin"⟩ 7 0 0 (by decide)
    (by decide) (by decide)
  exact hreleased.dropped (⟨"munin"⟩, 7) (by decide)

end Dispatching

end Argunix.Builders
