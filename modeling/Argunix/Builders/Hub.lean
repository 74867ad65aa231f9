import Argunix.Lib.Trace
import Argunix.Builders.Slots
import Argunix.Daemon.Pool

/-!
# What the SSH server and the dispatcher share

Every connection of a builder has a handler, and all handlers work on one registry. What comes in
on a control channel is addressed by **name**: the liveness clock, the stats ring, the
`Disconnecting` mark, and with a build id added the lifecycle channel of a build. Only the
handler's teardown compares connection ids.

The state is split over several mutexes, and a step here is what one of them protects:

* the entries (`inner`, with `last_activity` as a field of the entry; here it is a second map under
  the same names) and the stats rings;
* `in_flight_builds`, the senders of the lifecycle channels. A takeover, an eviction and a removal
  drop the senders of the name in a second critical section, after the entry has changed: `drains`
  are the names for which that is still to be done. A takeover keeps the lock of the entries over
  its drain; the model lets any step fall between the two, which is more than the code allows;
* each lifecycle channel, a bounded queue with its own lock. `try_send` on a sender that was looked
  up is one step with the look.

A terminal event that finds its channel full is given to a detached task, which looks the sender up
again, keeps a clone of it and waits for room.

What is left out: the `phases` map (read by the watchdog's threshold and the status page), kicks
and aborts of a displaced session (they make its teardown happen, which may happen at any time
here anyway), and the rows that heartbeats touch in the store.
-/

set_option autoImplicit false

namespace Argunix.Builders

open Argunix.Lib
open Argunix.Daemon (BuildOutcomeStatus)

/-- The two `f32` are kept as their bits. -/
structure BuilderStats where
  load1 : UInt32
  cpuPercent : UInt32
  memUsedBytes : UInt64
  memTotalBytes : UInt64
deriving DecidableEq, Repr

/-- A heartbeat's figures with the time they came in. -/
structure StatsSample where
  ts : ℕ
  stats : BuilderStats
deriving DecidableEq, Repr

/-- `STATS_RING_CAPACITY` -/
def statsRingCapacity : ℕ := 60

/-- What a builder reports of a build, on its way to the task that waits for it. -/
inductive BuildLifecycle
  | started (pid : Option ℕ)
  | logChunk (bytes : List UInt8)
  | finished (status : BuildOutcomeStatus) (exitCode : Option ℤ) (outputPaths : List String)
    (logTruncated : Bool)
deriving DecidableEq, Repr

/-- What a builder sends after its `hello`. A chunk carries its bytes as decoded, `none` when the
    base64 is invalid; `serverOnly` are the messages that only the server may send. -/
inductive ControlMessage
  | heartbeat (stats : Option BuilderStats)
  | shutdown
  | buildStarted (buildId : ℤ) (pid : Option ℕ)
  | buildLogChunk (buildId : ℤ) (bytes : Option (List UInt8))
  | buildFinished (buildId : ℤ) (status : BuildOutcomeStatus) (exitCode : Option ℤ)
    (outputPaths : List String) (logTruncated : Bool)
  | serverOnly
deriving DecidableEq, Repr

/-- A lifecycle channel: what is queued, and whether its receiver is still there. -/
structure Chan where
  queue : List BuildLifecycle
  received : Bool
deriving DecidableEq, Repr

/-- `mpsc::channel(4096)` -/
def lifecycleCapacity : ℕ := 4096

/-- The answer of a forward that does not wait. -/
inductive TryForward
  | delivered
  | noReceiver
  | full
deriving DecidableEq, Repr

/-- A detached `forward_build_event`. `sender` is the clone it holds once it has looked. -/
structure Forward where
  name : BuilderName
  buildId : ℤ
  event : BuildLifecycle
  sender : Option ℕ
deriving DecidableEq, Repr

/-- `ConnectionHandler`: the row it has authenticated as, the name it has registered under, and the
    builds that have lost log chunks. -/
structure Handler where
  established : Option BuilderName := none
  registeredName : Option BuilderName := none
  logDrops : List ℤ := []
deriving DecidableEq, Repr

/-- `BuilderRegistry` with all its maps, the lifecycle channels that are out, and the connections. A
    channel is its number here. -/
structure Hub where
  now : ℕ
  reg : BuilderRegistry
  lastActivity : HashMap BuilderName ℕ
  stats : HashMap BuilderName (List StatsSample)
  inFlightBuilds : HashMap (BuilderName × ℤ) ℕ
  drains : List BuilderName
  chans : ℕ → Chan
  nextChan : ℕ
  forwards : List Forward
  handlers : ℕ → Handler

/-- Everything that locks the registry or is in a channel's way. Each is one critical section. -/
inductive HubAct
  | advance (d : ℕ)
  /-- A signed key of an active row. -/
  | authenticate (conn : ℕ) (name : BuilderName)
  /-- A `hello` that was accepted, with the name of its row. -/
  | hello (conn : ℕ) (name : BuilderName) (capabilities : BuilderCapabilities)
  | control (conn : ℕ) (msg : ControlMessage)
  /-- `ConnectionHandler::drop` -/
  | teardown (conn : ℕ)
  | evictDead (name : BuilderName)
  /-- `drain_in_flight_for`, of a takeover, an eviction or a removal -/
  | drain (name : BuilderName)
  | registerInFlightBuild (name : BuilderName) (buildId : ℤ)
  | unregisterInFlightBuild (name : BuilderName) (buildId : ℤ)
  | recv (chan : ℕ)
  | dropReceiver (chan : ℕ)
  | forward (i : ℕ)
  | incInFlight (name : BuilderName)
  | decInFlight (name : BuilderName)

namespace Hub

/-- A registry nobody has connected to. -/
def new (grace : ℕ) : Hub :=
  { now := 0, reg := BuilderRegistry.new.setSpillGrace grace, lastActivity := ∅, stats := ∅
    inFlightBuilds := ∅, drains := [], chans := fun _ => ⟨[], false⟩, nextChan := 0
    forwards := [], handlers := fun _ => {} }

/-- The connection that is registered under a name: whose session a lookup by name yields. -/
def current (h : Hub) (name : BuilderName) : Option ℕ :=
  (h.reg.inner.lookup name).map (·.connectionId)

/-! ## The registry's calls -/

/-- `touch_activity`: only a registered builder has a clock. -/
def touchActivity (h : Hub) (name : BuilderName) : Hub :=
  { h with lastActivity := h.lastActivity.modify name fun _ => h.now }

/-- `push_stats`: the ring drops its oldest sample when it is full. -/
def pushStats (h : Hub) (name : BuilderName) (stats : BuilderStats) : Hub :=
  let ring := (h.stats.lookup name).getD []
  let ring := if ring.length = statsRingCapacity then ring.tail else ring
  { h with stats := h.stats.insert name (ring ++ [⟨h.now, stats⟩]) }

/-- The entry is replaced, its ring is wiped, and the builds of a displaced one are to be
    drained. -/
def register (h : Hub) (conn : ℕ) (name : BuilderName) (capabilities : BuilderCapabilities) :
    Hub :=
  { h with
    reg := h.reg.register h.now name
      { capabilities := capabilities, state := .active, connectionId := conn }
    lastActivity := h.lastActivity.insert name h.now
    stats := h.stats.erase name
    drains := if (h.reg.inner.lookup name).isSome then name :: h.drains else h.drains }

/-- What `evict_dead` and `remove_if_matches` do once they have found the entry. -/
def remove (h : Hub) (name : BuilderName) (c : ConnectedBuilder) : Hub :=
  { h with
    reg := h.reg.remove h.now name c
    lastActivity := h.lastActivity.erase name
    stats := h.stats.erase name
    drains := name :: h.drains }

/-- `evict_dead`: whoever is registered under the name is removed. -/
def evictDead (h : Hub) (name : BuilderName) : Hub :=
  match h.reg.inner.lookup name with
  | some c => h.remove name c
  | none => h

/-- `remove_if_matches`: the entry is removed if it is still that of the connection. -/
def removeIfMatches (h : Hub) (name : BuilderName) (conn : ℕ) : Hub :=
  match h.reg.inner.lookup name with
  | some c => if c.connectionId = conn then h.remove name c else h
  | none => h

/-- `mark_disconnecting` -/
def markDisconnecting (h : Hub) (name : BuilderName) : Hub :=
  { h with reg := h.reg.markDisconnecting name }

/-- `drain_in_flight_for`: every sender of the name is dropped. -/
def drainInFlightFor (h : Hub) (name : BuilderName) : Hub :=
  { h with
    inFlightBuilds := h.inFlightBuilds.retain fun key _ => key.1 ≠ name
    drains := h.drains.erase name }

/-- What becomes of a channel. -/
def setChan (h : Hub) (chan : ℕ) (c : Chan) : Hub :=
  { h with chans := Function.update h.chans chan c }

/-- A new channel, under the name and the build id. A sender that was there is dropped. -/
def registerInFlightBuild (h : Hub) (name : BuilderName) (buildId : ℤ) : Hub :=
  { h.setChan h.nextChan ⟨[], true⟩ with
    inFlightBuilds := h.inFlightBuilds.insert (name, buildId) h.nextChan
    nextChan := h.nextChan + 1 }

/-- `unregister_in_flight_build`: the sender is dropped. -/
def unregisterInFlightBuild (h : Hub) (name : BuilderName) (buildId : ℤ) : Hub :=
  { h with inFlightBuilds := h.inFlightBuilds.erase (name, buildId) }

/-- `Sender::try_send` -/
def trySend (h : Hub) (chan : ℕ) (event : BuildLifecycle) : Hub × TryForward :=
  if (h.chans chan).received = false then (h, .noReceiver)
  else if lifecycleCapacity ≤ (h.chans chan).queue.length then (h, .full)
  else
    (h.setChan chan { h.chans chan with queue := (h.chans chan).queue ++ [event] }, .delivered)

/-- `try_forward_build_event`: the sender is looked up by name and build id. -/
def tryForwardBuildEvent (h : Hub) (name : BuilderName) (buildId : ℤ) (event : BuildLifecycle) :
    Hub × TryForward :=
  match h.inFlightBuilds.lookup (name, buildId) with
  | some chan => h.trySend chan event
  | none => (h, .noReceiver)

/-! ## The handler of a connection -/

/-- What becomes of a connection's handler. -/
def setHandler (h : Hub) (conn : ℕ) (handler : Handler) : Hub :=
  { h with handlers := Function.update h.handlers conn handler }

/-- The liveness clock is refreshed before the message is looked at. -/
def touch (h : Hub) (conn : ℕ) : Hub :=
  match (h.handlers conn).registeredName with
  | some name => h.touchActivity name
  | none => h

/-- The second component says that the event was dropped because the channel was full. -/
def forwardNonblocking (h : Hub) (conn : ℕ) (buildId : ℤ) (event : BuildLifecycle) : Hub × Bool :=
  match (h.handlers conn).registeredName with
  | none => (h, false)
  | some name =>
    let r := h.tryForwardBuildEvent name buildId event
    (r.1, r.2 = .full)

/-- `forward_finished`: a verdict that finds the channel full is left to a detached task. -/
def forwardFinished (h : Hub) (conn : ℕ) (buildId : ℤ) (event : BuildLifecycle) : Hub :=
  match (h.handlers conn).registeredName with
  | none => h
  | some name =>
    match h.tryForwardBuildEvent name buildId event with
    | (h, .full) => { h with forwards := h.forwards ++ [⟨name, buildId, event, none⟩] }
    | (h, _) => h

/-- A log chunk of the build was dropped. -/
def noteDrop (h : Hub) (conn : ℕ) (buildId : ℤ) : Hub :=
  h.setHandler conn
    { h.handlers conn with logDrops := (h.handlers conn).logDrops.insert buildId }

/-- The verdict has come: the build's mark is taken back. -/
def forgetDrop (h : Hub) (conn : ℕ) (buildId : ℤ) : Hub :=
  h.setHandler conn
    { h.handlers conn with logDrops := (h.handlers conn).logDrops.erase buildId }

/-- The `match` of `handle_control`, `hello` apart. -/
def handleMessage (h : Hub) (conn : ℕ) : ControlMessage → Hub
  | .heartbeat stats =>
    match (h.handlers conn).established, stats with
    | some name, some stats => h.pushStats name stats
    | _, _ => h
  | .shutdown =>
    match (h.handlers conn).established with
    | some name => h.markDisconnecting name
    | none => h
  | .serverOnly => h
  | .buildStarted buildId pid => (h.forwardNonblocking conn buildId (.started pid)).1
  | .buildLogChunk buildId (some bytes) =>
    match h.forwardNonblocking conn buildId (.logChunk bytes) with
    | (h, true) => h.noteDrop conn buildId
    | (h, false) => h
  | .buildLogChunk _ none => h
  | .buildFinished buildId status exitCode outputPaths logTruncated =>
    let dropped : Bool := buildId ∈ (h.handlers conn).logDrops
    (h.forgetDrop conn buildId).forwardFinished conn buildId
      (.finished status exitCode outputPaths (logTruncated || dropped))

/-- `handle_control` -/
def handleControl (h : Hub) (conn : ℕ) (msg : ControlMessage) : Hub :=
  (h.touch conn).handleMessage conn msg

/-- The end of an accepted `hello`, from `register` on. -/
def acceptHello (h : Hub) (conn : ℕ) (name : BuilderName) (capabilities : BuilderCapabilities) :
    Hub :=
  let h := (h.touch conn).register conn name capabilities
  h.setHandler conn
    { h.handlers conn with established := some name, registeredName := some name }

/-- Authentication is over before a channel is opened. -/
def authenticate (h : Hub) (conn : ℕ) (name : BuilderName) : Hub :=
  if (h.handlers conn).registeredName.isSome then h
  else h.setHandler conn { h.handlers conn with established := some name }

/-- `ConnectionHandler::drop` -/
def teardown (h : Hub) (conn : ℕ) : Hub :=
  match (h.handlers conn).registeredName with
  | some name => (h.setHandler conn {}).removeIfMatches name conn
  | none => h.setHandler conn {}

/-! ## The receivers and the detached tasks -/

/-- What a poll of a receiver comes to. -/
inductive Recv
  | item (event : BuildLifecycle)
  | closed
  | pending
deriving DecidableEq, Repr

/-- Somebody holds a sender of the channel. -/
def hasSender (h : Hub) (chan : ℕ) : Bool :=
  h.inFlightBuilds.values.any (· = chan) || h.forwards.any fun f => f.sender = some chan

/-- `Receiver::recv`, as one poll sees it -/
def poll (h : Hub) (chan : ℕ) : Recv :=
  match (h.chans chan).queue with
  | event :: _ => .item event
  | [] => if h.hasSender chan then .pending else .closed

/-- The receiver takes the first event. -/
def recv (h : Hub) (chan : ℕ) : Hub :=
  h.setChan chan { h.chans chan with queue := (h.chans chan).queue.tail }

/-- The task that waited is gone, and what was queued with it. -/
def dropReceiver (h : Hub) (chan : ℕ) : Hub :=
  h.setChan chan ⟨[], false⟩

/-- One step of the `i`-th detached task: look the sender up, then send or wait for room. -/
def forward (h : Hub) (i : ℕ) : Hub :=
  match h.forwards[i]? with
  | none => h
  | some f =>
    match f.sender with
    | none =>
      match h.inFlightBuilds.lookup (f.name, f.buildId) with
      | none => { h with forwards := h.forwards.eraseIdx i }
      | some chan => { h with forwards := h.forwards.set i { f with sender := some chan } }
    | some chan =>
      match h.trySend chan f.event with
      | (h, .full) => h
      | (h, _) => { h with forwards := h.forwards.eraseIdx i }

/-- One critical section. -/
def act (h : Hub) : HubAct → Hub
  | .advance d => { h with now := h.now + d }
  | .authenticate conn name => h.authenticate conn name
  | .hello conn name capabilities => h.acceptHello conn name capabilities
  | .control conn msg => h.handleControl conn msg
  | .teardown conn => h.teardown conn
  | .evictDead name => h.evictDead name
  | .drain name => if name ∈ h.drains then h.drainInFlightFor name else h
  | .registerInFlightBuild name buildId => h.registerInFlightBuild name buildId
  | .unregisterInFlightBuild name buildId => h.unregisterInFlightBuild name buildId
  | .recv chan => h.recv chan
  | .dropReceiver chan => h.dropReceiver chan
  | .forward i => h.forward i
  | .incInFlight name => { h with reg := h.reg.incInFlight name }
  | .decInFlight name => { h with reg := h.reg.decInFlight name }

/-- One after the other. -/
def run (h : Hub) (as : List HubAct) : Hub := as.foldl act h

/-! ## What a step does to the registered connections and to the senders -/

/-- Connections, senders and pending drains are as before. -/
structure Quiet (h h' : Hub) : Prop where
  current : ∀ name, h'.current name = h.current name
  drains : h'.drains = h.drains
  builds : h'.inFlightBuilds = h.inFlightBuilds
  nextChan : h'.nextChan = h.nextChan

namespace Quiet

variable {h h' h'' : Hub}

theorem refl (h : Hub) : Quiet h h := ⟨fun _ => rfl, rfl, rfl, rfl⟩

theorem trans (h₁ : Quiet h h') (h₂ : Quiet h' h'') : Quiet h h'' :=
  ⟨fun name => (h₂.current name).trans (h₁.current name), h₂.drains.trans h₁.drains,
    h₂.builds.trans h₁.builds, h₂.nextChan.trans h₁.nextChan⟩

theorem touch (h : Hub) (conn : ℕ) : Quiet h (h.touch conn) := by
  unfold Hub.touch
  split
  · exact ⟨fun _ => rfl, rfl, rfl, rfl⟩
  · exact refl h

theorem trySend (h : Hub) (chan : ℕ) (event : BuildLifecycle) :
    Quiet h (h.trySend chan event).1 := by
  unfold Hub.trySend
  split
  · exact refl h
  · split
    · exact refl h
    · exact ⟨fun _ => rfl, rfl, rfl, rfl⟩

theorem tryForward (h : Hub) (name : BuilderName) (buildId : ℤ) (event : BuildLifecycle) :
    Quiet h (h.tryForwardBuildEvent name buildId event).1 := by
  unfold Hub.tryForwardBuildEvent
  split
  · exact trySend h _ event
  · exact refl h

theorem forwardNonblocking (h : Hub) (conn : ℕ) (buildId : ℤ) (event : BuildLifecycle) :
    Quiet h (h.forwardNonblocking conn buildId event).1 := by
  unfold Hub.forwardNonblocking
  split
  · exact refl h
  · exact tryForward h _ buildId event

theorem forwardFinished (h : Hub) (conn : ℕ) (buildId : ℤ) (event : BuildLifecycle) :
    Quiet h (h.forwardFinished conn buildId event) := by
  unfold Hub.forwardFinished
  split
  · exact refl h
  · rename_i name _
    have hsent := tryForward h name buildId event
    split
    · rename_i h₁ heq
      rw [heq] at hsent
      exact hsent.trans ⟨fun _ => rfl, rfl, rfl, rfl⟩
    · rename_i h₁ _ _ heq
      rw [heq] at hsent
      exact hsent

theorem markDisconnecting (h : Hub) (name : BuilderName) :
    Quiet h (h.markDisconnecting name) := by
  refine ⟨fun n => ?_, rfl, rfl, rfl⟩
  exact HashMap.map_modify_of_view (m := h.reg.inner)
    (f := fun c => { c with state := .disconnecting }) (g := (·.connectionId)) (fun _ => rfl) name n

theorem handleMessage (h : Hub) (conn : ℕ) (msg : ControlMessage) :
    Quiet h (h.handleMessage conn msg) := by
  cases msg with
  | heartbeat stats =>
    simp only [Hub.handleMessage]
    split
    · exact ⟨fun _ => rfl, rfl, rfl, rfl⟩
    · exact refl h
  | shutdown =>
    simp only [Hub.handleMessage]
    split
    · exact markDisconnecting h _
    · exact refl h
  | serverOnly => exact refl h
  | buildStarted buildId pid => exact forwardNonblocking h conn buildId _
  | buildLogChunk buildId bytes =>
    cases bytes with
    | none => exact refl h
    | some bytes =>
      have hsent := forwardNonblocking h conn buildId (.logChunk bytes)
      simp only [Hub.handleMessage]
      split
      · rename_i h₁ heq
        rw [heq] at hsent
        exact hsent.trans ⟨fun _ => rfl, rfl, rfl, rfl⟩
      · rename_i h₁ heq
        rw [heq] at hsent
        exact hsent
  | buildFinished buildId status exitCode outputPaths logTruncated =>
    have hforget : Quiet h (h.forgetDrop conn buildId) := ⟨fun _ => rfl, rfl, rfl, rfl⟩
    exact hforget.trans (forwardFinished _ conn buildId _)

theorem handleControl (h : Hub) (conn : ℕ) (msg : ControlMessage) :
    Quiet h (h.handleControl conn msg) :=
  (touch h conn).trans (handleMessage _ conn msg)

theorem forward (h : Hub) (i : ℕ) : Quiet h (h.forward i) := by
  unfold Hub.forward
  split
  · exact refl h
  · rename_i f _
    split
    · split
      · exact ⟨fun _ => rfl, rfl, rfl, rfl⟩
      · exact ⟨fun _ => rfl, rfl, rfl, rfl⟩
    · rename_i chan _
      have hsent := trySend h chan f.event
      split
      · rename_i h₁ heq
        rw [heq] at hsent
        exact hsent
      · rename_i h₁ _ _ heq
        rw [heq] at hsent
        exact hsent.trans ⟨fun _ => rfl, rfl, rfl, rfl⟩

end Quiet

/-- A removal takes the entry and leaves its senders to be drained. -/
theorem current_remove (h : Hub) (name : BuilderName) (c : ConnectedBuilder) (n : BuilderName) :
    (h.remove name c).current n = if n = name then none else h.current n := by
  unfold current remove
  rw [(Pool.removes_remove h.reg h.now name c).inner n]
  split <;> rfl

theorem current_remove_cases (h : Hub) (name : BuilderName) (c : ConnectedBuilder)
    (n : BuilderName) : (h.remove name c).current n = h.current n ∨
      ((h.remove name c).current n = none ∧ n ∈ (h.remove name c).drains) := by
  rw [current_remove]
  by_cases hn : n = name
  · subst hn
    exact Or.inr ⟨if_pos rfl, List.mem_cons_self⟩
  · exact Or.inl (if_neg hn)

theorem current_acceptHello (h : Hub) (conn : ℕ) (name : BuilderName)
    (capabilities : BuilderCapabilities) (n : BuilderName) :
    (h.acceptHello conn name capabilities).current n =
      if n = name then some conn else h.current n := by
  have htouch := (Quiet.touch h conn).current n
  unfold current at htouch ⊢
  simp only [acceptHello, setHandler, register]
  rw [Pool.lookup_register]
  split
  · rfl
  · exact htouch

/-- **What one step can do to the connection of a name**: nothing, replace it, or remove it. A
    connection that goes leaves a drain of its name behind. -/
theorem current_act (h : Hub) (a : HubAct) (n : BuilderName) :
    ((h.act a).current n = h.current n) ∨
      (∃ conn capabilities, a = .hello conn n capabilities ∧ (h.act a).current n = some conn ∧
        ((h.current n).isSome → n ∈ (h.act a).drains)) ∨
      ((h.act a).current n = none ∧ n ∈ (h.act a).drains) := by
  cases a with
  | advance d => exact Or.inl rfl
  | authenticate conn name =>
    refine Or.inl ?_
    simp only [act, authenticate]
    split <;> rfl
  | hello conn name capabilities =>
    have hcur := current_acceptHello h conn name capabilities n
    by_cases hn : n = name
    · subst hn
      refine Or.inr (Or.inl ⟨conn, capabilities, rfl, by rw [if_pos rfl] at hcur; exact hcur, ?_⟩)
      intro hsome
      have htouch := (Quiet.touch h conn).current n
      simp only [act, acceptHello, setHandler, register]
      rw [if_pos]
      · exact List.mem_cons_self
      · rw [← htouch] at hsome
        simpa [current] using hsome
    · rw [if_neg hn] at hcur
      exact Or.inl hcur
  | control conn msg => exact Or.inl ((Quiet.handleControl h conn msg).current n)
  | teardown conn =>
    simp only [act, teardown]
    split
    · rename_i name _
      unfold removeIfMatches
      split
      · rename_i c hl
        split
        · exact (current_remove_cases (h.setHandler conn {}) name c n).imp_right Or.inr
        · exact Or.inl rfl
      · exact Or.inl rfl
    · exact Or.inl rfl
  | evictDead name =>
    simp only [act, evictDead]
    split
    · rename_i c hl
      exact (current_remove_cases h name c n).imp_right Or.inr
    · exact Or.inl rfl
  | drain name =>
    refine Or.inl ?_
    simp only [act]
    split <;> rfl
  | registerInFlightBuild name buildId => exact Or.inl rfl
  | unregisterInFlightBuild name buildId => exact Or.inl rfl
  | recv chan => exact Or.inl rfl
  | dropReceiver chan => exact Or.inl rfl
  | forward i => exact Or.inl ((Quiet.forward h i).current n)
  | incInFlight name => exact Or.inl rfl
  | decInFlight name => exact Or.inl rfl

/-- What a step does to the senders and the pending drains. -/
structure Senders (h h' : Hub) : Prop where
  /-- A sender was there before, or is the one of a new channel. -/
  builds : ∀ key chan, h'.inFlightBuilds.lookup key = some chan →
    h.inFlightBuilds.lookup key = some chan ∨ (chan = h.nextChan ∧ chan < h'.nextChan)
  /-- A drain is still pending, or the name has no sender left. -/
  drains : ∀ name ∈ h.drains, name ∈ h'.drains ∨
    ∀ buildId, h'.inFlightBuilds.lookup (name, buildId) = none
  nextChan : h.nextChan ≤ h'.nextChan

namespace Senders

variable {h h' : Hub}

theorem of_eq (hbuilds : h'.inFlightBuilds = h.inFlightBuilds)
    (hdrains : ∀ name ∈ h.drains, name ∈ h'.drains) (hnext : h'.nextChan = h.nextChan) :
    Senders h h' :=
  ⟨fun _ _ hl => Or.inl (hbuilds ▸ hl), fun name hm => Or.inl (hdrains name hm), hnext.ge⟩

theorem of_quiet (hq : Quiet h h') : Senders h h' :=
  of_eq hq.builds (fun name hm => by rw [hq.drains]; exact hm) hq.nextChan

theorem remove (h : Hub) (name : BuilderName) (c : ConnectedBuilder) :
    Senders h (h.remove name c) :=
  of_eq rfl (fun _ hm => List.mem_cons_of_mem name hm) rfl

theorem acceptHello (h : Hub) (conn : ℕ) (name : BuilderName)
    (capabilities : BuilderCapabilities) : Senders h (h.acceptHello conn name capabilities) := by
  have hq := Quiet.touch h conn
  refine of_eq hq.builds (fun n hm => ?_) hq.nextChan
  simp only [Hub.acceptHello, setHandler, register]
  rw [hq.drains]
  split
  · exact List.mem_cons_of_mem name hm
  · exact hm

theorem drainInFlightFor (h : Hub) (name : BuilderName) : Senders h (h.drainInFlightFor name) := by
  refine ⟨fun key chan hl => ?_, fun n hm => ?_, le_rfl⟩
  · simp only [Hub.drainInFlightFor] at hl
    rw [HashMap.lookup_retain, Option.filter_eq_some_iff] at hl
    exact Or.inl hl.1
  · by_cases hn : n = name
    · subst hn
      refine Or.inr fun buildId => ?_
      simp only [Hub.drainInFlightFor]
      rw [HashMap.lookup_retain]
      cases h.inFlightBuilds.lookup (n, buildId) <;> simp
    · exact Or.inl ((List.mem_erase_of_ne hn).mpr hm)

theorem registerInFlightBuild (h : Hub) (name : BuilderName) (buildId : ℤ) :
    Senders h (h.registerInFlightBuild name buildId) := by
  refine ⟨fun key chan hl => ?_, fun n hm => Or.inl hm, Nat.le_succ _⟩
  simp only [Hub.registerInFlightBuild] at hl
  rw [HashMap.lookup_insert_eq] at hl
  split at hl
  · obtain rfl := Option.some.inj hl
    exact Or.inr ⟨rfl, Nat.lt_succ_self _⟩
  · exact Or.inl hl

theorem unregisterInFlightBuild (h : Hub) (name : BuilderName) (buildId : ℤ) :
    Senders h (h.unregisterInFlightBuild name buildId) := by
  refine ⟨fun key chan hl => ?_, fun n hm => Or.inl hm, le_rfl⟩
  simp only [Hub.unregisterInFlightBuild] at hl
  rw [HashMap.lookup_erase_eq] at hl
  split at hl
  · exact absurd hl (by simp)
  · exact Or.inl hl

end Senders

theorem senders_act (h : Hub) (a : HubAct) : Senders h (h.act a) := by
  have hrefl : Senders h h := .of_quiet (.refl h)
  cases a with
  | advance d => exact .of_eq rfl (fun _ hm => hm) rfl
  | authenticate conn name =>
    simp only [act, authenticate]
    split
    · exact hrefl
    · exact .of_eq rfl (fun _ hm => hm) rfl
  | hello conn name capabilities => exact .acceptHello h conn name capabilities
  | control conn msg => exact .of_quiet (.handleControl h conn msg)
  | teardown conn =>
    simp only [act, teardown, removeIfMatches]
    split
    · split
      · split
        · exact .of_eq rfl (fun _ hm => List.mem_cons_of_mem _ hm) rfl
        · exact .of_eq rfl (fun _ hm => hm) rfl
      · exact .of_eq rfl (fun _ hm => hm) rfl
    · exact .of_eq rfl (fun _ hm => hm) rfl
  | evictDead name =>
    simp only [act, evictDead]
    split
    · exact .remove h name _
    · exact hrefl
  | drain name =>
    simp only [act]
    split
    · exact .drainInFlightFor h name
    · exact hrefl
  | registerInFlightBuild name buildId => exact .registerInFlightBuild h name buildId
  | unregisterInFlightBuild name buildId => exact .unregisterInFlightBuild h name buildId
  | recv chan => exact .of_eq rfl (fun _ hm => hm) rfl
  | dropReceiver chan => exact .of_eq rfl (fun _ hm => hm) rfl
  | forward i => exact .of_quiet (.forward h i)
  | incInFlight name => exact .of_eq rfl (fun _ hm => hm) rfl
  | decInFlight name => exact .of_eq rfl (fun _ hm => hm) rfl

end Hub

end Argunix.Builders
