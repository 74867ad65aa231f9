import Argunix.Builders.Hub

/-!
# A displaced connection and its successor

A builder that reconnects takes its name over while the session of the old connection may still be
alive. Its handler is then a stranger under that name: whatever it still receives is addressed by
name, and so lands on the successor. A `shutdown` of the old session marks the new one
`Disconnecting`, its heartbeats keep the new one alive and fill its ring, its build events go to
the channels of the new one's builds. Only the teardown compares connection ids.

`displaced_cannot_affect` compares two runs, one in which the old connection still speaks and one
in which it does not. They agree on everything but the old handler itself, provided each late
message is `Idle` where it arrives: the successor's clock has just been set, a heartbeat has no
stats, a `shutdown` finds the entry gone or already marked, and a build event finds no channel it
could be put into.
-/

set_option autoImplicit false

namespace Argunix.Builders

open Argunix.Lib

/-- The connection an action comes from. -/
def HubAct.conn? : HubAct → Option ℕ
  | .authenticate conn _ | .hello conn _ _ | .control conn _ | .teardown conn => some conn
  | _ => none

/-- What a connection still does once it is displaced: late messages, and its teardown. -/
def HubAct.lateOf (conn : ℕ) : HubAct → Bool
  | .control c _ | .teardown c => c = conn
  | _ => false

namespace Hub

/-! ## Nobody else looks at a connection's handler -/

section Frame

variable {h : Hub} {c conn : ℕ} {x : Handler}

theorem handlers_setHandler (hne : conn ≠ c) : (h.setHandler c x).handlers conn = h.handlers conn :=
  Function.update_of_ne hne _ _

theorem setHandler_comm (hne : conn ≠ c) (handler : Handler) :
    (h.setHandler c x).setHandler conn handler = (h.setHandler conn handler).setHandler c x := by
  unfold setHandler
  simp only [Function.update_comm hne]

theorem setHandler_touch (hne : conn ≠ c) :
    (h.setHandler c x).touch conn = (h.touch conn).setHandler c x := by
  unfold touch
  rw [handlers_setHandler hne]
  split <;> rfl

theorem setHandler_trySend (chan : ℕ) (event : BuildLifecycle) :
    (h.setHandler c x).trySend chan event =
      ((h.trySend chan event).1.setHandler c x, (h.trySend chan event).2) := by
  have hchans : (h.setHandler c x).chans = h.chans := rfl
  unfold trySend
  rw [hchans]
  split
  · rfl
  · split <;> rfl

theorem setHandler_tryForward (name : BuilderName) (buildId : ℤ) (event : BuildLifecycle) :
    (h.setHandler c x).tryForwardBuildEvent name buildId event =
      ((h.tryForwardBuildEvent name buildId event).1.setHandler c x,
        (h.tryForwardBuildEvent name buildId event).2) := by
  have hbuilds : (h.setHandler c x).inFlightBuilds = h.inFlightBuilds := rfl
  unfold tryForwardBuildEvent
  rw [hbuilds]
  split
  · exact setHandler_trySend _ event
  · rfl

theorem setHandler_forwardNonblocking (hne : conn ≠ c) (buildId : ℤ) (event : BuildLifecycle) :
    (h.setHandler c x).forwardNonblocking conn buildId event =
      ((h.forwardNonblocking conn buildId event).1.setHandler c x,
        (h.forwardNonblocking conn buildId event).2) := by
  unfold forwardNonblocking
  rw [handlers_setHandler hne]
  split
  · rfl
  · simp only [setHandler_tryForward]

theorem setHandler_forwardFinished (hne : conn ≠ c) (buildId : ℤ) (event : BuildLifecycle) :
    (h.setHandler c x).forwardFinished conn buildId event =
      (h.forwardFinished conn buildId event).setHandler c x := by
  unfold forwardFinished
  rw [handlers_setHandler hne]
  cases hreg : (h.handlers conn).registeredName with
  | none => rfl
  | some name =>
    simp only [setHandler_tryForward]
    cases htry : h.tryForwardBuildEvent name buildId event with
    | mk h₁ r => cases r <;> rfl

theorem setHandler_handleMessage (hne : conn ≠ c) (msg : ControlMessage) :
    (h.setHandler c x).handleMessage conn msg = (h.handleMessage conn msg).setHandler c x := by
  cases msg with
  | heartbeat stats =>
    simp only [handleMessage, handlers_setHandler hne]
    split <;> rfl
  | shutdown =>
    simp only [handleMessage, handlers_setHandler hne]
    split <;> rfl
  | serverOnly => rfl
  | buildStarted buildId pid =>
    simp only [handleMessage, setHandler_forwardNonblocking hne]
  | buildLogChunk buildId bytes =>
    cases bytes with
    | none => rfl
    | some bytes =>
      simp only [handleMessage, setHandler_forwardNonblocking hne]
      cases hsent : h.forwardNonblocking conn buildId (.logChunk bytes) with
      | mk h₁ full =>
        cases full with
        | false => rfl
        | true =>
          simp only [noteDrop, handlers_setHandler hne]
          exact setHandler_comm hne _
  | buildFinished buildId status exitCode outputPaths logTruncated =>
    simp only [handleMessage, forgetDrop, handlers_setHandler hne, setHandler_comm hne]
    exact setHandler_forwardFinished hne buildId _

theorem setHandler_removeIfMatches (name : BuilderName) (id : ℕ) :
    (h.setHandler c x).removeIfMatches name id = (h.removeIfMatches name id).setHandler c x := by
  have hreg : (h.setHandler c x).reg = h.reg := rfl
  unfold removeIfMatches
  rw [hreg]
  split
  · split <;> rfl
  · rfl

theorem setHandler_forward (i : ℕ) : (h.setHandler c x).forward i = (h.forward i).setHandler c x := by
  have hforwards : (h.setHandler c x).forwards = h.forwards := rfl
  have hbuilds : (h.setHandler c x).inFlightBuilds = h.inFlightBuilds := rfl
  unfold forward
  rw [hforwards, hbuilds]
  split
  · rfl
  · rename_i f _
    split
    · split <;> rfl
    · rename_i chan _
      rw [setHandler_trySend]
      cases hsent : h.trySend chan f.event with
      | mk h₁ r => cases r <;> rfl

/-- **A connection's handler is its own**: no step of anybody else reads or writes it. -/
theorem setHandler_act (a : HubAct) (ha : a.conn? ≠ some c) :
    (h.setHandler c x).act a = (h.act a).setHandler c x := by
  cases a with
  | advance d => rfl
  | authenticate conn name =>
    have hne : conn ≠ c := fun heq => ha (congrArg some heq)
    simp only [act, authenticate, handlers_setHandler hne]
    split
    · rfl
    · exact setHandler_comm hne _
  | hello conn name capabilities =>
    have hne : conn ≠ c := fun heq => ha (congrArg some heq)
    simp only [act, acceptHello, setHandler_touch hne]
    have hregister : ((h.touch conn).setHandler c x).register conn name capabilities =
      ((h.touch conn).register conn name capabilities).setHandler c x := rfl
    rw [hregister, handlers_setHandler hne]
    exact setHandler_comm hne _
  | control conn msg =>
    have hne : conn ≠ c := fun heq => ha (congrArg some heq)
    simp only [act, handleControl, setHandler_touch hne]
    exact setHandler_handleMessage hne msg
  | teardown conn =>
    have hne : conn ≠ c := fun heq => ha (congrArg some heq)
    simp only [act, teardown, handlers_setHandler hne, setHandler_comm hne]
    split
    · exact setHandler_removeIfMatches _ conn
    · rfl
  | evictDead name =>
    have hreg : (h.setHandler c x).reg = h.reg := rfl
    simp only [act, evictDead, hreg]
    split <;> rfl
  | drain name =>
    have hdrains : (h.setHandler c x).drains = h.drains := rfl
    simp only [act, hdrains]
    split <;> rfl
  | registerInFlightBuild name buildId => rfl
  | unregisterInFlightBuild name buildId => rfl
  | recv chan => rfl
  | dropReceiver chan => rfl
  | forward i => exact setHandler_forward i
  | incInFlight name => rfl
  | decInFlight name => rfl

theorem setHandler_self : h.setHandler c (h.handlers c) = h := by
  unfold setHandler
  rw [Function.update_eq_self]

theorem setHandler_setHandler (y : Handler) :
    (h.setHandler c x).setHandler c y = h.setHandler c y := by
  unfold setHandler
  simp only [Function.update_idem]

theorem handlers_act (a : HubAct) (ha : a.conn? ≠ some c) :
    (h.act a).handlers c = h.handlers c := by
  have hsame : (h.act a).setHandler c (h.handlers c) = h.act a := by
    rw [← setHandler_act a ha, setHandler_self]
  rw [← hsame]
  exact Function.update_self _ _ _

end Frame

/-! ## A message that finds nothing to change -/

/-- No event can be put into the channel of the build: there is none, or its receiver is gone, or
    it is full. -/
def Blocked (h : Hub) (name : BuilderName) (buildId : ℤ) : Prop :=
  ∀ chan ∈ h.inFlightBuilds.lookup (name, buildId),
    (h.chans chan).received = false ∨ lifecycleCapacity ≤ (h.chans chan).queue.length

/-- Nobody waits for the build. -/
def Unreceived (h : Hub) (name : BuilderName) (buildId : ℤ) : Prop :=
  ∀ chan ∈ h.inFlightBuilds.lookup (name, buildId), (h.chans chan).received = false

/-- **When a control message changes nothing but its own handler.** The clock of the name's entry
    shows the present already; then by message. -/
def Idle (h : Hub) (conn : ℕ) (msg : ControlMessage) : Prop :=
  (∀ name ∈ (h.handlers conn).registeredName, ∀ t ∈ h.lastActivity.lookup name, t = h.now) ∧
    match msg with
    | .heartbeat stats => (h.handlers conn).established = none ∨ stats = none
    | .shutdown => ∀ name ∈ (h.handlers conn).established,
      ∀ c ∈ h.reg.inner.lookup name, c.state = .disconnecting
    | .buildStarted buildId _ | .buildLogChunk buildId (some _) =>
      ∀ name ∈ (h.handlers conn).registeredName, h.Blocked name buildId
    | .buildFinished buildId _ _ _ _ =>
      ∀ name ∈ (h.handlers conn).registeredName, h.Unreceived name buildId
    | .buildLogChunk _ none | .serverOnly => True

instance (h : Hub) (name : BuilderName) (buildId : ℤ) : Decidable (h.Blocked name buildId) :=
  inferInstanceAs (Decidable (∀ chan ∈ _, _))

instance (h : Hub) (name : BuilderName) (buildId : ℤ) : Decidable (h.Unreceived name buildId) :=
  inferInstanceAs (Decidable (∀ chan ∈ _, _))

instance (h : Hub) (conn : ℕ) (msg : ControlMessage) : Decidable (h.Idle conn msg) := by
  unfold Idle
  split <;> infer_instance

section Idle

variable {h : Hub} {c : ℕ} {name : BuilderName} {buildId : ℤ}

theorem trySend_unreceived {chan : ℕ} (hgone : (h.chans chan).received = false)
    (event : BuildLifecycle) : h.trySend chan event = (h, .noReceiver) := by
  unfold trySend
  rw [if_pos hgone]

theorem tryForward_blocked (hblocked : h.Blocked name buildId) (event : BuildLifecycle) :
    (h.tryForwardBuildEvent name buildId event).1 = h := by
  unfold tryForwardBuildEvent
  split
  · rename_i chan hl
    rcases hblocked chan hl with hgone | hfull
    · rw [trySend_unreceived hgone]
    · unfold trySend
      rw [if_pos hfull]
      split <;> rfl
  · rfl

theorem tryForward_unreceived (hnone : h.Unreceived name buildId) (event : BuildLifecycle) :
    h.tryForwardBuildEvent name buildId event = (h, .noReceiver) := by
  unfold tryForwardBuildEvent
  split
  · rename_i chan hl
    exact trySend_unreceived (hnone chan hl) event
  · rfl

theorem touch_idle
    (hnow : ∀ name ∈ (h.handlers c).registeredName, ∀ t ∈ h.lastActivity.lookup name, t = h.now) :
    h.touch c = h := by
  unfold touch
  split
  · rename_i name hreg
    have hsame : h.lastActivity.modify name (fun _ => h.now) = h.lastActivity :=
      HashMap.modify_eq_self fun t ht => (hnow name hreg t ht).symm
    unfold touchActivity
    rw [hsame]
  · rfl

theorem markDisconnecting_idle
    (hmarked : ∀ c ∈ h.reg.inner.lookup name, c.state = .disconnecting) :
    h.markDisconnecting name = h := by
  have hsame : h.reg.inner.modify name (fun c => { c with state := .disconnecting }) =
      h.reg.inner := by
    refine HashMap.modify_eq_self fun c hc => ?_
    rw [← hmarked c hc]
  unfold markDisconnecting BuilderRegistry.markDisconnecting
  rw [hsame]

theorem forwardNonblocking_idle
    (hblocked : ∀ name ∈ (h.handlers c).registeredName, h.Blocked name buildId)
    (event : BuildLifecycle) : (h.forwardNonblocking c buildId event).1 = h := by
  unfold forwardNonblocking
  split
  · rfl
  · rename_i name hreg
    exact tryForward_blocked (hblocked name hreg) event

theorem forwardFinished_idle
    (hnone : ∀ name ∈ (h.handlers c).registeredName, h.Unreceived name buildId)
    (event : BuildLifecycle) : h.forwardFinished c buildId event = h := by
  unfold forwardFinished
  split
  · rfl
  · rename_i name hreg
    rw [tryForward_unreceived (hnone name hreg) event]

/-- **An idle message changes at most the drop list of its own handler.** -/
theorem handleControl_idle {msg : ControlMessage} (hidle : h.Idle c msg) :
    ∃ drops, h.handleControl c msg =
      h.setHandler c { h.handlers c with logDrops := drops } := by
  obtain ⟨hnow, hmsg⟩ := hidle
  have hself : ∃ drops, h = h.setHandler c { h.handlers c with logDrops := drops } :=
    ⟨(h.handlers c).logDrops, setHandler_self.symm⟩
  rw [handleControl, touch_idle hnow]
  cases msg with
  | heartbeat stats =>
    simp only [handleMessage]
    split
    · rename_i name sample hest
      exact absurd hmsg (by simp [hest])
    · exact hself
  | shutdown =>
    simp only [handleMessage]
    split
    · rename_i name hest
      rw [markDisconnecting_idle (hmsg name hest)]
      exact hself
    · exact hself
  | serverOnly => exact hself
  | buildStarted buildId pid =>
    simp only [handleMessage, forwardNonblocking_idle hmsg]
    exact hself
  | buildLogChunk buildId bytes =>
    cases bytes with
    | none => exact hself
    | some bytes =>
      have hsame := forwardNonblocking_idle hmsg (.logChunk bytes)
      simp only [handleMessage]
      split
      · rename_i h₁ heq
        rw [heq] at hsame
        subst hsame
        exact ⟨_, rfl⟩
      · rename_i h₁ heq
        rw [heq] at hsame
        subst hsame
        exact hself
  | buildFinished buildId status exitCode outputPaths logTruncated =>
    have hkept : ∀ name ∈ ((h.forgetDrop c buildId).handlers c).registeredName,
        (h.forgetDrop c buildId).Unreceived name buildId := by
      intro name hname
      simp only [forgetDrop, setHandler, Function.update_self] at hname
      exact hmsg name hname
    simp only [handleMessage, forwardFinished_idle hkept]
    exact ⟨_, rfl⟩

end Idle

/-! ## Two runs -/

/-- The two states differ at most in the handler of one connection. -/
def AgreeBut (c : ℕ) (h h' : Hub) : Prop := h.setHandler c {} = h'.setHandler c {}

/-- The connection is not the one registered under the name its handler has. -/
def Displaced (c : ℕ) (h : Hub) : Prop :=
  ∀ name ∈ (h.handlers c).registeredName, h.current name ≠ some c

/-- What a connection still sends is idle where it arrives. -/
def Harmless (c : ℕ) (h : Hub) : HubAct → Prop
  | .control conn msg => conn = c → h.Idle conn msg
  | _ => True

instance (c : ℕ) (h : Hub) (a : HubAct) : Decidable (h.Harmless c a) := by
  unfold Harmless
  split <;> infer_instance

/-- The connection neither authenticates nor says `hello` again. -/
def OnlyLate (c : ℕ) (a : HubAct) : Prop := a.conn? = some c → a.lateOf c = true

section Runs

variable {h h' : Hub} {c : ℕ} {a : HubAct}

theorem AgreeBut.act (hagree : AgreeBut c h h') (ha : a.conn? ≠ some c) :
    AgreeBut c (h.act a) (h'.act a) := by
  unfold AgreeBut at hagree ⊢
  rw [← setHandler_act a ha, ← setHandler_act a ha, hagree]

theorem lateOf_cases (hlate : a.lateOf c = true) :
    (∃ msg, a = .control c msg) ∨ a = .teardown c := by
  cases a with
  | control conn msg =>
    have heq : conn = c := by simpa [HubAct.lateOf] using hlate
    exact Or.inl ⟨msg, by rw [heq]⟩
  | teardown conn =>
    have heq : conn = c := by simpa [HubAct.lateOf] using hlate
    exact Or.inr (by rw [heq])
  | _ => exact absurd hlate (by simp [HubAct.lateOf])

/-- The teardown compares connection ids: it takes nothing of the successor's. -/
theorem teardown_displaced (hd : Displaced c h) : h.act (.teardown c) = h.setHandler c {} := by
  simp only [act, teardown]
  split
  · rename_i name hreg
    have hne := hd name hreg
    unfold removeIfMatches
    split
    · rename_i e hl
      rw [if_neg]
      intro heq
      have hcur : h.current name = some e.connectionId := congrArg (Option.map _) hl
      exact hne (hcur.trans (congrArg some heq))
    · rfl
  · rfl

/-- **Hidden steps**: what the displaced connection still does changes only its handler. -/
theorem late_act (hd : Displaced c h) (hlate : a.lateOf c = true) (hok : h.Harmless c a) :
    ∃ x, h.act a = h.setHandler c x ∧
      (x.registeredName = (h.handlers c).registeredName ∨ x.registeredName = none) := by
  rcases lateOf_cases hlate with ⟨msg, rfl⟩ | rfl
  · obtain ⟨drops, heq⟩ := handleControl_idle (hok rfl)
    exact ⟨_, heq, Or.inl rfl⟩
  · exact ⟨_, teardown_displaced hd, Or.inr rfl⟩

theorem Displaced.act (hd : Displaced c h) (hlate : OnlyLate c a) (hok : h.Harmless c a) :
    Displaced c (h.act a) := by
  by_cases ha : a.conn? = some c
  · obtain ⟨x, heq, hx⟩ := late_act hd (hlate ha) hok
    intro name hname
    rw [heq] at hname ⊢
    simp only [setHandler, Function.update_self] at hname
    rcases hx with hx | hx
    · exact hd name (hx ▸ hname)
    · exact absurd hname (by simp [hx])
  · intro name hname
    rw [handlers_act a ha] at hname
    rcases current_act h a name with hcur | ⟨conn, caps, rfl, hcur, -⟩ | ⟨hcur, -⟩
    · rw [hcur]
      exact hd name hname
    · intro heq
      exact ha (hcur.symm.trans heq)
    · rw [hcur]
      exact fun heq => absurd heq (by simp)

/-- **The late messages of a displaced connection can be left out**, if each is idle. -/
theorem late_agree {as : List HubAct} (hd : Displaced c h) (hlate : ∀ a ∈ as, OnlyLate c a)
    (hok : Steps Hub.act (Harmless c) h as) :
    AgreeBut c (h.run as) (h.run (as.filter fun a => !a.lateOf c)) := by
  refine agree_filter (I := Displaced c) (R := AgreeBut c)
    (fun s a hs hsa => hs.act hsa.1 hsa.2) ?_ ?_ as h h hd rfl (hok.and_forall hlate)
  · intro s s' a hagree hvisible hsa
    refine hagree.act fun ha => ?_
    rw [hsa.1 ha] at hvisible
    exact absurd hvisible (by decide)
  · intro s s' a hs hagree hhidden hsa
    obtain ⟨x, heq, -⟩ := late_act hs hhidden hsa.2
    unfold AgreeBut at hagree ⊢
    rw [heq, setHandler_setHandler, hagree]

end Runs

/-- The successor's entry and the lifecycle channels are the same in both states. -/
structure SameSuccessor (name : BuilderName) (h h' : Hub) : Prop where
  entry : h.reg.inner.lookup name = h'.reg.inner.lookup name
  lastActivity : h.lastActivity.lookup name = h'.lastActivity.lookup name
  stats : h.stats.lookup name = h'.stats.lookup name
  builds : h.inFlightBuilds = h'.inFlightBuilds
  chans : h.chans = h'.chans

theorem AgreeBut.sameSuccessor {c : ℕ} {h h' : Hub} (hagree : AgreeBut c h h')
    (name : BuilderName) : SameSuccessor name h h' := by
  have heq : h.setHandler c {} = h'.setHandler c {} := hagree
  have hreg : h.reg = h'.reg := congrArg (·.reg) heq
  have hactivity : h.lastActivity = h'.lastActivity := congrArg (·.lastActivity) heq
  have hstats : h.stats = h'.stats := congrArg (·.stats) heq
  exact ⟨by rw [hreg], by rw [hactivity], by rw [hstats], congrArg (·.inFlightBuilds) heq,
    congrArg (·.chans) heq⟩

/-- **A displaced connection cannot affect its successor.** `c₁` is registered under the name, `c₂`
    says `hello` under it, and `as` is whatever happens then. -/
theorem displaced_cannot_affect (h : Hub) (c₁ c₂ : ℕ) (name : BuilderName)
    (capabilities : BuilderCapabilities) (as : List HubAct) (hne : c₁ ≠ c₂)
    (hreg : (h.handlers c₁).registeredName = some name) (hlate : ∀ a ∈ as, OnlyLate c₁ a)
    (hidle : Steps act (Harmless c₁) (h.act (.hello c₂ name capabilities)) as) :
    SameSuccessor name ((h.act (.hello c₂ name capabilities)).run as)
      ((h.act (.hello c₂ name capabilities)).run (as.filter fun a => !a.lateOf c₁)) := by
  refine (late_agree ?_ hlate hidle).sameSuccessor name
  intro n hn
  have hother : (HubAct.hello c₂ name capabilities).conn? ≠ some c₁ := by
    simpa [HubAct.conn?] using hne.symm
  rw [handlers_act _ hother, hreg] at hn
  obtain rfl : name = n := by simpa using hn
  have hcur := current_acceptHello h c₂ name capabilities name
  rw [if_pos rfl] at hcur
  rw [show (h.act (.hello c₂ name capabilities)).current name = some c₂ from hcur]
  simpa using hne.symm

/-! ## Late messages that count -/

def laptopCaps : BuilderCapabilities := ⟨["x86_64-linux"], "x86_64-linux", [], 2⟩

/-- A laptop is connected. -/
def laptop : Hub := (new 0).act (.hello 0 ⟨"laptop"⟩ laptopCaps)

/-- It comes back, a build is opened for it, and the old session still has an event of an older
    build and a beat without a sample, in the second in which the new session speaks; then it is
    torn down. -/
def lateButIdle : List HubAct :=
  [.drain ⟨"laptop"⟩, .registerInFlightBuild ⟨"laptop"⟩ 7, .advance 5,
    .control 1 (.heartbeat (some ⟨0, 0, 4, 8⟩)), .control 0 (.heartbeat none),
    .control 0 (.buildFinished 6 .success (some 0) [] false), .control 1 (.buildStarted 7 none),
    .teardown 0]

theorem displaced_cannot_affect_lateButIdle :
    SameSuccessor ⟨"laptop"⟩ ((laptop.act (.hello 1 ⟨"laptop"⟩ laptopCaps)).run lateButIdle)
      ((laptop.act (.hello 1 ⟨"laptop"⟩ laptopCaps)).run
        (lateButIdle.filter fun a => !a.lateOf 0)) :=
  displaced_cannot_affect laptop 0 1 ⟨"laptop"⟩ laptopCaps lateButIdle (by decide) (by decide)
    (by simp [lateButIdle, OnlyLate, HubAct.conn?, HubAct.lateOf]) (by decide)

/-- The old session says that it shuts down. -/
theorem not_displaced_cannot_affect :
    ¬ ∀ (h : Hub) (c₁ c₂ : ℕ) (name : BuilderName) (capabilities : BuilderCapabilities)
      (as : List HubAct), c₁ ≠ c₂ → (h.handlers c₁).registeredName = some name →
      (∀ a ∈ as, OnlyLate c₁ a) →
      SameSuccessor name ((h.act (.hello c₂ name capabilities)).run as)
        ((h.act (.hello c₂ name capabilities)).run (as.filter fun a => !a.lateOf c₁)) := by
  intro hall
  have hsame := hall laptop 0 1 ⟨"laptop"⟩ laptopCaps [.control 0 .shutdown] (by decide)
    (by decide) (by simp [OnlyLate, HubAct.conn?, HubAct.lateOf])
  exact absurd hsame.entry (by decide)

end Hub

end Argunix.Builders
