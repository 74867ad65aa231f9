import Mathlib.Algebra.Order.Ring.Nat
import Mathlib.Data.List.Infix
import Argunix.Lib.Runs

/-!
# AgentFlow: the in-memory bus

`InMemoryBus` is one channel, whose receiver is shared behind a mutex. `subscribe` makes a channel
of its own for the stream it returns and spawns a task that moves messages from the one to the
other: it locks the receiver, and then receives and forwards until the bus is gone. A message that
cannot be forwarded, because the stream was dropped, is dropped with it.

So the task that is first to lock the receiver has it for good, and **the messages go to its
subscriber alone**, live or not. `served_of_run` says when that is enough: in every run in which a
message is sent to at most one live subscriber, the one whose task has the receiver, and no other
task takes the receiver before that subscriber has got what was sent to it. Then everything reaches
it, once and in order. `not_served_two` is two agents on one bus: the second is never served.
-/

set_option autoImplicit false

namespace Argunix.AgentFlow

open Argunix.Lib

variable {M : Type}

/-! ## The bus -/

/-- Where a forwarding task stands. -/
inductive ForwarderPc (M : Type)
  /-- It has not had the lock. -/
  | waiting
  | receiving
  | forwarding (msg : M)
  | ended

/-- The message in its hands. -/
def ForwarderPc.hand : ForwarderPc M → List M
  | forwarding msg => [msg]
  | _ => []

/-- How many steps it has before it, apart from the messages. -/
def ForwarderPc.rank : ForwarderPc M → ℕ
  | waiting => 2
  | receiving | forwarding _ => 1
  | ended => 0

/-- It has the lock. -/
def ForwarderPc.holds : ForwarderPc M → Bool
  | receiving | forwarding _ => true
  | _ => false

/-- A stream and the task that feeds it. -/
structure Subscription (M : Type) where
  /-- How many messages had been sent when it was made. -/
  born : ℕ
  /-- The stream is there. -/
  live : Bool
  pc : ForwarderPc M
  /-- The channel of the stream. -/
  buffer : List M
  /-- What the stream has returned. -/
  got : List M

/-- The bus with its subscriptions. -/
structure InMemoryBus (M : Type) where
  /-- The channel of the bus. -/
  queue : List M
  /-- Everything that was sent. -/
  sent : List M
  /-- The task that has locked the receiver. -/
  holder : Option ℕ
  subs : List (Subscription M)
  /-- The senders are gone. -/
  closed : Bool

/-- The capacity of the channel of a stream. -/
def streamCapacity : ℕ := 1000

namespace InMemoryBus

/-- Nothing was sent. -/
def new : InMemoryBus M := { queue := [], sent := [], holder := none, subs := [], closed := false }

/-- What happens to the bus. -/
inductive Action (M : Type)
  | send (msg : M)
  | subscribe
  /-- The stream is dropped. -/
  | drop (i : ℕ)
  /-- The last handle of the bus is dropped. -/
  | close
  /-- A task gets the lock. Which of them asks first is up to the scheduler. -/
  | lock (i : ℕ)
  | recv (i : ℕ)
  | forward (i : ℕ)
  | next (i : ℕ)

/-- A step of a forwarding task, or of a subscriber that reads. -/
def Action.forwards : Action M → Bool
  | lock _ | recv _ | forward _ | next _ => true
  | _ => false

/-- What becomes of a subscription. -/
def setSub (s : InMemoryBus M) (i : ℕ) (sub : Subscription M) : InMemoryBus M :=
  { s with subs := s.subs.set i sub }

/-- `let _ = forward_sender.send(msg).await`: it waits for room, and fails if the stream is gone. -/
def forwardTo (s : InMemoryBus M) (i : ℕ) (sub : Subscription M) (msg : M) :
    Option (InMemoryBus M) :=
  if sub.live then
    if sub.buffer.length < streamCapacity then
      some (s.setSub i { sub with pc := .receiving, buffer := sub.buffer ++ [msg] })
    else none
  else some (s.setSub i { sub with pc := .receiving })

/-- `inner_receiver.recv().await` -/
def recvBy (s : InMemoryBus M) (i : ℕ) (sub : Subscription M) : Option (InMemoryBus M) :=
  match s.queue with
  | msg :: rest => some { s.setSub i { sub with pc := .forwarding msg } with queue := rest }
  | [] =>
    if s.closed then some { s.setSub i { sub with pc := .ended } with holder := none } else none

/-- One step; `buffer` is the capacity of the channel of the bus. -/
def act (buffer : ℕ) (s : InMemoryBus M) : Action M → Option (InMemoryBus M)
  | .send msg =>
    if s.closed = false ∧ s.queue.length < buffer then
      some { s with queue := s.queue ++ [msg], sent := s.sent ++ [msg] }
    else none
  | .subscribe =>
    if s.closed = false then
      some { s with subs := s.subs ++ [⟨s.sent.length, true, .waiting, [], []⟩] }
    else none
  | .drop i =>
    match s.subs[i]? with
    | some sub =>
      if sub.live then some (s.setSub i { sub with live := false, buffer := [] }) else none
    | none => none
  | .close => if s.closed = false then some { s with closed := true } else none
  | .lock i =>
    match s.subs[i]?, s.holder with
    | some sub, none =>
      match sub.pc with
      | .waiting => some { s.setSub i { sub with pc := .receiving } with holder := some i }
      | _ => none
    | _, _ => none
  | .recv i =>
    match s.subs[i]? with
    | some sub =>
      match sub.pc with
      | .receiving => s.recvBy i sub
      | _ => none
    | none => none
  | .forward i =>
    match s.subs[i]? with
    | some sub =>
      match sub.pc with
      | .forwarding msg => s.forwardTo i sub msg
      | _ => none
    | none => none
  | .next i =>
    match s.subs[i]? with
    | some sub =>
      match sub.live, sub.buffer with
      | true, msg :: rest => some (s.setSub i { sub with buffer := rest, got := sub.got ++ [msg] })
      | _, _ => none
    | none => none

/-! ## What is wanted -/

/-- No task has anything to do, and nobody has anything to read. -/
def Quiet (buffer : ℕ) (s : InMemoryBus M) : Prop :=
  ∀ a : Action M, a.forwards = true → s.act buffer a = none

/-- **A subscriber gets what is sent**: so far an unbroken part of it, in order, that begins no
    later than its subscription, and all of it when the bus is at rest. -/
def Served (buffer : ℕ) (s : InMemoryBus M) (sub : Subscription M) : Prop :=
  ∃ earlier, earlier <:+ s.sent.take sub.born ∧
    sub.got <+: earlier ++ s.sent.drop sub.born ∧
    (s.Quiet buffer → sub.got = earlier ++ s.sent.drop sub.born)

/-- The subscribers that are there. -/
def liveSubs (s : InMemoryBus M) : List ℕ :=
  (List.range s.subs.length).filter fun i => s.subs[i]?.any fun sub => sub.live

/-- The subscribers that a message was sent to. -/
def owedSubs (s : InMemoryBus M) : List ℕ :=
  (List.range s.subs.length).filter fun i =>
    s.subs[i]?.any fun sub => sub.live && decide (sub.born < s.sent.length)

/-- **Only the subscriber whose task has the receiver is served.** -/
def Meets (s : InMemoryBus M) : Action M → Prop
  -- a message is sent to one subscriber, and no other has the receiver
  | .send _ => ∀ i ∈ s.liveSubs, (∀ j ∈ s.holder, i = j) ∧ ∀ i' ∈ s.liveSubs, i' = i
  -- no other takes the receiver while there are messages for it
  | .lock j => s.queue.isEmpty = false → ∀ i ∈ s.owedSubs, i = j
  | _ => True

instance (s : InMemoryBus M) : (a : Action M) → Decidable (s.Meets a)
  | .send _ => inferInstanceAs (Decidable (∀ i ∈ s.liveSubs, _ ∧ ∀ i' ∈ s.liveSubs, _))
  | .lock _ => inferInstanceAs (Decidable (_ → ∀ i ∈ s.owedSubs, _))
  | .subscribe | .drop _ | .close | .recv _ | .forward _ | .next _ => isTrue trivial

/-! ## What a step can do -/

variable {buffer : ℕ} {s s' : InMemoryBus M} {i : ℕ}

theorem act_drop (h : s.act buffer (.drop i) = some s') :
    ∃ sub, s.subs[i]? = some sub ∧ s' = s.setSub i { sub with live := false, buffer := [] } := by
  rw [act] at h
  cases hsub : s.subs[i]? with
  | none =>
    rw [hsub] at h
    cases h
  | some sub =>
    rw [hsub] at h
    dsimp only at h
    split at h
    · exact ⟨sub, rfl, (Option.some.inj h).symm⟩
    · cases h

theorem act_lock : s.act buffer (.lock i) = some s' ↔
    ∃ sub, s.subs[i]? = some sub ∧ s.holder = none ∧ sub.pc = .waiting ∧
      s' = { s.setSub i { sub with pc := .receiving } with holder := some i } := by
  rw [act]
  cases hsub : s.subs[i]? with
  | none => simp
  | some sub =>
    cases hhold : s.holder with
    | some j => simp
    | none => cases hpc : sub.pc <;> simp [hpc, @eq_comm _ s']

theorem act_recv : s.act buffer (.recv i) = some s' ↔
    ∃ sub, s.subs[i]? = some sub ∧ sub.pc = .receiving ∧
      ((∃ msg rest, s.queue = msg :: rest ∧
          s' = { s.setSub i { sub with pc := .forwarding msg } with queue := rest }) ∨
        (s.queue = [] ∧ s.closed = true ∧
          s' = { s.setSub i { sub with pc := .ended } with holder := none })) := by
  rw [act]
  cases hsub : s.subs[i]? with
  | none => simp
  | some sub =>
    cases hpc : sub.pc with
    | receiving =>
      cases hqueue : s.queue with
      | cons msg rest => simp [hpc, recvBy, hqueue, @eq_comm _ s']
      | nil => cases hclosed : s.closed <;> simp [hpc, recvBy, hqueue, hclosed, @eq_comm _ s']
    | _ => simp [hpc]

theorem act_forward : s.act buffer (.forward i) = some s' ↔
    ∃ sub msg, s.subs[i]? = some sub ∧ sub.pc = .forwarding msg ∧
      ((sub.live = true ∧ sub.buffer.length < streamCapacity ∧
          s' = s.setSub i { sub with pc := .receiving, buffer := sub.buffer ++ [msg] }) ∨
        (sub.live = false ∧ s' = s.setSub i { sub with pc := .receiving })) := by
  rw [act]
  cases hsub : s.subs[i]? with
  | none => simp
  | some sub =>
    cases hpc : sub.pc with
    | forwarding msg =>
      cases hlive : sub.live with
      | true =>
        by_cases hroom : sub.buffer.length < streamCapacity <;>
          simp [hpc, forwardTo, hlive, hroom, @eq_comm _ s']
      | false => simp [hpc, forwardTo, hlive, @eq_comm _ s']
    | _ => simp [hpc]

theorem act_next : s.act buffer (.next i) = some s' ↔
    ∃ sub msg rest, s.subs[i]? = some sub ∧ sub.live = true ∧ sub.buffer = msg :: rest ∧
      s' = s.setSub i { sub with buffer := rest, got := sub.got ++ [msg] } := by
  rw [act]
  cases hsub : s.subs[i]? with
  | none => simp
  | some sub =>
    cases hlive : sub.live with
    | true => cases hbuf : sub.buffer <;> simp [hlive, hbuf, @eq_comm _ s']
    | false => simp [hlive]

theorem Quiet.not_act {a : Action M} (h : s.Quiet buffer) (ha : a.forwards = true)
    (hact : s.act buffer a = some s') : False := by
  rw [h a ha] at hact
  cases hact

/-! ## Who has the receiver -/

/-- The books; `first` is the task that was first to lock the receiver. -/
structure Books (s : InMemoryBus M) (first : Option ℕ) : Prop where
  fresh : first = none → s.queue = s.sent ∧ s.holder = none
  untaken : first = none → ∀ (i : ℕ) (sub : Subscription M), s.subs[i]? = some sub →
    sub.pc = .waiting
  /-- What the first has got, what is on its way, and what is to come. -/
  owner : ∀ (i : ℕ) (sub : Subscription M), s.subs[i]? = some sub → first = some i →
    sub.live = true → sub.got ++ sub.buffer ++ sub.pc.hand ++ s.queue = s.sent
  others : ∀ (i : ℕ) (sub : Subscription M), s.subs[i]? = some sub → first ≠ some i →
    sub.got = [] ∧ sub.buffer = [] ∧ sub.pc.hand = []
  idle : ∀ (i : ℕ) (sub : Subscription M), s.subs[i]? = some sub → first ≠ some i → first ≠ none →
    sub.live = true → sub.born = s.sent.length
  /-- Before that, messages were sent to one subscriber. -/
  one : first = none → ∀ (i i' : ℕ) (sub sub' : Subscription M),
    s.subs[i]? = some sub → s.subs[i']? = some sub' → sub.live = true → sub'.live = true →
    sub.born < s.sent.length → sub'.born < s.sent.length → i = i'
  known : ∀ i, first = some i → i < s.subs.length
  holds : ∀ (i : ℕ) (sub : Subscription M), s.subs[i]? = some sub → sub.pc.holds = true →
    s.holder = some i
  holder : ∀ i, s.holder = some i →
    ∃ sub : Subscription M, s.subs[i]? = some sub ∧ sub.pc.holds = true
  /-- The first keeps it until there is nothing more to come. -/
  through : first ≠ none → s.holder = first ∨ (s.queue = [] ∧ s.closed = true)
  born : ∀ (i : ℕ) (sub : Subscription M), s.subs[i]? = some sub → sub.born ≤ s.sent.length

theorem getElem?_setSub {sub : Subscription M} (hsub : s.subs[i]? = some sub)
    (sub' : Subscription M) (k : ℕ) :
    (s.setSub i sub').subs[k]? = if i = k then some sub' else s.subs[k]? := by
  obtain ⟨hlt, -⟩ := List.getElem?_eq_some_iff.mp hsub
  show (s.subs.set i sub')[k]? = _
  rw [List.getElem?_set]
  by_cases hk : i = k
  · rw [if_pos hk, if_pos hk, if_pos hlt]
  · rw [if_neg hk, if_neg hk]

/-- A subscription after the change of one of them. -/
theorem of_setSub {sub sub' : Subscription M} (hsub : s.subs[i]? = some sub) {k : ℕ}
    {sub₁ : Subscription M} (h : (s.setSub i sub').subs[k]? = some sub₁) :
    (k = i ∧ sub₁ = sub') ∨ (k ≠ i ∧ s.subs[k]? = some sub₁) := by
  rw [getElem?_setSub hsub] at h
  split at h
  · rename_i hk
    exact .inl ⟨hk.symm, (Option.some.inj h).symm⟩
  · rename_i hk
    exact .inr ⟨Ne.symm hk, h⟩

namespace Books

variable {first : Option ℕ} {sub : Subscription M}

theorem start : Books (M := M) new none where
  fresh _ := ⟨rfl, rfl⟩
  untaken _ i sub h := absurd h (by simp [new])
  owner i sub h := absurd h (by simp [new])
  others i sub h := absurd h (by simp [new])
  idle i sub h := absurd h (by simp [new])
  one _ i i' sub sub' h := absurd h (by simp [new])
  known i h := by cases h
  holds i sub h := absurd h (by simp [new])
  holder i h := by cases h
  through h := absurd rfl h
  born i sub h := absurd h (by simp [new])

/-- One subscription changes, and keeps its place among the tasks. -/
theorem setSub (h : Books s first) (hsub : s.subs[i]? = some sub) {sub' : Subscription M}
    (hborn : sub'.born = sub.born) (hlive : sub'.live = true → sub.live = true)
    (hwait : sub.pc = .waiting → sub'.pc = .waiting) (hpc : sub'.pc.holds = sub.pc.holds)
    (howner : first = some i → sub'.live = true →
      sub'.got ++ sub'.buffer ++ sub'.pc.hand ++ s.queue = s.sent)
    (hothers : first ≠ some i → sub'.got = [] ∧ sub'.buffer = [] ∧ sub'.pc.hand = []) :
    Books (s.setSub i sub') first := by
  refine ⟨h.fresh, ?_, ?_, ?_, ?_, ?_, ?_, ?_, ?_, h.through, ?_⟩
  · intro hnone k sub₁ hk
    rcases of_setSub hsub hk with ⟨rfl, rfl⟩ | ⟨-, hk⟩
    · exact hwait (h.untaken hnone k sub hsub)
    · exact h.untaken hnone k sub₁ hk
  · intro k sub₁ hk hfirst hl
    rcases of_setSub hsub hk with ⟨rfl, rfl⟩ | ⟨-, hk⟩
    · exact howner hfirst hl
    · exact h.owner k sub₁ hk hfirst hl
  · intro k sub₁ hk hne
    rcases of_setSub hsub hk with ⟨rfl, rfl⟩ | ⟨-, hk⟩
    · exact hothers hne
    · exact h.others k sub₁ hk hne
  · intro k sub₁ hk hne hsome hl
    rcases of_setSub hsub hk with ⟨rfl, rfl⟩ | ⟨-, hk⟩
    · exact hborn.trans (h.idle k sub hsub hne hsome (hlive hl))
    · exact h.idle k sub₁ hk hne hsome hl
  · intro hnone k k' sub₁ sub₂ hk hk' hl hl' hb hb'
    -- each of the two is one of the old ones
    have hold : ∀ {k : ℕ} {sub₁ : Subscription M}, (s.setSub i sub').subs[k]? = some sub₁ →
        sub₁.live = true → sub₁.born < s.sent.length → ∃ sub₀ : Subscription M,
          s.subs[k]? = some sub₀ ∧ sub₀.live = true ∧ sub₀.born < s.sent.length := by
      intro m sub₂ hm hlive₂ hbelow
      rcases of_setSub hsub hm with ⟨heq, hsub₂⟩ | ⟨-, hm⟩
      · rw [hsub₂] at hlive₂ hbelow
        exact ⟨sub, heq ▸ hsub, hlive hlive₂, hborn ▸ hbelow⟩
      · exact ⟨sub₂, hm, hlive₂, hbelow⟩
    obtain ⟨a, ha, hal, hab⟩ := hold hk hl hb
    obtain ⟨c, hc, hcl, hcb⟩ := hold hk' hl' hb'
    exact h.one hnone k k' a c ha hc hal hcl hab hcb
  · intro k hk
    show k < (s.subs.set i sub').length
    rw [List.length_set]
    exact h.known k hk
  · intro k sub₁ hk hh
    rcases of_setSub hsub hk with ⟨rfl, rfl⟩ | ⟨-, hk⟩
    · exact h.holds k sub hsub (hpc ▸ hh)
    · exact h.holds k sub₁ hk hh
  · intro k hk
    obtain ⟨sub₀, hsub₀, hh⟩ := h.holder k hk
    by_cases hik : i = k
    · subst hik
      obtain rfl := Option.some.inj (hsub.symm.trans hsub₀)
      exact ⟨sub', by rw [getElem?_setSub hsub, if_pos rfl], hpc.trans hh⟩
    · exact ⟨sub₀, by rw [getElem?_setSub hsub, if_neg hik]; exact hsub₀, hh⟩
  · intro k sub₁ hk
    rcases of_setSub hsub hk with ⟨rfl, rfl⟩ | ⟨-, hk⟩
    · exact hborn ▸ h.born k sub hsub
    · exact h.born k sub₁ hk

theorem mem_liveSubs {s : InMemoryBus M} {i : ℕ} {sub : Subscription M}
    (hsub : s.subs[i]? = some sub) (hlive : sub.live = true) : i ∈ s.liveSubs := by
  obtain ⟨hlt, -⟩ := List.getElem?_eq_some_iff.mp hsub
  refine List.mem_filter.mpr ⟨List.mem_range.mpr hlt, ?_⟩
  simp [hsub, hlive]

theorem mem_owedSubs {s : InMemoryBus M} {i : ℕ} {sub : Subscription M}
    (hsub : s.subs[i]? = some sub) (hlive : sub.live = true) (hborn : sub.born < s.sent.length) :
    i ∈ s.owedSubs := by
  obtain ⟨hlt, -⟩ := List.getElem?_eq_some_iff.mp hsub
  refine List.mem_filter.mpr ⟨List.mem_range.mpr hlt, ?_⟩
  simp [hsub, hlive, hborn]

/-- **A send.** -/
theorem send (h : Books s first) (msg : M) (hopen : s.closed = false)
    (hmeets : s.Meets (.send msg)) :
    Books { s with queue := s.queue ++ [msg], sent := s.sent ++ [msg] } first := by
  -- the bus is open, so the first still has the receiver
  have hfirst : first ≠ none → s.holder = first := by
    intro hsome
    rcases h.through hsome with hhold | ⟨-, hclosed⟩
    · exact hhold
    · exact absurd (hopen.symm.trans hclosed) (by simp)
  have hlonger : ∀ n, n ≤ s.sent.length → n ≤ (s.sent ++ [msg]).length := by
    intro n hn
    rw [List.length_append]
    omega
  refine ⟨fun hnone => ?_, h.untaken, ?_, h.others, ?_, ?_, h.known, h.holds, h.holder,
    fun hsome => .inl (hfirst hsome), fun i sub hsub => hlonger _ (h.born i sub hsub)⟩
  · obtain ⟨hqueue, hhold⟩ := h.fresh hnone
    exact ⟨congrArg (· ++ [msg]) hqueue, hhold⟩
  · intro i sub hsub hi hl
    show _ ++ (s.queue ++ [msg]) = s.sent ++ [msg]
    rw [← List.append_assoc, h.owner i sub hsub hi hl]
  · intro i sub hsub hne hsome hl
    obtain ⟨j, hj⟩ := Option.ne_none_iff_exists'.mp hsome
    have hij := (hmeets i (mem_liveSubs hsub hl)).1 j (by rw [hfirst hsome]; exact hj)
    exact absurd (hij ▸ hj) hne
  · intro _ i i' sub sub' hsub hsub' hl hl' _ _
    exact ((hmeets i (mem_liveSubs hsub hl)).2 i' (mem_liveSubs hsub' hl')).symm

theorem subscribe (h : Books s first) :
    Books { s with subs := s.subs ++ [⟨s.sent.length, true, .waiting, [], []⟩] } first := by
  -- a subscription is an old one or the new one
  have hcases : ∀ {k : ℕ} {sub : Subscription M},
      (s.subs ++ [⟨s.sent.length, true, .waiting, [], []⟩])[k]? = some sub →
      s.subs[k]? = some sub ∨
        (k = s.subs.length ∧ sub = ⟨s.sent.length, true, .waiting, [], []⟩) := by
    intro k sub hk
    by_cases hlt : k < s.subs.length
    · rw [List.getElem?_append_left hlt] at hk
      exact .inl hk
    · rw [List.getElem?_append_right (Nat.le_of_not_lt hlt)] at hk
      obtain ⟨hk', hsub⟩ := List.getElem?_eq_some_iff.mp hk
      have hzero : k - s.subs.length = 0 := by
        rw [List.length_singleton] at hk'
        omega
      refine .inr ⟨by omega, ?_⟩
      simpa [hzero] using hsub.symm
  refine ⟨h.fresh, ?_, ?_, ?_, ?_, ?_, ?_, ?_, ?_, h.through, ?_⟩
  · intro hnone k sub hk
    rcases hcases hk with hk | ⟨-, rfl⟩
    · exact h.untaken hnone k sub hk
    · rfl
  · intro k sub hk hfirst hl
    rcases hcases hk with hk | ⟨rfl, -⟩
    · exact h.owner k sub hk hfirst hl
    · exact absurd (h.known _ hfirst) (Nat.lt_irrefl _)
  · intro k sub hk hne
    rcases hcases hk with hk | ⟨-, rfl⟩
    · exact h.others k sub hk hne
    · exact ⟨rfl, rfl, rfl⟩
  · intro k sub hk hne hsome hl
    rcases hcases hk with hk | ⟨-, rfl⟩
    · exact h.idle k sub hk hne hsome hl
    · rfl
  · intro hnone k k' sub sub' hk hk' hl hl' hb hb'
    rcases hcases hk with hk | ⟨-, rfl⟩
    · rcases hcases hk' with hk' | ⟨-, rfl⟩
      · exact h.one hnone k k' sub sub' hk hk' hl hl' hb hb'
      · exact absurd hb' (Nat.lt_irrefl _)
    · exact absurd hb (Nat.lt_irrefl _)
  · intro k hk
    show k < (s.subs ++ [_]).length
    rw [List.length_append]
    exact Nat.lt_add_right _ (h.known k hk)
  · intro k sub hk hh
    rcases hcases hk with hk | ⟨-, rfl⟩
    · exact h.holds k sub hk hh
    · cases hh
  · intro k hk
    obtain ⟨sub, hsub, hh⟩ := h.holder k hk
    obtain ⟨hlt, -⟩ := List.getElem?_eq_some_iff.mp hsub
    exact ⟨sub, (List.getElem?_append_left hlt).trans hsub, hh⟩
  · intro k sub hk
    rcases hcases hk with hk | ⟨-, rfl⟩
    · exact h.born k sub hk
    · exact Nat.le_refl _

/-- Once the receiver was taken: a task changes, and with it the channel or the lock. -/
theorem update (h : Books s first) (hsub : s.subs[i]? = some sub) (hsome : first ≠ none)
    {sub' : Subscription M} {queue : List M} {holder : Option ℕ} (hborn : sub'.born = sub.born)
    (hlive : sub'.live = true → sub.live = true)
    (howner : first = some i → sub'.live = true →
      sub'.got ++ sub'.buffer ++ sub'.pc.hand ++ queue = s.sent)
    (hothers : first ≠ some i → sub'.got = [] ∧ sub'.buffer = [] ∧ sub'.pc.hand = [])
    (hqueue : first ≠ some i → queue = s.queue)
    (hself : sub'.pc.holds = true → holder = some i)
    (hheld : ∀ k, k ≠ i → s.holder ≠ some k)
    (hholder : ∀ k, holder = some k → k = i ∧ sub'.pc.holds = true)
    (hthrough : holder = first ∨ (queue = [] ∧ s.closed = true)) :
    Books { s.setSub i sub' with queue := queue, holder := holder } first := by
  refine ⟨fun hnone => absurd hnone hsome, fun hnone => absurd hnone hsome, ?_, ?_, ?_,
    fun hnone => absurd hnone hsome, ?_, ?_, fun k hk => ?_, fun _ => hthrough, ?_⟩
  · intro k sub₁ hk hfirst hl
    rcases of_setSub hsub hk with ⟨rfl, rfl⟩ | ⟨hne, hk⟩
    · exact howner hfirst hl
    · have hsame : queue = s.queue := hqueue fun hi => hne (Option.some.inj (hfirst.symm.trans hi))
      show _ ++ queue = s.sent
      rw [hsame]
      exact h.owner k sub₁ hk hfirst hl
  · intro k sub₁ hk hne
    rcases of_setSub hsub hk with ⟨rfl, rfl⟩ | ⟨-, hk⟩
    · exact hothers hne
    · exact h.others k sub₁ hk hne
  · intro k sub₁ hk hne _ hl
    rcases of_setSub hsub hk with ⟨rfl, rfl⟩ | ⟨-, hk⟩
    · exact hborn.trans (h.idle k sub hsub hne hsome (hlive hl))
    · exact h.idle k sub₁ hk hne hsome hl
  · intro k hk
    show k < (s.subs.set i sub').length
    rw [List.length_set]
    exact h.known k hk
  · intro k sub₁ hk hh
    rcases of_setSub hsub hk with ⟨rfl, rfl⟩ | ⟨hne, hk⟩
    · exact hself hh
    · exact absurd (h.holds k sub₁ hk hh) (hheld k hne)
  · obtain ⟨rfl, hh⟩ := hholder k hk
    exact ⟨sub', (getElem?_setSub hsub sub' k).trans (if_pos rfl), hh⟩
  · intro k sub₁ hk
    rcases of_setSub hsub hk with ⟨rfl, rfl⟩ | ⟨-, hk⟩
    · exact hborn ▸ h.born k sub hsub
    · exact h.born k sub₁ hk

/-- **A task takes the receiver**, the first to do so or one that comes when all is over. -/
theorem lock (h : Books s first) (hsub : s.subs[i]? = some sub) (hhold : s.holder = none)
    (hpc : sub.pc = .waiting) (hmeets : s.Meets (.lock i)) :
    ∃ first', Books { s.setSub i { sub with pc := .receiving } with holder := some i } first' := by
  have hholds : ∀ (k : ℕ) (sub₁ : Subscription M),
      (s.setSub i { sub with pc := .receiving }).subs[k]? = some sub₁ →
      sub₁.pc.holds = true → some i = some k := by
    intro k sub₁ hk hh
    rcases of_setSub hsub hk with ⟨rfl, -⟩ | ⟨-, hk⟩
    · rfl
    · exact absurd ((h.holds k sub₁ hk hh).symm.trans hhold) (by simp)
  have hborn : ∀ (k : ℕ) (sub₁ : Subscription M),
      (s.setSub i { sub with pc := .receiving }).subs[k]? = some sub₁ →
      sub₁.born ≤ s.sent.length := by
    intro k sub₁ hk
    rcases of_setSub hsub hk with ⟨rfl, rfl⟩ | ⟨-, hk⟩
    · exact h.born k sub hsub
    · exact h.born k sub₁ hk
  have hlength : (s.setSub i { sub with pc := .receiving }).subs.length = s.subs.length :=
    List.length_set
  cases hfirst : first with
  | none =>
    obtain ⟨hqueue, -⟩ := h.fresh hfirst
    have hempty := h.others i sub hsub (by simp [hfirst])
    refine ⟨some i, fun hnone => (by cases hnone), fun hnone => (by cases hnone), ?_, ?_, ?_,
      fun hnone => (by cases hnone), ?_, hholds, fun k hk => ?_, fun _ => .inl rfl, hborn⟩
    · intro k sub₁ hk hi hl
      obtain rfl := Option.some.inj hi
      rcases of_setSub hsub hk with ⟨-, rfl⟩ | ⟨hne, -⟩
      · obtain ⟨hgot, hbuf, -⟩ := hempty
        show sub.got ++ sub.buffer ++ [] ++ s.queue = s.sent
        rw [hgot, hbuf, hqueue]
        rfl
      · exact absurd rfl hne
    · intro k sub₁ hk hne
      rcases of_setSub hsub hk with ⟨rfl, -⟩ | ⟨-, hk⟩
      · exact absurd rfl hne
      · exact h.others k sub₁ hk (by simp [hfirst])
    · intro k sub₁ hk hne _ hl
      rcases of_setSub hsub hk with ⟨rfl, -⟩ | ⟨hki, hk⟩
      · exact absurd rfl hne
      · -- nothing was sent to it
        have hle := h.born k sub₁ hk
        by_contra hsent
        have hlt : sub₁.born < s.sent.length := lt_of_le_of_ne hle hsent
        have hsome : s.queue.isEmpty = false := by
          rw [hqueue, List.isEmpty_eq_false_iff]
          exact List.ne_nil_of_length_pos (Nat.zero_lt_of_lt hlt)
        exact hki (hmeets hsome k (mem_owedSubs hk hl hlt))
    · intro k hk
      obtain rfl := Option.some.inj hk
      rw [show _ = s.subs.length from hlength]
      exact (List.getElem?_eq_some_iff.mp hsub).1
    · obtain rfl := Option.some.inj hk
      exact ⟨_, (getElem?_setSub hsub _ i).trans (if_pos rfl), rfl⟩
  | some j =>
    have hsome : first ≠ none := by simp [hfirst]
    have hover : s.queue = [] ∧ s.closed = true := by
      rcases h.through hsome with heq | hover
      · exact absurd (hhold.symm.trans heq).symm hsome
      · exact hover
    refine ⟨first, h.update hsub hsome rfl id (fun hi hl => ?_) (fun hne => ?_) (fun _ => rfl)
      (fun _ => rfl) (fun k _ => by simp [hhold])
      (fun k hk => ⟨(Option.some.inj hk).symm, rfl⟩) (.inr hover)⟩
    · have howner := h.owner i sub hsub hi hl
      rw [hpc] at howner
      exact howner
    · obtain ⟨hgot, hbuf, -⟩ := h.others i sub hsub hne
      exact ⟨hgot, hbuf, rfl⟩

/-- A task that has the lock is the only one that has it. -/
theorem holder_ne (h : Books s first) (hsub : s.subs[i]? = some sub)
    (hpc : sub.pc.holds = true) : first ≠ none ∧ ∀ k, k ≠ i → s.holder ≠ some k := by
  have hhold := h.holds i sub hsub hpc
  constructor
  · intro hnone
    exact absurd (hhold.symm.trans (h.fresh hnone).2) (by simp)
  · intro k hne hk
    exact hne (Option.some.inj (hk.symm.trans hhold))

/-- **A message is received**, by the first. -/
theorem recv (h : Books s first) (hsub : s.subs[i]? = some sub) (hpc : sub.pc = .receiving)
    {msg : M} {rest : List M} (hqueue : s.queue = msg :: rest) :
    Books { s.setSub i { sub with pc := .forwarding msg } with queue := rest } first := by
  have hhold := h.holds i sub hsub (by rw [hpc]; rfl)
  obtain ⟨hsome, hheld⟩ := h.holder_ne hsub (by rw [hpc]; rfl)
  have hfirst : first = some i := by
    rcases h.through hsome with heq | ⟨hnil, -⟩
    · exact heq.symm.trans hhold
    · exact absurd (hqueue.symm.trans hnil) (List.cons_ne_nil _ _)
  refine h.update hsub hsome rfl id (fun hi hl => ?_) (fun hne => absurd hfirst hne)
    (fun hne => absurd hfirst hne) (fun _ => hhold) hheld
    (fun k hk => ⟨Option.some.inj (hk.symm.trans hhold), rfl⟩) (.inl (hhold.trans hfirst.symm))
  have howner := h.owner i sub hsub hi hl
  rw [hpc, hqueue] at howner
  simpa [ForwarderPc.hand] using howner

/-- The bus is gone: the task ends, and its lock is released. -/
theorem ended (h : Books s first) (hsub : s.subs[i]? = some sub) (hpc : sub.pc = .receiving)
    (hqueue : s.queue = []) (hclosed : s.closed = true) :
    Books { s.setSub i { sub with pc := .ended } with holder := none } first := by
  obtain ⟨hsome, hheld⟩ := h.holder_ne hsub (by rw [hpc]; rfl)
  refine h.update hsub hsome rfl id (fun hi hl => ?_) (fun hne => ?_) (fun _ => rfl)
    (fun hh => (by cases hh)) hheld (fun k hk => (by cases hk)) (.inr ⟨hqueue, hclosed⟩)
  · have howner := h.owner i sub hsub hi hl
    rw [hpc] at howner
    exact howner
  · obtain ⟨hgot, hbuf, -⟩ := h.others i sub hsub hne
    exact ⟨hgot, hbuf, rfl⟩

/-- **A message is forwarded**, or dropped with the stream. -/
theorem forward (h : Books s first) (hsub : s.subs[i]? = some sub) {msg : M}
    (hpc : sub.pc = .forwarding msg) {sub' : Subscription M}
    (hsub' : sub' = { sub with pc := .receiving, buffer := sub.buffer ++ [msg] } ∨
      (sub.live = false ∧ sub' = { sub with pc := .receiving })) :
    Books (s.setSub i sub') first := by
  -- whoever has a message in its hands is the first
  have hfirst : first = some i := by
    by_contra hne
    obtain ⟨-, -, hhand⟩ := h.others i sub hsub hne
    rw [hpc] at hhand
    cases hhand
  rcases hsub' with rfl | ⟨hdead, rfl⟩
  · refine h.setSub hsub rfl id (fun hw => ?_) (by rw [hpc]; rfl) (fun hi hl => ?_)
      fun hne => absurd hfirst hne
    · rw [hpc] at hw
      cases hw
    · have howner := h.owner i sub hsub hi hl
      rw [hpc] at howner
      simpa [ForwarderPc.hand] using howner
  · refine h.setSub hsub rfl id (fun hw => ?_) (by rw [hpc]; rfl) (fun hi hl => ?_)
      fun hne => absurd hfirst hne
    · rw [hpc] at hw
      cases hw
    · exact absurd (hdead.symm.trans hl) (by simp)

/-- A subscriber reads. -/
theorem next (h : Books s first) (hsub : s.subs[i]? = some sub) {msg : M} {rest : List M}
    (hbuf : sub.buffer = msg :: rest) :
    Books (s.setSub i { sub with buffer := rest, got := sub.got ++ [msg] }) first := by
  have hfirst : first = some i := by
    by_contra hne
    obtain ⟨-, hnil, -⟩ := h.others i sub hsub hne
    exact absurd (hbuf.symm.trans hnil) (List.cons_ne_nil _ _)
  refine h.setSub hsub rfl id id rfl (fun hi hl => ?_) fun hne => absurd hfirst hne
  have howner := h.owner i sub hsub hi hl
  rw [hbuf] at howner
  simpa using howner

theorem drop (h : Books s first) (hsub : s.subs[i]? = some sub) :
    Books (s.setSub i { sub with live := false, buffer := [] }) first := by
  refine h.setSub hsub rfl (fun hl => (by cases hl)) id rfl (fun _ hl => (by cases hl))
    fun hne => ?_
  obtain ⟨hgot, -, hhand⟩ := h.others i sub hsub hne
  exact ⟨hgot, rfl, hhand⟩

theorem close (h : Books s first) : Books { s with closed := true } first :=
  ⟨h.fresh, h.untaken, h.owner, h.others, h.idle, h.one, h.known, h.holds, h.holder,
    fun hsome => (h.through hsome).imp_right fun hover => ⟨hover.1, rfl⟩, h.born⟩

/-- **Every step keeps the books.** -/
theorem step (h : Books s first) {a : Action M} (hmeets : s.Meets a)
    (hact : s.act buffer a = some s') : ∃ first', Books s' first' := by
  cases a with
  | send msg =>
    rw [act] at hact
    split at hact
    · rename_i hopen
      obtain rfl := Option.some.inj hact
      exact ⟨first, h.send msg hopen.1 hmeets⟩
    · cases hact
  | subscribe =>
    rw [act] at hact
    split at hact
    · obtain rfl := Option.some.inj hact
      exact ⟨first, h.subscribe⟩
    · cases hact
  | drop i =>
    obtain ⟨sub, hsub, rfl⟩ := act_drop hact
    exact ⟨first, h.drop hsub⟩
  | close =>
    rw [act] at hact
    split at hact
    · obtain rfl := Option.some.inj hact
      exact ⟨first, h.close⟩
    · cases hact
  | lock i =>
    obtain ⟨sub, hsub, hhold, hpc, rfl⟩ := act_lock.mp hact
    exact h.lock hsub hhold hpc hmeets
  | recv i =>
    obtain ⟨sub, hsub, hpc, hrecv⟩ := act_recv.mp hact
    rcases hrecv with ⟨msg, rest, hqueue, rfl⟩ | ⟨hqueue, hclosed, rfl⟩
    · exact ⟨first, h.recv hsub hpc hqueue⟩
    · exact ⟨first, h.ended hsub hpc hqueue hclosed⟩
  | forward i =>
    obtain ⟨sub, msg, hsub, hpc, hforward⟩ := act_forward.mp hact
    rcases hforward with ⟨-, -, rfl⟩ | ⟨hdead, rfl⟩
    · exact ⟨first, h.forward hsub hpc (.inl rfl)⟩
    · exact ⟨first, h.forward hsub hpc (.inr ⟨hdead, rfl⟩)⟩
  | next i =>
    obtain ⟨sub, msg, rest, hsub, -, hbuf, rfl⟩ := act_next.mp hact
    exact ⟨first, h.next hsub hbuf⟩

/-- **Who is owed anything is served.** -/
theorem served (h : Books s first) (hsub : s.subs[i]? = some sub) (hlive : sub.live = true) :
    s.Served buffer sub := by
  by_cases hfirst : first = some i
  · -- the first gets everything
    have howner := h.owner i sub hsub hfirst hlive
    refine ⟨s.sent.take sub.born, List.suffix_rfl, ?_, fun hquiet => ?_⟩
    · rw [List.take_append_drop]
      refine ⟨sub.buffer ++ sub.pc.hand ++ s.queue, ?_⟩
      rw [← howner]
      simp
    · rw [List.take_append_drop]
      have hbuf : sub.buffer = [] := by
        cases hbuf : sub.buffer with
        | nil => rfl
        | cons msg rest =>
          exact (hquiet.not_act rfl (act_next.mpr ⟨sub, msg, rest, hsub, hlive, hbuf, rfl⟩)).elim
      have hhand : sub.pc.hand = [] := by
        cases hpc : sub.pc with
        | forwarding msg =>
          have hroom : sub.buffer.length < streamCapacity := by
            rw [hbuf]
            exact Nat.zero_lt_succ 999
          exact (hquiet.not_act rfl
            (act_forward.mpr ⟨sub, msg, hsub, hpc, .inl ⟨hlive, hroom, rfl⟩⟩)).elim
        | _ => rfl
      have hqueue : s.queue = [] := by
        rcases h.through (by simp [hfirst]) with heq | ⟨hnil, -⟩
        · -- it has the receiver and nothing in its hands, so it receives
          obtain ⟨sub₀, hsub₀, hholds⟩ := h.holder i (heq.trans hfirst)
          obtain rfl := Option.some.inj (hsub.symm.trans hsub₀)
          have hpc : sub.pc = .receiving := by
            cases hpc : sub.pc with
            | receiving => rfl
            | forwarding msg =>
              rw [hpc] at hhand
              cases hhand
            | _ =>
              rw [hpc] at hholds
              cases hholds
          cases hqueue : s.queue with
          | nil => rfl
          | cons msg rest =>
            exact (hquiet.not_act rfl
              (act_recv.mpr ⟨sub, hsub, hpc, .inl ⟨msg, rest, hqueue, rfl⟩⟩)).elim
        · exact hnil
      rw [← howner, hbuf, hhand, hqueue]
      simp
  · obtain ⟨hgot, -, -⟩ := h.others i sub hsub hfirst
    cases hnone : first with
    | none =>
      -- a task that was never started is not at rest
      refine ⟨[], List.nil_suffix, by rw [hgot]; exact List.nil_prefix, fun hquiet => ?_⟩
      exact (hquiet.not_act rfl (act_lock.mpr
        ⟨sub, hsub, (h.fresh hnone).2, h.untaken hnone i sub hsub, rfl⟩)).elim
    | some j =>
      have hborn := h.idle i sub hsub hfirst (by simp [hnone]) hlive
      have hdrop : s.sent.drop sub.born = [] := by rw [hborn, List.drop_length]
      refine ⟨[], List.nil_suffix, by rw [hgot]; exact List.nil_prefix, fun _ => ?_⟩
      rw [hgot, hdrop]
      rfl

end Books

/-! ## To rest -/

/-- The steps that a subscription has before it. -/
def weightOf (sub : Subscription M) : ℕ :=
  sub.pc.rank + 2 * sub.pc.hand.length + sub.buffer.length

/-- The steps that the tasks and the readers have before them. -/
def weight (s : InMemoryBus M) : ℕ := 3 * s.queue.length + (s.subs.map weightOf).sum

theorem sum_set {α : Type} (w : α → ℕ) {xs : List α} {i : ℕ} {x : α} (h : xs[i]? = some x)
    (y : α) : ((xs.set i y).map w).sum + w x = (xs.map w).sum + w y := by
  induction xs generalizing i with
  | nil => cases h
  | cons z zs ih =>
    cases i with
    | zero =>
      obtain rfl := Option.some.inj h
      simp only [List.set_cons_zero, List.map_cons, List.sum_cons]
      omega
    | succ i =>
      have hrest := ih (i := i) (by simpa using h)
      simp only [List.set_cons_succ, List.map_cons, List.sum_cons]
      omega

/-- **A step of a task or of a reader is one step less.** -/
theorem weight_lt {a : Action M} (ha : a.forwards = true) (hact : s.act buffer a = some s') :
    s'.weight < s.weight := by
  cases a with
  | lock i =>
    obtain ⟨sub, hsub, -, hpc, rfl⟩ := act_lock.mp hact
    have hsum := sum_set weightOf hsub { sub with pc := .receiving }
    simp only [weightOf, hpc, ForwarderPc.rank, ForwarderPc.hand, List.length_nil] at hsum
    simp only [weight, setSub]
    omega
  | recv i =>
    obtain ⟨sub, hsub, hpc, hrecv⟩ := act_recv.mp hact
    rcases hrecv with ⟨msg, rest, hqueue, rfl⟩ | ⟨-, -, rfl⟩
    · have hsum := sum_set weightOf hsub { sub with pc := .forwarding msg }
      simp only [weightOf, hpc, ForwarderPc.rank, ForwarderPc.hand, List.length_nil,
        List.length_singleton] at hsum
      simp only [weight, setSub, hqueue, List.length_cons]
      omega
    · have hsum := sum_set weightOf hsub { sub with pc := .ended }
      simp only [weightOf, hpc, ForwarderPc.rank, ForwarderPc.hand, List.length_nil] at hsum
      simp only [weight, setSub]
      omega
  | forward i =>
    obtain ⟨sub, msg, hsub, hpc, hforward⟩ := act_forward.mp hact
    rcases hforward with ⟨-, -, rfl⟩ | ⟨-, rfl⟩
    · have hsum := sum_set weightOf hsub
        { sub with pc := .receiving, buffer := sub.buffer ++ [msg] }
      simp only [weightOf, hpc, ForwarderPc.rank, ForwarderPc.hand, List.length_nil,
        List.length_singleton, List.length_append] at hsum
      simp only [weight, setSub]
      omega
    · have hsum := sum_set weightOf hsub { sub with pc := .receiving }
      simp only [weightOf, hpc, ForwarderPc.rank, ForwarderPc.hand, List.length_nil,
        List.length_singleton] at hsum
      simp only [weight, setSub]
      omega
  | next i =>
    obtain ⟨sub, msg, rest, hsub, -, hbuf, rfl⟩ := act_next.mp hact
    have hsum := sum_set weightOf hsub { sub with buffer := rest, got := sub.got ++ [msg] }
    simp only [weightOf, hbuf, List.length_cons] at hsum
    simp only [weight, setSub]
    omega
  | _ => cases ha

theorem of_mem_owedSubs (h : i ∈ s.owedSubs) : ∃ sub : Subscription M, s.subs[i]? = some sub ∧
    sub.live = true ∧ sub.born < s.sent.length := by
  obtain ⟨-, hany⟩ := List.mem_filter.mp h
  cases hsub : s.subs[i]? with
  | none =>
    rw [hsub] at hany
    cases hany
  | some sub =>
    rw [hsub] at hany
    obtain ⟨hlive, hborn⟩ := Bool.and_eq_true_iff.mp hany
    exact ⟨sub, rfl, hlive, of_decide_eq_true hborn⟩

/-- A bus that is not at rest has a step that serves whom it should. -/
theorem Books.exists_step {first : Option ℕ} (h : Books s first) (hquiet : ¬ s.Quiet buffer) :
    ∃ (a : Action M) (s' : InMemoryBus M), a.forwards = true ∧ s.Meets a ∧
      s.act buffer a = some s' := by
  obtain ⟨a, ha, hne⟩ : ∃ a : Action M, a.forwards = true ∧ s.act buffer a ≠ none := by
    by_contra hall
    refine hquiet fun a ha => ?_
    by_contra hne
    exact hall ⟨a, ha, hne⟩
  obtain ⟨s', hact⟩ := Option.ne_none_iff_exists'.mp hne
  by_cases hmeets : s.Meets a
  · exact ⟨a, s', ha, hmeets, hact⟩
  · cases a with
    | lock j =>
      -- the one that the messages are for takes the receiver instead
      obtain ⟨-, -, hhold, -, -⟩ := act_lock.mp hact
      have hexists : s.queue.isEmpty = false ∧ ∃ i ∈ s.owedSubs, i ≠ j := by
        by_contra hnone
        refine hmeets fun hempty i hi => ?_
        by_contra hij
        exact hnone ⟨hempty, i, hi, hij⟩
      obtain ⟨hempty, i, hi, -⟩ := hexists
      obtain ⟨sub, hsub, hlive, hborn⟩ := of_mem_owedSubs hi
      have hnone : first = none := by
        by_contra hsome
        rcases h.through hsome with heq | ⟨hnil, -⟩
        · exact hsome (heq.symm.trans hhold)
        · rw [hnil] at hempty
          cases hempty
      refine ⟨.lock i, _, rfl, fun _ k hk => ?_,
        act_lock.mpr ⟨sub, hsub, hhold, h.untaken hnone i sub hsub, rfl⟩⟩
      obtain ⟨sub', hsub', hlive', hborn'⟩ := of_mem_owedSubs hk
      exact h.one hnone k i sub' sub hsub' hsub hlive' hlive hborn' hborn
    | recv | forward | next => exact absurd trivial hmeets
    | _ => cases ha

/-- **The tasks and the readers alone bring the bus to rest.** -/
theorem Books.exists_quiet (n : ℕ) {first : Option ℕ} (h : Books s first) (hn : s.weight ≤ n) :
    ∃ s', Runs (act buffer) (fun s a => s.Meets a ∧ a.forwards = true) s s' ∧
      s'.Quiet buffer := by
  induction n generalizing s first with
  | zero =>
    refine ⟨s, .refl, fun a ha => ?_⟩
    cases hact : s.act buffer a with
    | none => rfl
    | some s' => exact absurd (weight_lt ha hact) (by omega)
  | succ n ih =>
    by_cases hquiet : s.Quiet buffer
    · exact ⟨s, .refl, hquiet⟩
    · obtain ⟨a, s₁, ha, hmeets, hact⟩ := h.exists_step hquiet
      obtain ⟨first', h₁⟩ := h.step hmeets hact
      have hlt := weight_lt ha hact
      obtain ⟨s', hrun, hquiet'⟩ := ih h₁ (by omega)
      exact ⟨s', (Runs.step .refl ⟨hmeets, ha⟩ hact).trans hrun, hquiet'⟩

/-! ## Every run -/

/-- **Every live subscriber is served**, at every moment of such a run, and the bus can always come
    to rest. -/
theorem served_of_run (h : Runs (act buffer) Meets (new : InMemoryBus M) s) :
    (∀ (i : ℕ) (sub : Subscription M), s.subs[i]? = some sub → sub.live = true →
      s.Served buffer sub) ∧
    ∃ s', Runs (act buffer) (fun s a => s.Meets a ∧ a.forwards = true) s s' ∧
      s'.Quiet buffer := by
  have hbooks : ∃ first, Books s first := by
    induction h with
    | refl => exact ⟨none, .start⟩
    | step _ hmeets hact ih =>
      obtain ⟨first, hs⟩ := ih
      exact hs.step hmeets hact
  obtain ⟨first, hbooks⟩ := hbooks
  exact ⟨fun i sub hsub hlive => hbooks.served hsub hlive, hbooks.exists_quiet _ le_rfl⟩

/-- An agent that has taken another's place before anything was sent has got two of three messages;
    a third agent has come since. -/
def replaced : InMemoryBus ℕ :=
  { queue := [7]
    sent := [5, 6, 7]
    holder := some 1
    subs := [⟨0, false, .waiting, [], []⟩, ⟨0, true, .receiving, [], [5, 6]⟩,
      ⟨3, true, .waiting, [], []⟩]
    closed := false }

theorem served_of_run_replaced : Runs (act 10) Meets (new : InMemoryBus ℕ) replaced ∧
    replaced.Served 10 ⟨0, true, .receiving, [], [5, 6]⟩ := by
  have hrun : Runs (act 10) Meets (new : InMemoryBus ℕ) replaced :=
    .of_script (show script (act 10) Meets new
      [.subscribe, .drop 0, .subscribe, .lock 1, .send 5, .send 6, .recv 1, .forward 1, .next 1,
        .recv 1, .send 7, .subscribe, .forward 1, .next 1] = some replaced from rfl)
  exact ⟨hrun, (served_of_run hrun).1 1 _ rfl rfl⟩

/-- Two agents. The task of the first has the receiver. -/
def twoAgents : InMemoryBus ℕ :=
  { queue := []
    sent := [5]
    holder := some 0
    subs := [⟨0, true, .receiving, [], [5]⟩, ⟨0, true, .waiting, [], []⟩]
    closed := false }

theorem quiet_twoAgents : twoAgents.Quiet 10 := by
  intro a ha
  cases a with
  | lock i => rcases i with _ | _ | n <;> simp [act, twoAgents]
  | recv i => rcases i with _ | _ | n <;> simp [act, twoAgents, recvBy]
  | forward i => rcases i with _ | _ | n <;> simp [act, twoAgents]
  | next i => rcases i with _ | _ | n <;> simp [act, twoAgents]
  | _ => cases ha

/-- **The second of two agents is not served.** -/
theorem not_served_two :
    ¬ ∀ (buffer : ℕ) (s : InMemoryBus ℕ), Runs (act buffer) Always new s →
      ∀ (i : ℕ) (sub : Subscription ℕ), s.subs[i]? = some sub → sub.live = true →
        s.Served buffer sub := by
  intro h
  have hrun : Runs (act 10) Always (new : InMemoryBus ℕ) twoAgents :=
    .of_script (show script (act 10) Always new
      [.subscribe, .subscribe, .lock 0, .send 5, .recv 0, .forward 0, .next 0] =
        some twoAgents from rfl)
  obtain ⟨earlier, -, -, hall⟩ := h 10 twoAgents hrun 1 _ rfl rfl
  have hgot : [] = earlier ++ [5] := hall quiet_twoAgents
  exact absurd hgot.symm (List.append_ne_nil_of_right_ne_nil _ (List.cons_ne_nil _ _))

end InMemoryBus

end Argunix.AgentFlow
