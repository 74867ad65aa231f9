import Argunix.Lib.Stops
import Argunix.Sched.Drain
import Argunix.Sched.Flat

/-!
# `argunix-daemon`: the generic dispatch loop

`drive` asks a strategy for work and spawns all it gets, then joins one task and tells the strategy
how it ended, until nothing is in flight and nothing is queued. Three things go wrong.

* **The alias completions of `complete` are dropped.** Of two Jobs with one head derivation the
  first is spawned, and of the second nobody hears again.
* The token of a task that panicked is lost with it, and the strategy is told nothing. What waits
  for the derivation is neither spawned nor skipped, and the slot stays taken.
* With no slot free, nothing in flight and something queued the loop does not end, and does not
  wait either. A cap of zero is enough for that.

`delivers_iff` says that these are all: `drive` returns and delivers every verdict, as long as no
task panics, if and only if there is a slot, and no two Jobs of a `DagStrategy` have one head
derivation.
-/

set_option autoImplicit false

namespace Argunix.Daemon

open Argunix.Lib Argunix.Sched
open Relation (ReflTransGen TransGen)

/-! ## The loop -/

/-- Where the loop stands. -/
inductive DrivePhase
  | dispatching
  /-- It waits for `join_next`. -/
  | joining
  | returned
deriving DecidableEq, Repr

/-- How a task ends. -/
inductive TaskOutcome
  | resolved (status : JobStatus)
  | panicked
deriving DecidableEq, Repr

structure Driver (S : Type) where
  strategy : S
  /-- The `JoinSet`. -/
  set : List Dispatched
  phase : DrivePhase
  spawned : List Dispatched
  /-- The calls of `on_skip`. -/
  skips : List CascadedSkip
  /-- The alias completions, which nobody reads. -/
  dropped : List AliasCompletion

namespace Driver

variable {T S : Type}

/-- `drive` is called. -/
def start (strategy : S) : Driver S := ⟨strategy, [], .dispatching, [], [], []⟩

def spawn (u : Driver S) (d : Dispatched) (strategy : S) : Driver S :=
  { u with strategy := strategy, set := u.set ++ [d], spawned := u.spawned ++ [d] }

/-- `dispatch` has answered nothing. -/
def idle (u : Driver S) (strategy : S) (pendingCount : ℕ) : Driver S :=
  { u with
    strategy := strategy
    phase := if u.set = [] ∧ pendingCount = 0 then .returned else .joining }

def join (u : Driver S) (d : Dispatched) (strategy : S) (effects : CompletionEffects) : Driver S :=
  { u with
    strategy := strategy
    set := u.set.erase d
    phase := .dispatching
    skips := u.skips ++ effects.cascadedSkips
    dropped := u.dropped ++ effects.aliasCompletions }

/-- The token of the task is unknown. -/
def joinPanicked (u : Driver S) (d : Dispatched) : Driver S :=
  { u with set := u.set.erase d, phase := .dispatching }

/-- One step, the maps of the strategy in any order before it. The tasks end as `ok` allows. It is
    not cancelled. -/
inductive Step (K : ScheduleStrategy T S) (ok : TaskOutcome → Prop) (u : Driver S) :
    Driver S → Prop
  | spawn {s₁ s : S} {d : Dispatched} {l : Ledger T} : u.phase = .dispatching →
      K.Shuffle u.strategy s₁ → K.Does s₁ .dispatch (.dispatched (some d)) s l →
      Step K ok u (u.spawn d s)
  | idle {s₁ s : S} {l : Ledger T} : u.phase = .dispatching →
      K.Shuffle u.strategy s₁ → K.Does s₁ .dispatch (.dispatched none) s l →
      Step K ok u (u.idle s (K.pendingCount s))
  | join {s₁ s : S} {d : Dispatched} {status : JobStatus} {effects : CompletionEffects}
      {l : Ledger T} : u.phase = .joining → d ∈ u.set → ok (.resolved status) →
      K.Shuffle u.strategy s₁ → K.Does s₁ (.complete d.token status) (.completed effects) s l →
      Step K ok u (u.join d s effects)
  | panicked {d : Dispatched} : u.phase = .joining → d ∈ u.set → ok .panicked →
      Step K ok u (u.joinPanicked d)
  /-- `join_next` returns at once if there is nothing to join. -/
  | empty : u.phase = .joining → u.set = [] → Step K ok u { u with phase := .dispatching }

/-- How often a Job was handed to `spawn` or to `on_skip`. -/
def verdicts (u : Driver S) (j : JobId) : ℕ :=
  u.spawned.countP (fun d => d.headJob = some j) + u.skips.countP fun skip => skip.jobId = j

end Driver

/-- What enqueueing `items` in this order into a new strategy may leave. -/
inductive Loads {T S : Type} (K : ScheduleStrategy T S) (cap : Option ℕ) :
    List ScheduleItem → S → Prop
  | new : Loads K cap [] (K.new cap)
  | setWeight {items : List ScheduleItem} {s s₁ s' : S} {r : RepoId} {w : ℕ} {l : Ledger T} :
      Loads K cap items s → K.Shuffle s s₁ → K.Does s₁ (.setWeight r w) .unit s' l →
      Loads K cap items s'
  | enqueue {items : List ScheduleItem} {s s₁ s' : S} {item : ScheduleItem} {l : Ledger T} :
      Loads K cap items s → K.Shuffle s s₁ → K.Does s₁ (.enqueue item) .unit s' l →
      Loads K cap (items ++ [item]) s'

/-- **`drive` returns, and by then every Job was delivered once**, in every order in which the tasks
    may end, and however they end among the allowed outcomes. -/
structure Delivers {T S : Type} (K : ScheduleStrategy T S) (ok : TaskOutcome → Prop)
    (cap : Option ℕ) (items : List ScheduleItem) : Prop where
  stops : ∀ s, Loads K cap items s → Stops (Driver.Step K ok) (Driver.start s)
  goesOn : ∀ s u, Loads K cap items s → ReflTransGen (Driver.Step K ok) (Driver.start s) u →
    u.phase ≠ .returned → ∃ v, Driver.Step K ok u v
  delivered : ∀ s u, Loads K cap items s → ReflTransGen (Driver.Step K ok) (Driver.start s) u →
    u.phase = .returned → ∀ item ∈ items, u.verdicts item.jobId = 1

/-- No task panics. -/
def Resolves (outcome : TaskOutcome) : Prop := ∃ status, outcome = .resolved status

/-- There is a slot, or nothing to be done. -/
def HasSlot (cap : Option ℕ) (items : List ScheduleItem) : Prop := cap ≠ some 0 ∨ items = []

/-! ## Following a run -/

section Follows

variable {T S : Type} {K : ScheduleStrategy T S} {cap : Option ℕ} {items : List ScheduleItem}
  {I : Driver S → Prop} {rest : S → ℕ}

/-- What has to be known of a strategy: `I` is kept by every step, `rest` bounds the dispatches that
    are still to come, and a strategy that answers nothing while nothing is in flight has nothing
    queued and has delivered everything. -/
structure Follows (K : ScheduleStrategy T S) (cap : Option ℕ) (items : List ScheduleItem)
    (I : Driver S → Prop) (rest : S → ℕ) : Prop where
  started : ∀ {s}, Loads K cap items s → I (Driver.start s)
  phase : ∀ {u} p, I u → I { u with phase := p }
  spawn : ∀ {u s₁ s d l}, I u → K.Shuffle u.strategy s₁ →
    K.Does s₁ .dispatch (.dispatched (some d)) s l → I (u.spawn d s) ∧ rest s < rest u.strategy
  idle : ∀ {u s₁ s l}, I u → K.Shuffle u.strategy s₁ →
    K.Does s₁ .dispatch (.dispatched none) s l →
    I { u with strategy := s } ∧ rest s ≤ rest u.strategy ∧
      (u.set = [] → K.pendingCount s = 0 ∧ ∀ item ∈ items, u.verdicts item.jobId = 1)
  join : ∀ {u s₁ s d status effects l}, I u → d ∈ u.set → K.Shuffle u.strategy s₁ →
    K.Does s₁ (.complete d.token status) (.completed effects) s l →
    I (u.join d s effects) ∧ rest s ≤ rest u.strategy

/-- The strategy answers every call. -/
structure Answers (K : ScheduleStrategy T S) : Prop where
  same : ∀ s, K.Shuffle s s
  dispatch : ∀ s, ∃ o s' l, K.Does s .dispatch (.dispatched o) s' l
  complete : ∀ s token status, ∃ effects s' l,
    K.Does s (.complete token status) (.completed effects) s' l
  enqueue : ∀ s item, ∃ s' l, K.Does s (.enqueue item) .unit s' l

/-- What holds in every state of a run: the loop never waits for nothing, and when it has returned
    everything is delivered. -/
structure Driving (items : List ScheduleItem) (I : Driver S → Prop) (u : Driver S) : Prop where
  inv : I u
  waits : u.phase = .joining → u.set ≠ []
  delivered : u.phase = .returned → ∀ item ∈ items, u.verdicts item.jobId = 1

/-- The dispatches to come and the tasks to be joined. -/
def Driver.left (rest : S → ℕ) (u : Driver S) : ℕ :=
  4 * rest u.strategy + 2 * u.set.length + if u.phase = .dispatching then 1 else 0

theorem Follows.step (h : Follows K cap items I rest) {u v : Driver S} (hu : Driving items I u)
    (hstep : Driver.Step K Resolves u v) : Driving items I v ∧ v.left rest < u.left rest := by
  cases hstep with
  | spawn hphase hs hd =>
    obtain ⟨hinv, hrest⟩ := h.spawn hu.inv hs hd
    refine ⟨⟨hinv, ?_, ?_⟩, ?_⟩
    · intro hp
      exact absurd (hphase.symm.trans hp) (by decide)
    · intro hp
      exact absurd (hphase.symm.trans hp) (by decide)
    · simp only [Driver.left, Driver.spawn, hphase, List.length_append, List.length_singleton,
        if_true]
      omega
  | @idle s₁ s l hphase hs hd =>
    obtain ⟨hinv, hrest, hdone⟩ := h.idle hu.inv hs hd
    by_cases hset : u.set = []
    · -- nothing is in flight, so it returns
      obtain ⟨hpending, hall⟩ := hdone hset
      have hidle : u.idle s (K.pendingCount s) = { u with strategy := s, phase := .returned } := by
        rw [Driver.idle, if_pos ⟨hset, hpending⟩]
      rw [hidle]
      refine ⟨⟨h.phase .returned hinv, fun hp => absurd hp (by simp), fun _ => hall⟩, ?_⟩
      simp only [Driver.left, hphase, if_true, reduceCtorEq, if_false]
      omega
    · have hidle : u.idle s (K.pendingCount s) = { u with strategy := s, phase := .joining } := by
        rw [Driver.idle, if_neg fun hp => hset hp.1]
      rw [hidle]
      refine ⟨⟨h.phase .joining hinv, fun _ => hset, fun hp => absurd hp (by simp)⟩, ?_⟩
      simp only [Driver.left, hphase, if_true, reduceCtorEq, if_false]
      omega
  | join hphase hmem hok hs hd =>
    obtain ⟨hinv, hrest⟩ := h.join hu.inv hmem hs hd
    have hlen := List.length_erase_of_mem hmem
    have hpos := List.length_pos_of_mem hmem
    refine ⟨⟨hinv, fun hp => absurd hp (by simp [Driver.join]),
      fun hp => absurd hp (by simp [Driver.join])⟩, ?_⟩
    simp only [Driver.left, Driver.join, hphase, reduceCtorEq, if_false, if_true]
    omega
  | panicked _ _ hok =>
    obtain ⟨status, hstatus⟩ := hok
    cases hstatus
  | empty hphase hset => exact absurd hset (hu.waits hphase)

theorem Answers.goesOn (h : Answers K) {ok : TaskOutcome → Prop} {status : JobStatus}
    (hok : ok (.resolved status)) {u : Driver S} (hphase : u.phase ≠ .returned) :
    ∃ v, Driver.Step K ok u v := by
  cases hp : u.phase with
  | returned => exact absurd hp hphase
  | dispatching =>
    obtain ⟨o, s', l, hd⟩ := h.dispatch u.strategy
    cases o with
    | none => exact ⟨_, .idle hp (h.same _) hd⟩
    | some d => exact ⟨_, .spawn hp (h.same _) hd⟩
  | joining =>
    cases hset : u.set with
    | nil => exact ⟨_, .empty hp hset⟩
    | cons d ds =>
      obtain ⟨effects, s', l, hd⟩ := h.complete u.strategy d.token status
      exact ⟨_, .join hp (hset ▸ List.mem_cons_self) hok (h.same _) hd⟩

/-- **A strategy that is followed is delivered.** -/
theorem Follows.delivers (h : Follows K cap items I rest) (hanswers : Answers K) :
    Delivers K Resolves cap items := by
  have hstart : ∀ {s}, Loads K cap items s → Driving items I (Driver.start s) := by
    intro s hs
    exact ⟨h.started hs, fun hp => absurd hp (by simp [Driver.start]),
      fun hp => absurd hp (by simp [Driver.start])⟩
  refine ⟨fun s hs => ?_, fun s u hs _ hphase => ?_, fun s u hs hrun hphase => ?_⟩
  · exact Stops.of_measure (μ := Driver.left rest) (fun hu hstep => h.step hu hstep) (hstart hs)
  · have hok : Resolves (.resolved .success) := ⟨_, rfl⟩
    exact hanswers.goesOn hok hphase
  · have hu : Driving items I u := by
      clear hphase
      induction hrun with
      | refl => exact hstart hs
      | tail _ hstep ih => exact (h.step ih hstep).1
    exact hu.delivered hphase

theorem Answers.loads (h : Answers K) (cap : Option ℕ) (items : List ScheduleItem) :
    ∃ s, Loads K cap items s := by
  induction items using List.reverseRecOn with
  | nil => exact ⟨_, .new⟩
  | append_singleton items item ih =>
    obtain ⟨s, hs⟩ := ih
    obtain ⟨s', l, hd⟩ := h.enqueue s item
    exact ⟨s', .enqueue hs (h.same s) hd⟩

/-! ## Without a slot -/

/-- **Without a slot the loop turns on the spot**, as long as something is queued. -/
theorem spins {ok : TaskOutcome → Prop} {s : S} {l : Ledger T} (hsame : K.Shuffle s s)
    (hd : K.Does s .dispatch (.dispatched none) s l) (hpending : K.pendingCount s ≠ 0) :
    ¬ Stops (Driver.Step K ok) (Driver.start s) := by
  intro hstops
  have hidle : Driver.Step K ok (Driver.start s) { Driver.start s with phase := .joining } := by
    have hstep : Driver.Step K ok (Driver.start s) _ := .idle rfl hsame hd
    rw [Driver.idle, if_neg fun h => hpending h.2] at hstep
    exact hstep
  have hempty : Driver.Step K ok { Driver.start s with phase := .joining } (Driver.start s) :=
    .empty rfl rfl
  exact hstops.not_cycle (.tail (.single hidle) hempty)

/-! ## With panics -/

theorem Loads.runs {s : S} (h : Loads K cap items s) :
    ∃ ledger, K.Runs cap ⟨s, items, [], ledger⟩ := by
  induction h with
  | new => exact ⟨_, .new⟩
  | setWeight _ hs hd ih =>
    obtain ⟨ledger, hrun⟩ := ih
    exact ⟨_, (hrun.shuffle hs).call hd⟩
  | enqueue _ hs hd ih =>
    obtain ⟨ledger, hrun⟩ := ih
    exact ⟨_, (hrun.shuffle hs).call hd⟩

/-- A run in which every task panics. To the strategy all that was spawned is still in flight. -/
structure Panicking (K : ScheduleStrategy T S) (cap : Option ℕ) (items : List ScheduleItem)
    (ok : TaskOutcome → Prop) (s : S) (u : Driver S) : Prop where
  held : ∃ ledger, K.Runs cap ⟨u.strategy, items, u.spawned, ledger⟩
  run : ReflTransGen (Driver.Step K ok) (Driver.start s) u
  skips : u.skips = []

theorem Panicking.goesOn (hanswers : Answers K) {ok : TaskOutcome → Prop} (hok : ok .panicked)
    {s : S} {u : Driver S} (h : Panicking K cap items ok s u) :
    u.phase = .returned ∨ ∃ v, Driver.Step K ok u v ∧ Panicking K cap items ok s v := by
  obtain ⟨ledger, hrun⟩ := h.held
  cases hp : u.phase with
  | returned => exact Or.inl rfl
  | dispatching =>
    right
    obtain ⟨o, s', l, hd⟩ := hanswers.dispatch u.strategy
    cases o with
    | none =>
      have hstep : Driver.Step K ok u _ := .idle hp (hanswers.same _) hd
      exact ⟨_, hstep, ⟨_, hrun.call hd⟩, h.run.tail hstep, h.skips⟩
    | some d =>
      have hstep : Driver.Step K ok u _ := .spawn hp (hanswers.same _) hd
      exact ⟨_, hstep, ⟨_, hrun.call hd⟩, h.run.tail hstep, h.skips⟩
  | joining =>
    right
    cases hset : u.set with
    | nil =>
      have hstep : Driver.Step K ok u _ := .empty hp hset
      exact ⟨_, hstep, h.held, h.run.tail hstep, h.skips⟩
    | cons d ds =>
      have hstep : Driver.Step K ok u _ := .panicked hp (hset ▸ List.mem_cons_self) hok
      exact ⟨_, hstep, h.held, h.run.tail hstep, h.skips⟩

/-- **Every panic costs a slot**: with more Jobs than slots some are never told. -/
theorem not_delivers_of_panic (hanswers : Answers K) (hhonest : K.Honest)
    (hnd : (items.map (·.jobId)).Nodup) {n : ℕ} (hn : n < items.length)
    {ok : TaskOutcome → Prop} (hok : ok .panicked) : ¬ Delivers K ok (some n) items := by
  intro hdelivers
  obtain ⟨s, hs⟩ := hanswers.loads (some n) items
  obtain ⟨u, _, hu, hreturned⟩ := (hdelivers.stops s hs).exists_end
    (I := Panicking K (some n) items ok s) (fun u => u.phase = .returned)
    ⟨hs.runs, .refl, rfl⟩ fun u hu => hu.goesOn hanswers hok
  -- every Job was spawned, and every task that was spawned has a slot
  have hsub : items.map (·.jobId) ⊆ u.spawned.filterMap (·.headJob) := by
    intro j hj
    obtain ⟨item, hitem, rfl⟩ := List.mem_map.mp hj
    have hone := hdelivers.delivered s u hs hu.run hreturned item hitem
    rw [Driver.verdicts, hu.skips, List.countP_nil, Nat.add_zero] at hone
    obtain ⟨d, hd, hjob⟩ := List.countP_pos_iff.mp (Nat.lt_of_lt_of_eq Nat.one_pos hone.symm)
    exact List.mem_filterMap.mpr ⟨d, hd, of_decide_eq_true hjob⟩
  have hspawned := (hnd.subperm hsub).length_le.trans (List.length_filterMap_le _ _)
  rw [List.length_map] at hspawned
  obtain ⟨ledger, hrun⟩ := hu.held
  have hat := hhonest (some n) _ hrun hnd
  have hcap := hat.withinCap n rfl
  rw [hat.inFlight] at hcap
  exact absurd (hspawned.trans hcap) (Nat.not_le_of_lt hn)

/-! ## With nothing to do -/

theorem pendingCount_of_loads (hnew : K.pendingCount (K.new cap) = 0)
    (hweight : ∀ s s₁ r w s' l, K.pendingCount s = 0 → K.Shuffle s s₁ →
      K.Does s₁ (.setWeight r w) .unit s' l → K.pendingCount s' = 0)
    {s : S} (h : Loads K cap items s) (hnil : items = []) : K.pendingCount s = 0 := by
  induction h with
  | new => exact hnew
  | setWeight _ hs hd ih => exact hweight _ _ _ _ _ _ (ih hnil) hs hd
  | enqueue => exact absurd hnil (by simp)

/-- With nothing queued it returns at once. -/
theorem follows_nil (hnew : K.pendingCount (K.new cap) = 0)
    (hweight : ∀ s s₁ r w s' l, K.pendingCount s = 0 → K.Shuffle s s₁ →
      K.Does s₁ (.setWeight r w) .unit s' l → K.pendingCount s' = 0)
    (hempty : ∀ s s₁ o s' l, K.pendingCount s = 0 → K.Shuffle s s₁ →
      K.Does s₁ .dispatch (.dispatched o) s' l → o = none ∧ K.pendingCount s' = 0) :
    Follows K cap [] (fun u => u.set = [] ∧ K.pendingCount u.strategy = 0) fun _ => 0 where
  started := fun hs => ⟨rfl, pendingCount_of_loads hnew hweight hs rfl⟩
  phase := fun _ h => h
  spawn := fun h hs hd => absurd (hempty _ _ _ _ _ h.2 hs hd).1 (by simp)
  idle := fun h hs hd =>
    have hzero := (hempty _ _ _ _ _ h.2 hs hd).2
    ⟨⟨h.1, hzero⟩, Nat.le_refl _, fun _ => ⟨hzero, fun _ hitem => absurd hitem (by simp)⟩⟩
  join := fun h hmem _ _ => absurd (h.1 ▸ hmem) (by simp)

end Follows

section Empty

variable {T : Type} [DecidableEq T] {c : WfqCore T}

theorem dispatch_of_empty (h : c.pendingCount = 0) : c.dispatch = (none, c) := by
  cases hd : c.dispatch with
  | mk o c' =>
    cases o with
    | none => rw [(WfqCore.dispatch_none hd).1]
    | some p =>
      have hpop := WfqCore.pendingCount_pop hd
      omega

theorem dispatch_of_noSlot (h : c.concurrencyCap = some 0) : c.dispatch = (none, c) := by
  have hfull : c.capReached = true := WfqCore.capReached_iff.mpr ⟨0, h, Nat.zero_le _⟩
  rw [WfqCore.dispatch, if_pos hfull]

theorem pendingCount_setWeight (h : c.pendingCount = 0) (r : RepoId) (w : ℕ) :
    (c.setWeight r w).pendingCount = 0 := by
  rw [WfqCore.pendingCount_eq_zero_iff] at h ⊢
  intro r' st hl
  rw [WfqCore.lookup_setWeight] at hl
  split at hl
  · rw [← Option.some.inj hl]
    cases hold : c.repos.lookup r with
    | none => rfl
    | some st₀ => exact h r st₀ hold
  · exact h r' st hl

end Empty

/-! ## The flat strategy -/

theorem erase_eq_filter {A B : Type} [DecidableEq A] [DecidableEq B] {f : A → B} {as : List A}
    (hnd : (as.map f).Nodup) {a : A} (ha : a ∈ as) :
    as.erase a = as.filter fun b => f b ≠ f a := by
  rw [(List.Nodup.of_map f hnd).erase_eq_filter]
  refine List.filter_congr fun b hb => ?_
  have hinj : f b = f a ↔ b = a :=
    ⟨fun heq => List.inj_on_of_nodup_map hnd hb ha heq, fun heq => heq ▸ rfl⟩
  simp [hinj, bne, beq_eq_decide]

namespace FlatDrive

variable {cap : Option ℕ} {items : List ScheduleItem} {s s' s₁ : FlatStrategy}

theorem logs_dispatched {o : Option Dispatched} {l : Ledger JobId}
    (h : FlatStrategy.Logs s .dispatch (.dispatched o) s' l) : s.dispatch = (o, s') := by
  generalize ha : DagStrategy.Answer.dispatched o = a at h
  cases h with
  | dispatch => exact Prod.ext (DagStrategy.Answer.dispatched.inj ha).symm rfl

theorem logs_completed {token : DispatchToken} {status : JobStatus} {effects : CompletionEffects}
    {l : Ledger JobId}
    (h : FlatStrategy.Logs s (.complete token status) (.completed effects) s' l) :
    s.complete token status = (effects, s') := by
  generalize ha : DagStrategy.Answer.completed effects = a at h
  cases h with
  | complete => exact Prod.ext (DagStrategy.Answer.completed.inj ha).symm rfl

theorem answers : Answers FlatStrategy.scheduleStrategy where
  same := fun _ => ⟨.refl _, .refl _, rfl, .refl _⟩
  dispatch := fun _ => ⟨_, _, _, .dispatch⟩
  complete := fun _ token status => ⟨_, _, _, .complete token status⟩
  enqueue := fun _ item => ⟨_, _, .enqueue item⟩

/-- Every Job is spawned or queued, and nothing is skipped. -/
structure Followed (cap : Option ℕ) (items : List ScheduleItem) (u : Driver FlatStrategy) :
    Prop where
  run : ∃ ledger, FlatStrategy.scheduleStrategy.Runs cap ⟨u.strategy, items, u.set, ledger⟩
  skips : u.skips = []
  counted : ∀ j, u.spawned.countP (fun d => d.headJob = some j) + u.strategy.wfq.queuedCount j =
    (items.map (·.jobId)).count j

/-- The books after a shuffle. -/
theorem Followed.books {u : Driver FlatStrategy} (h : Followed cap items u)
    (hnd : (items.map (·.jobId)).Nodup) (hs : FlatStrategy.Shuffle u.strategy s₁) :
    ∃ ledger, FlatStrategy.scheduleStrategy.Runs cap ⟨s₁, items, u.set, ledger⟩ ∧
      FlatStrategy.Books cap ⟨s₁, items, u.set, ledger⟩ := by
  obtain ⟨ledger, hrun⟩ := h.run
  have hrun' := hrun.shuffle hs
  exact ⟨ledger, hrun', FlatStrategy.Books.run hrun' hnd⟩

theorem Followed.started (h : Loads FlatStrategy.scheduleStrategy cap items s) :
    Followed cap items (Driver.start s) := by
  induction h with
  | new =>
    refine ⟨⟨_, .new⟩, rfl, fun j => ?_⟩
    simp [Driver.start, FlatStrategy.scheduleStrategy, FlatStrategy.new, WfqCore.new,
      WfqCore.queuedCount, HashMap.sumOver]
  | setWeight _ hs hd ih =>
    obtain ⟨⟨ledger, hrun⟩, _, hcount⟩ := ih
    refine ⟨⟨_, (hrun.shuffle hs).call hd⟩, rfl, fun j => ?_⟩
    cases hd with
    | setWeight r w =>
      rw [← hcount j]
      simp [Driver.start, FlatStrategy.setWeight, hs.wfq.queuedCount]
  | enqueue _ hs hd ih =>
    obtain ⟨⟨ledger, hrun⟩, _, hcount⟩ := ih
    refine ⟨⟨_, (hrun.shuffle hs).call hd⟩, rfl, fun j => ?_⟩
    cases hd with
    | enqueue item =>
      have hold := hcount j
      simp only [Driver.start, List.countP_nil, Nat.zero_add] at hold
      simp only [Driver.start, List.countP_nil, Nat.zero_add, FlatStrategy.enqueue,
        WfqCore.queuedCount_enqueue, hs.wfq.queuedCount, hold, List.map_append, List.map_cons,
        List.map_nil, List.count_append, List.count_singleton, beq_iff_eq]
      simp [eq_comm]

/-- Nothing enqueued, nothing to do. -/
theorem follows_empty : Follows FlatStrategy.scheduleStrategy cap []
    (fun u => u.set = [] ∧ u.strategy.pendingCount = 0) fun _ => 0 := by
  refine follows_nil rfl (fun s s₁ r w s' l hzero hs hd => ?_) fun s s₁ o s' l hzero hs hd => ?_
  · cases hd with
    | setWeight => exact pendingCount_setWeight (hs.wfq.pendingCount.trans hzero) r w
  · have hcore := dispatch_of_empty (hs.wfq.pendingCount.trans hzero)
    have hdis := logs_dispatched hd
    rw [FlatStrategy.dispatch, hcore] at hdis
    obtain ⟨rfl, rfl⟩ := Prod.mk.inj hdis
    exact ⟨rfl, hs.wfq.pendingCount.trans hzero⟩

/-- **The flat strategy is followed**, if it has a slot. -/
theorem follows (hcap : ∀ n, cap = some n → 0 < n) (hnd : (items.map (·.jobId)).Nodup) :
    Follows FlatStrategy.scheduleStrategy cap items (Followed cap items)
      FlatStrategy.pendingCount where
  started := Followed.started
  phase := fun _ h => ⟨h.run, h.skips, h.counted⟩
  spawn := by
    intro u s₁ s d l h hs hd
    obtain ⟨ledger, hrun, hbooks⟩ := h.books hnd hs
    have hdis := logs_dispatched hd
    rcases hbooks.dispatch_cases with ⟨_, hnone⟩ | ⟨p, c, d', hpop, _, hjob, hsome⟩
    · rw [hdis] at hnone
      cases hnone
    · rw [hdis] at hsome
      obtain ⟨hd', hs'⟩ := Prod.mk.inj hsome
      obtain rfl := Option.some.inj hd'
      refine ⟨⟨⟨_, hrun.call hd⟩, h.skips, fun j => ?_⟩, ?_⟩
      · have hqueued := WfqCore.queuedCount_pop hpop j
        have hold := h.counted j
        rw [← hs.wfq.queuedCount, hqueued] at hold
        rw [hs']
        simp only [Driver.spawn, List.countP_append, List.countP_singleton, hjob,
          Option.some.injEq, decide_eq_true_eq]
        have hif : (if p.tag = j then 1 else 0) = if j = p.tag then 1 else 0 := by
          simp [eq_comm]
        omega
      · have hpending : s₁.wfq.pendingCount = c.pendingCount + 1 := WfqCore.pendingCount_pop hpop
        have hsame := hs.wfq.pendingCount
        rw [hs']
        simp only [FlatStrategy.pendingCount]
        omega
  idle := by
    intro u s₁ s l h hs hd
    obtain ⟨ledger, hrun, hbooks⟩ := h.books hnd hs
    have hdis := logs_dispatched hd
    rcases hbooks.dispatch_cases with ⟨hcore, hnone⟩ | ⟨p, c, d', _, _, _, hsome⟩
    · rw [hdis] at hnone
      obtain rfl : s = s₁ := (Prod.mk.inj hnone).2
      refine ⟨⟨⟨ledger, hrun⟩, h.skips, fun j => ?_⟩, hs.wfq.pendingCount.le, fun hset => ?_⟩
      · rw [← h.counted j]
        exact congrArg _ (hs.wfq.queuedCount j)
      · have hpending : s.wfq.pendingCount = 0 := by
          refine (WfqCore.dispatch_none hcore).2.resolve_left fun hfull => ?_
          obtain ⟨n, hn, hle⟩ := WfqCore.capReached_iff.mp hfull
          have hpos := hcap n (hbooks.fits.capKept.symm.trans hn)
          have hlen : s.wfq.inFlightCount = u.set.length := hbooks.length_held
          have hfree : n ≤ u.set.length := hlen ▸ hle
          rw [hset] at hfree
          exact absurd hfree (Nat.not_le_of_lt hpos)
        refine ⟨hpending, fun item hitem => ?_⟩
        have hcount := h.counted item.jobId
        rw [← hs.wfq.queuedCount, WfqCore.queuedCount_eq_zero_of_pendingCount hpending,
          List.count_eq_one_of_mem hnd (List.mem_map_of_mem hitem)] at hcount
        rw [Driver.verdicts, h.skips]
        exact hcount
    · rw [hdis] at hsome
      cases (Prod.mk.inj hsome).1
  join := by
    intro u s₁ s d status effects l h hd hs hcomplete
    obtain ⟨ledger, hrun, hbooks⟩ := h.books hnd hs
    have heq := logs_completed hcomplete
    obtain ⟨j, hj, _⟩ := hbooks.popped d hd
    have hlook := (hbooks.tokens d.token j).mpr ⟨d, hd, rfl, hj⟩
    have htokens : (u.set.map (·.token)).Nodup := by
      refine List.Nodup.map_on (fun a ha b hb hab => ?_) (List.Nodup.of_map _ hbooks.nodup)
      obtain ⟨ja, hja, _⟩ := hbooks.popped a ha
      obtain ⟨jb, hjb, _⟩ := hbooks.popped b hb
      have hla := (hbooks.tokens a.token ja).mpr ⟨a, ha, rfl, hja⟩
      have hlb := (hbooks.tokens a.token jb).mpr ⟨b, hb, hab.symm, hjb⟩
      rw [hla] at hlb
      exact List.inj_on_of_nodup_map hbooks.nodup ha hb (hja.trans (hlb.trans hjb.symm))
    have hset : u.set.erase d = heldAfter u.set (.complete d.token status) (.completed effects) :=
      erase_eq_filter htokens hd
    have hcore : effects.cascadedSkips = [] ∧ effects.aliasCompletions = [] ∧
        s.wfq = (s₁.wfq.complete j).2 := by
      rw [FlatStrategy.complete, hlook] at heq
      obtain ⟨rfl, rfl⟩ := Prod.mk.inj heq
      exact ⟨rfl, rfl, rfl⟩
    obtain ⟨hskips, _, hwfq⟩ := hcore
    refine ⟨⟨⟨ledger ++ l, ?_⟩, ?_, fun j' => ?_⟩, ?_⟩
    · have hnext := hrun.call hcomplete
      rw [← hset] at hnext
      exact hnext
    · rw [Driver.join, h.skips, hskips]
      rfl
    · rw [← h.counted j', Driver.join, hwfq, WfqCore.queuedCount_complete, hs.wfq.queuedCount]
    · rw [FlatStrategy.pendingCount, hwfq, WfqCore.pendingCount_complete]
      exact hs.wfq.pendingCount.le

/-- **Without a slot nothing is delivered.** -/
theorem not_delivers_of_noSlot {ok : TaskOutcome → Prop} (hnd : (items.map (·.jobId)).Nodup)
    (hitems : items ≠ []) : ¬ Delivers FlatStrategy.scheduleStrategy ok (some 0) items := by
  intro hdelivers
  obtain ⟨s, hs⟩ := answers.loads (some 0) items
  have h : Followed (some 0) items (Driver.start s) := .started hs
  obtain ⟨ledger, _, hbooks⟩ := h.books hnd (answers.same s)
  have hdis : s.dispatch = (none, s) := by
    rw [FlatStrategy.dispatch, dispatch_of_noSlot hbooks.fits.capKept]
  have hlogs := FlatStrategy.Logs.dispatch (s := s)
  rw [hdis] at hlogs
  refine spins (answers.same s) hlogs (fun hzero => ?_) (hdelivers.stops s hs)
  obtain ⟨item, hitem⟩ := List.exists_mem_of_ne_nil items hitems
  have hcount := h.counted item.jobId
  simp only [Driver.start, List.countP_nil, Nat.zero_add,
    WfqCore.queuedCount_eq_zero_of_pendingCount hzero] at hcount
  exact List.count_eq_zero.mp hcount.symm (List.mem_map_of_mem hitem)

end FlatDrive

/-! ## The DAG strategy -/

namespace DagDrive

variable {cap : Option ℕ} {items : List ScheduleItem} {s s' s₁ : DagStrategy}

theorem logs_dispatched {o : Option Dispatched} {l : Ledger DispatchToken}
    (h : DagStrategy.Logs s .dispatch (.dispatched o) s' l) : s.dispatch = (o, s') := by
  generalize ha : DagStrategy.Answer.dispatched o = a at h
  cases h with
  | dispatch => exact Prod.ext (DagStrategy.Answer.dispatched.inj ha).symm rfl

theorem logs_completed {token : DispatchToken} {status : JobStatus} {effects : CompletionEffects}
    {l : Ledger DispatchToken}
    (h : DagStrategy.Logs s (.complete token status) (.completed effects) s' l) :
    s.complete token status = (effects, s') := by
  generalize ha : DagStrategy.Answer.completed effects = a at h
  cases h with
  | complete => exact Prod.ext (DagStrategy.Answer.completed.inj ha).symm rfl

theorem answers : Answers DagStrategy.scheduleStrategy where
  same := fun _ => .refl _
  dispatch := fun _ => ⟨_, _, _, .dispatch⟩
  complete := fun _ token status => ⟨_, _, _, .complete token status⟩
  enqueue := fun _ item => ⟨_, _, .enqueue item (.refl _)⟩

theorem enqueued (h : Loads DagStrategy.scheduleStrategy cap items s) :
    DagStrategy.Enqueued cap items s := by
  induction h with
  | new => exact .new
  | setWeight _ hs hd ih =>
    cases hd with
    | setWeight => exact .setWeight _ _ ih hs
  | enqueue _ hs hd ih =>
    cases hd with
    | enqueue _ hins => exact .enqueue _ ih hs hins

theorem dispatch_of_core (h : s.wfq.dispatch = (none, s.wfq)) : s.dispatch = (none, s) := by
  rw [DagStrategy.dispatch, DagStrategy.dispatchLoop, h]

/-- Nothing enqueued, nothing to do. -/
theorem follows_empty : Follows DagStrategy.scheduleStrategy cap []
    (fun u => u.set = [] ∧ u.strategy.pendingCount = 0) fun _ => 0 := by
  refine follows_nil rfl (fun s s₁ r w s' l hzero hs hd => ?_) fun s s₁ o s' l hzero hs hd => ?_
  · cases hd with
    | setWeight => exact pendingCount_setWeight (hs.wfq.pendingCount.trans hzero) r w
  · have hcore := dispatch_of_empty (hs.wfq.pendingCount.trans hzero)
    have hdis := logs_dispatched hd
    rw [dispatch_of_core hcore] at hdis
    obtain ⟨rfl, rfl⟩ := Prod.mk.inj hdis
    exact ⟨rfl, hs.wfq.pendingCount.trans hzero⟩

/-- A Step that has not been started. -/
def isWaiting : StepState → Bool
  | .pending | .ready => true
  | _ => false

/-- The Steps that have not been started. -/
def waiting (s : DagStrategy) : Finset String :=
  s.byDrv.keys.toFinset.filter fun k => (s.byDrv.lookup k).any fun st => isWaiting st.state

theorem mem_waiting {k : String} :
    k ∈ waiting s ↔ ∃ st, s.byDrv.lookup k = some st ∧ isWaiting st.state = true := by
  rw [waiting, Finset.mem_filter, List.mem_toFinset, Option.any_eq_true]
  constructor
  · exact And.right
  · intro ⟨st, hl, hw⟩
    exact ⟨AList.lookup_isSome.mp (by rw [hl]; rfl), st, hl, hw⟩

theorem waiting_shuffle (h : DagStrategy.Shuffle s s') : waiting s' = waiting s := by
  ext k
  rw [mem_waiting, mem_waiting, h.step]

/-- The Session of the loop. What was told to nobody is counted too. -/
structure Followed (cap : Option ℕ) (items : List ScheduleItem) (u : Driver DagStrategy) :
    Prop where
  session : ∃ σ : Session, Session.Draining cap items σ ∧ σ.strategy = u.strategy ∧
    σ.inFlight = u.set ∧ ∀ j, σ.log.countP (Event.announces j) =
      u.verdicts j + u.dropped.countP fun al => al.jobId = j

theorem Followed.started (hnd : (items.map (·.jobId)).Nodup)
    (h : Loads DagStrategy.scheduleStrategy cap items s) :
    Followed cap items (Driver.start s) :=
  ⟨Session.start s, .start (enqueued h).loaded hnd, rfl, rfl, fun _ => rfl⟩

theorem Followed.spawn (hnd : (items.map (·.jobId)).Nodup) {u : Driver DagStrategy}
    (h : Followed cap items u) (hs : DagStrategy.Shuffle u.strategy s₁) {d : Dispatched}
    (hd : s₁.dispatch = (some d, s)) :
    Followed cap items (u.spawn d s) ∧ (waiting s).card < (waiting u.strategy).card ∧
      d.headJob = (DagStrategy.jobsAt items d.drvPath).head? := by
  obtain ⟨σ, hσ, hstrategy, hset, hcount⟩ := h.session
  rw [← hstrategy] at hs ⊢
  have hnext := hσ.dispatch hnd hs
  rw [hd] at hnext
  refine ⟨⟨_, hnext, rfl, by rw [Driver.spawn, ← hset]; rfl, fun j => ?_⟩, ?_, ?_⟩
  · simp only [Session.record, List.countP_append, List.countP_singleton, hcount j,
      Driver.verdicts, Driver.spawn, Event.announces, decide_eq_true_eq]
    omega
  · have hb := hσ.tracks.books.shuffle hs
    have hspec := DagStrategy.dispatch_spec s₁ hb.known_token
    rw [hd] at hspec
    cases hspec with
    | @run c c' p k step hc hpop ht hl =>
      -- the Step is started, and no other is touched
      have hready := (hb.toTokens.swallowed hc).ready_of_pop hpop ht hl
      rw [← waiting_shuffle hs]
      refine Finset.card_lt_card
        (Finset.ssubset_iff_subset_ne.mpr ⟨fun k' hk' => ?_, fun heq => ?_⟩)
      · obtain ⟨st, hl', hw⟩ := mem_waiting.mp hk'
        rcases HashMap.lookup_modify_cases hl' with ⟨_, st₀, _, rfl⟩ | ⟨_, hl₀⟩
        · exact absurd hw (by simp [isWaiting])
        · exact mem_waiting.mpr ⟨st, hl₀, hw⟩
      · have hmem : k ∈ waiting s₁ := mem_waiting.mpr ⟨step, hl, by rw [hready]; rfl⟩
        rw [← heq] at hmem
        obtain ⟨st, hl', hw⟩ := mem_waiting.mp hmem
        rw [HashMap.lookup_modify_self hl, Option.some.injEq] at hl'
        rw [← hl'] at hw
        exact absurd hw (by simp [isWaiting])
  · have hb := hσ.tracks.books.shuffle hs
    have hspec := DagStrategy.dispatch_spec s₁ hb.known_token
    rw [hd] at hspec
    cases hspec with
    | @run c c' p k step hc hpop ht hl =>
      have hjobs := hσ.jobs_of_lookup ((hs.step k).symm.trans hl)
      simp only [DagStrategy.dispatchedOf, hb.path k step hl, hjobs]

/-- A strategy that answers nothing while nothing is in flight has told every Job. -/
theorem Followed.idle (hcap : ∀ n, cap = some n → 0 < n) (hnd : (items.map (·.jobId)).Nodup)
    (hacyc : Acyclic (DagStrategy.Needs items)) {u : Driver DagStrategy}
    (h : Followed cap items u) (hs : DagStrategy.Shuffle u.strategy s₁)
    (hd : s₁.dispatch = (none, s)) :
    Followed cap items { u with strategy := s } ∧ waiting s = waiting u.strategy ∧
      (u.set = [] → s.pendingCount = 0 ∧ ∀ item ∈ items,
        u.verdicts item.jobId + u.dropped.countP (fun al => al.jobId = item.jobId) = 1) := by
  obtain ⟨σ, hσ, hstrategy, hset, hcount⟩ := h.session
  rw [← hstrategy] at hs ⊢
  have hb := hσ.tracks.books.shuffle hs
  have hnext := hσ.dispatch hnd hs
  rw [hd] at hnext
  have hsame : waiting s = waiting s₁ := by
    have hspec := DagStrategy.dispatch_spec s₁ hb.known_token
    rw [hd] at hspec
    cases hspec with
    | idle _ _ => rfl
  refine ⟨⟨_, hnext, rfl, hset, hcount⟩, hsame.trans (waiting_shuffle hs), fun hempty => ?_⟩
  rw [← hset] at hempty
  have hnone : s₁.dispatch.1 = none := by rw [hd]
  have hidle : ∀ k t, ¬ s₁.RunsAs k t := by
    intro k t hruns
    obtain ⟨d, hmem, _⟩ := (hσ.tracks.runs k t).mp ((hs.runsAs k t).mp hruns)
    rw [hempty] at hmem
    cases hmem
  have hcap₁ : ∀ n, s₁.wfq.concurrencyCap = some n → 0 < n :=
    fun n hn => hcap n (hσ.cap ▸ hs.wfq.concurrencyCap ▸ hn)
  constructor
  · obtain ⟨c, _, hpending, hstate⟩ := hb.empty_of_idle hcap₁ hidle hnone
    rw [hd] at hstate
    rw [show s = { s₁ with wfq := c } from hstate]
    exact hpending
  · intro item hitem
    obtain ⟨st, hl⟩ := hσ.present item hitem
    have hterm := hσ.tracks.terminal_of_drained hcap hσ.cap hσ.sealed (hacyc.mono hσ.edge) hempty
      hs hnone hl
    rw [← hcount, hσ.counts _ st hl item.jobId
      (DagStrategy.mem_jobsAt_iff.mpr ⟨item, hitem, rfl, rfl⟩), Session.due_of_terminal hterm]

theorem countP_eq_count {A : Type} (f : A → JobId) (as : List A) (j : JobId) :
    as.countP (fun a => f a = j) = (as.map f).count j := by
  rw [List.count, List.countP_map]
  rfl

theorem isWaiting_eq_false_of_terminal {x : StepState} (h : x.isTerminal = true) :
    isWaiting x = false := by
  cases x with
  | pending | ready => cases h
  | running | success | cached | failure | cancelled | skipped => rfl

/-- A completion mirrors all Jobs of the Step but the first. -/
theorem Followed.join (hnd : (items.map (·.jobId)).Nodup) {u : Driver DagStrategy}
    (h : Followed cap items u) (hs : DagStrategy.Shuffle u.strategy s₁) {d : Dispatched}
    (hmem : d ∈ u.set) {status : JobStatus} {effects : CompletionEffects}
    (hd : s₁.complete d.token status = (effects, s)) :
    Followed cap items (u.join d s effects) ∧ (waiting s).card ≤ (waiting u.strategy).card ∧
      effects.aliasCompletions.map (·.jobId) = (DagStrategy.jobsAt items d.drvPath).drop 1 ∧
      (status.isSuccess = true → effects.cascadedSkips = []) := by
  obtain ⟨σ, hσ, hstrategy, hset, hcount⟩ := h.session
  rw [← hstrategy] at hs ⊢
  rw [← hset] at hmem
  have hb := hσ.tracks.books.shuffle hs
  have hnext := hσ.complete hnd hs status ⟨d, hmem, rfl⟩
  rw [hd] at hnext
  obtain ⟨step, hl, _, htok⟩ := (hs.runsAs d.drvPath d.token).mpr
    ((hσ.tracks.runs d.drvPath d.token).mpr ⟨d, hmem, rfl, rfl⟩)
  have hknown := (hb.token d.token d.drvPath).mpr ⟨step, hl, htok⟩
  obtain ⟨sk, heffect⟩ := hb.completed hknown hl status
  rw [hd] at heffect
  refine ⟨⟨_, hnext, rfl, ?_, fun j => ?_⟩, ?_, ?_, fun hsuccess => ?_⟩
  · rw [Driver.join, ← hset]
    exact (erase_eq_filter hσ.tracks.nodup hmem).symm
  · have haliased : effects.aliasCompletions.countP (fun al => al.jobId = j) =
        (effects.aliasCompletions.map (·.jobId)).count j := countP_eq_count _ _ j
    have hskipped : effects.cascadedSkips.countP (fun skip => skip.jobId = j) =
        (effects.cascadedSkips.map (·.jobId)).count j := countP_eq_count _ _ j
    simp only [Session.record, List.countP_append, Session.countP_announces_completed,
      Session.countP_announces_aliased, Session.countP_announces_skipped, hcount j,
      Driver.verdicts, Driver.join]
    omega
  · rw [← waiting_shuffle hs]
    refine Finset.card_le_card fun k hk => ?_
    obtain ⟨st', hl', hw⟩ := mem_waiting.mp hk
    have hlinks := hb.sameLinks_complete d.token status
    rw [hd] at hlinks
    obtain ⟨st, hl₀, _⟩ := hlinks.symm.lookup hl'
    by_cases hk : k = d.drvPath
    · subst hk
      have hclosed := isWaiting_eq_false_of_terminal (StepState.isTerminal_fromStatus status)
      rw [heffect.ended st' hl', hclosed] at hw
      cases hw
    · by_cases hsk : k ∈ sk
      · rw [heffect.skipped k hsk st' hl'] at hw
        cases hw
      · rcases heffect.others k st st' hk hsk hl₀ hl' with hsame | ⟨hpending, _⟩
        · exact mem_waiting.mpr ⟨st, hl₀, hsame ▸ hw⟩
        · exact mem_waiting.mpr ⟨st, hl₀, by rw [hpending]; rfl⟩
  · rw [heffect.aliases, DagStrategy.map_aliasesFor, hσ.jobs_of_lookup ((hs.step _).symm.trans hl)]
    exact hσ.filter_tracked hs.job _ 1
  · rw [heffect.skips, heffect.of_success hsuccess, List.flatMap_nil]

/-- No two Jobs have one head derivation. -/
def DistinctHeads (items : List ScheduleItem) : Prop := (items.map (·.headDrv.drvPath)).Nodup

/-- Then no Step has a second Job. -/
theorem DistinctHeads.drop_jobsAt (h : DistinctHeads items) (d : String) :
    (DagStrategy.jobsAt items d).drop 1 = [] := by
  have hle : (DagStrategy.jobsAt items d).length ≤ 1 := by
    have hcount := List.nodup_iff_count_le_one.mp h d
    rw [List.count, List.countP_map, List.countP_eq_length_filter] at hcount
    rw [DagStrategy.jobsAt, List.length_map]
    exact hcount
  exact List.drop_eq_nil_of_le hle

/-- **The DAG strategy is followed**, if it has a slot and no two Jobs have one head derivation. -/
theorem follows (hcap : ∀ n, cap = some n → 0 < n) (hnd : (items.map (·.jobId)).Nodup)
    (hacyc : Acyclic (DagStrategy.Needs items)) (hheads : DistinctHeads items) :
    Follows DagStrategy.scheduleStrategy cap items
      (fun u => Followed cap items u ∧ u.dropped = []) (fun s => (waiting s).card) where
  started := fun hs => ⟨.started hnd hs, rfl⟩
  phase := fun _ ⟨h, hdropped⟩ => ⟨⟨h.session⟩, hdropped⟩
  spawn := by
    intro u s₁ s d l ⟨h, hdropped⟩ hs hd
    obtain ⟨hnext, hless, _⟩ := h.spawn hnd hs (logs_dispatched hd)
    exact ⟨⟨hnext, hdropped⟩, hless⟩
  idle := by
    intro u s₁ s l ⟨h, hdropped⟩ hs hd
    obtain ⟨hnext, hsame, hdone⟩ := h.idle hcap hnd hacyc hs (logs_dispatched hd)
    refine ⟨⟨hnext, hdropped⟩, (congrArg Finset.card hsame).le, fun hset => ?_⟩
    obtain ⟨hpending, hall⟩ := hdone hset
    refine ⟨hpending, fun item hitem => ?_⟩
    have htold := hall item hitem
    rw [hdropped] at htold
    exact htold
  join := by
    intro u s₁ s d status effects l ⟨h, hdropped⟩ hmem hs hd
    obtain ⟨hnext, hless, haliases, _⟩ := h.join hnd hs hmem (logs_completed hd)
    rw [hheads.drop_jobsAt, List.map_eq_nil_iff] at haliases
    exact ⟨⟨hnext, by rw [Driver.join, hdropped, haliases]; rfl⟩, hless⟩

/-! ### What is not delivered -/

/-- Something is queued as soon as something is enqueued. -/
theorem pendingCount_ne_zero (hacyc : Acyclic (DagStrategy.Needs items))
    (h : DagStrategy.Loaded cap items s) (hitems : items ≠ []) : s.wfq.pendingCount ≠ 0 := by
  intro hzero
  have hb := h.reachable.bookkeeping
  have hlive : ∀ k st, s.byDrv.lookup k = some st → st.state.isLive = false := by
    intro k st hl
    rcases h.fresh k st hl with hp | hready
    · rw [hp]
      rfl
    · -- a Step that is ready is queued
      have hholds := hb.holds k st hl
      rw [hready] at hholds
      obtain ⟨t, ht⟩ := Option.isSome_iff_exists.mp hholds
      have hq := hb.queued t k st ((hb.token t k).mpr ⟨st, hl, ht⟩) hl
      rw [if_pos hready, WfqCore.queuedCount_eq_zero_of_pendingCount hzero] at hq
      cases hq
  obtain ⟨item, hitem⟩ := List.exists_mem_of_ne_nil items hitems
  obtain ⟨st, hl⟩ := h.present item hitem item.headDrv (by simp [DagStrategy.mentions])
  have hterm := hb.terminal_of_not_live h.reachable.settled h.sealed (hacyc.mono h.edge) hlive hl
  rcases h.fresh _ st hl with hp | hp <;> rw [hp] at hterm <;> cases hterm

/-- **Without a slot nothing is delivered.** -/
theorem not_delivers_of_noSlot {ok : TaskOutcome → Prop}
    (hacyc : Acyclic (DagStrategy.Needs items)) (hitems : items ≠ []) :
    ¬ Delivers DagStrategy.scheduleStrategy ok (some 0) items := by
  intro hdelivers
  obtain ⟨s, hs⟩ := answers.loads (some 0) items
  have h := (enqueued hs).loaded
  have hlogs := DagStrategy.Logs.dispatch (s := s)
  rw [dispatch_of_core (dispatch_of_noSlot h.cap)] at hlogs
  exact spins (answers.same s) hlogs (pendingCount_ne_zero hacyc h hitems) (hdelivers.stops s hs)

/-- Two Jobs with one head derivation: the second is not the primary. -/
theorem exists_alias (hnd : (items.map (·.jobId)).Nodup) (hheads : ¬ DistinctHeads items) :
    ∃ item ∈ items,
      (DagStrategy.jobsAt items item.headDrv.drvPath).head? ≠ some item.jobId := by
  rw [DistinctHeads, List.nodup_iff_count_le_one] at hheads
  obtain ⟨k, hk⟩ := not_forall.mp hheads
  have hlen : 1 < (DagStrategy.jobsAt items k).length := by
    rw [List.count, List.countP_map, List.countP_eq_length_filter] at hk
    rw [DagStrategy.jobsAt, List.length_map]
    exact Nat.lt_of_not_le hk
  have hjobs := DagStrategy.jobsAt_nodup hnd k
  cases hl : DagStrategy.jobsAt items k with
  | nil =>
    rw [hl] at hlen
    exact absurd hlen (by simp)
  | cons j₁ js =>
    cases js with
    | nil =>
      rw [hl] at hlen
      exact absurd hlen (by simp)
    | cons j₂ js =>
      have hmem : j₂ ∈ DagStrategy.jobsAt items k := by simp [hl]
      obtain ⟨item, hitem, hpath, rfl⟩ := DagStrategy.mem_jobsAt_iff.mp hmem
      refine ⟨item, hitem, ?_⟩
      rw [hpath, hl, List.head?_cons, ne_eq, Option.some.injEq]
      intro heq
      rw [hl, heq] at hjobs
      exact absurd hjobs (by simp)

/-- A run in which every task succeeds. Nothing is skipped, and only primaries are spawned. -/
structure Succeeding (cap : Option ℕ) (items : List ScheduleItem) (ok : TaskOutcome → Prop)
    (s : DagStrategy) (u : Driver DagStrategy) : Prop where
  followed : Followed cap items u
  run : ReflTransGen (Driver.Step DagStrategy.scheduleStrategy ok) (Driver.start s) u
  skips : u.skips = []
  spawned : ∀ d ∈ u.spawned, d.headJob = (DagStrategy.jobsAt items d.drvPath).head?

/-- It can go on until the loop returns. -/
theorem Succeeding.goesOn (hcap : ∀ n, cap = some n → 0 < n) (hnd : (items.map (·.jobId)).Nodup)
    (hacyc : Acyclic (DagStrategy.Needs items)) {ok : TaskOutcome → Prop}
    (hok : ok (.resolved .success)) {u : Driver DagStrategy}
    (h : Succeeding cap items ok s u) :
    u.phase = .returned ∨
      ∃ v, Driver.Step DagStrategy.scheduleStrategy ok u v ∧ Succeeding cap items ok s v := by
  cases hp : u.phase with
  | returned => exact Or.inl rfl
  | dispatching =>
    right
    obtain ⟨o, s', l, hd⟩ := answers.dispatch u.strategy
    have hdis := logs_dispatched hd
    cases o with
    | none =>
      have hstep : Driver.Step DagStrategy.scheduleStrategy ok u _ := .idle hp (.refl _) hd
      have hnext := (h.followed.idle hcap hnd hacyc (.refl _) hdis).1
      exact ⟨_, hstep, ⟨hnext.session⟩, h.run.tail hstep, h.skips, h.spawned⟩
    | some d =>
      have hstep : Driver.Step DagStrategy.scheduleStrategy ok u _ := .spawn hp (.refl _) hd
      obtain ⟨hnext, _, hhead⟩ := h.followed.spawn hnd (.refl _) hdis
      refine ⟨_, hstep, hnext, h.run.tail hstep, h.skips, fun d' hd' => ?_⟩
      rcases List.mem_append.mp hd' with hold | hnew
      · exact h.spawned d' hold
      · rw [List.mem_singleton.mp hnew, hhead]
  | joining =>
    right
    cases hset : u.set with
    | nil =>
      have hstep : Driver.Step DagStrategy.scheduleStrategy ok u _ := .empty hp hset
      exact ⟨_, hstep, ⟨h.followed.session⟩, h.run.tail hstep, h.skips, h.spawned⟩
    | cons d ds =>
      obtain ⟨effects, s', l, hd⟩ := answers.complete u.strategy d.token .success
      have hmem : d ∈ u.set := hset ▸ List.mem_cons_self
      have hstep : Driver.Step DagStrategy.scheduleStrategy ok u _ :=
        .join hp hmem hok (.refl _) hd
      obtain ⟨hnext, _, _, hskips⟩ := h.followed.join hnd (.refl _) hmem (logs_completed hd)
      refine ⟨_, hstep, hnext, h.run.tail hstep, ?_, h.spawned⟩
      rw [Driver.join, h.skips, hskips rfl]
      rfl

/-- **The second of two Jobs with one head derivation is told nothing** if all goes well. -/
theorem not_delivers_of_alias (hcap : ∀ n, cap = some n → 0 < n)
    (hnd : (items.map (·.jobId)).Nodup) (hacyc : Acyclic (DagStrategy.Needs items))
    {ok : TaskOutcome → Prop} (hok : ok (.resolved .success)) (hheads : ¬ DistinctHeads items) :
    ¬ Delivers DagStrategy.scheduleStrategy ok cap items := by
  intro hdelivers
  obtain ⟨s, hs⟩ := answers.loads cap items
  have hstart : Succeeding cap items ok s (Driver.start s) :=
    ⟨.started hnd hs, .refl, rfl, fun d hd => absurd hd (by simp [Driver.start])⟩
  obtain ⟨u, _, hu, hreturned⟩ := (hdelivers.stops s hs).exists_end
    (fun u => u.phase = .returned) hstart fun u hu => hu.goesOn hcap hnd hacyc hok
  obtain ⟨item, hitem, hhead⟩ := exists_alias hnd hheads
  have hone := hdelivers.delivered s u hs hu.run hreturned item hitem
  rw [Driver.verdicts, hu.skips, List.countP_nil, Nat.add_zero] at hone
  have hpos : 0 < u.spawned.countP fun d => d.headJob = some item.jobId := by omega
  obtain ⟨d, hd, hjob⟩ := List.countP_pos_iff.mp hpos
  rw [decide_eq_true_eq, hu.spawned d hd] at hjob
  -- the Job is the head of a Step, and that is its own
  have hpath : d.drvPath = item.headDrv.drvPath :=
    DagStrategy.jobsAt_unique hnd (List.mem_of_head? hjob)
      (DagStrategy.mem_jobsAt_iff.mpr ⟨item, hitem, rfl, rfl⟩)
  exact hhead (hpath ▸ hjob)

end DagDrive

/-! ## Both strategies -/

namespace Driver

open DagDrive (DistinctHeads)

variable {cap : Option ℕ} {items : List ScheduleItem}

theorem pos_of_hasSlot (h : HasSlot cap items) (hitems : items ≠ []) :
    ∀ n, cap = some n → 0 < n := by
  intro n hn
  rcases h with hcap | hnil
  · refine Nat.pos_of_ne_zero fun hzero => hcap ?_
    rw [hn, hzero]
  · exact absurd hnil hitems

theorem eq_of_not_hasSlot (h : ¬ HasSlot cap items) : cap = some 0 ∧ items ≠ [] := by
  obtain ⟨hcap, hitems⟩ := not_or.mp h
  exact ⟨Classical.not_not.mp hcap, hitems⟩

/-- **`drive` returns and delivers every verdict**, as long as no task panics, exactly if there is
    a slot, and for a `DagStrategy` also no two Jobs have one head derivation. -/
theorem delivers_iff (cap : Option ℕ) (items : List ScheduleItem)
    (hnd : (items.map (·.jobId)).Nodup) (hacyc : Acyclic (DagStrategy.Needs items)) :
    (Delivers FlatStrategy.scheduleStrategy Resolves cap items ↔ HasSlot cap items) ∧
      (Delivers DagStrategy.scheduleStrategy Resolves cap items ↔
        HasSlot cap items ∧ DistinctHeads items) := by
  refine ⟨⟨fun h => ?_, fun hslot => ?_⟩, fun h => ?_, fun ⟨hslot, hheads⟩ => ?_⟩
  · by_contra hslot
    obtain ⟨rfl, hitems⟩ := eq_of_not_hasSlot hslot
    exact FlatDrive.not_delivers_of_noSlot hnd hitems h
  · by_cases hitems : items = []
    · subst hitems
      exact FlatDrive.follows_empty.delivers FlatDrive.answers
    · exact (FlatDrive.follows (pos_of_hasSlot hslot hitems) hnd).delivers FlatDrive.answers
  · have hslot : HasSlot cap items := by
      by_contra hslot
      obtain ⟨rfl, hitems⟩ := eq_of_not_hasSlot hslot
      exact DagDrive.not_delivers_of_noSlot hacyc hitems h
    refine ⟨hslot, ?_⟩
    by_cases hitems : items = []
    · rw [hitems]
      exact List.nodup_nil
    · by_contra hheads
      exact DagDrive.not_delivers_of_alias (pos_of_hasSlot hslot hitems) hnd hacyc
        ⟨.success, rfl⟩ hheads h
  · by_cases hitems : items = []
    · subst hitems
      exact DagDrive.follows_empty.delivers DagDrive.answers
    · exact (DagDrive.follows (pos_of_hasSlot hslot hitems) hnd hacyc hheads).delivers
        DagDrive.answers

/-- Two Jobs, and no inputs. -/
theorem acyclic_lone : Acyclic (DagStrategy.Needs [lone 1, lone 2]) := by
  refine .of_rank (fun _ => 0) ?_
  intro p r ⟨item, hitem, drv, hdrv, _, hp⟩
  simp only [List.mem_cons, List.not_mem_nil, or_false] at hitem
  rcases hitem with rfl | rfl <;> simp_all [DagStrategy.mentions, lone]

theorem delivers_iff_lone :
    Delivers FlatStrategy.scheduleStrategy Resolves (some 1) [lone 1, lone 2] ∧
      Delivers DagStrategy.scheduleStrategy Resolves (some 1) [lone 1, lone 2] :=
  have h := delivers_iff (some 1) [lone 1, lone 2] (by decide) acyclic_lone
  have hslot : HasSlot (some 1) [lone 1, lone 2] := Or.inl (by decide)
  ⟨h.1.mpr hslot, h.2.mpr ⟨hslot, by unfold DistinctHeads; decide⟩⟩

/-- Of two Jobs with one head derivation the second is told nothing, and a panic with one slot
    leaves the second Job queued for ever. -/
theorem not_delivers_alias_or_panic :
    ¬ Delivers DagStrategy.scheduleStrategy (fun _ => True) none Session.aliasAndDependent ∧
      ¬ Delivers FlatStrategy.scheduleStrategy (fun _ => True) (some 1) [lone 1, lone 2] :=
  ⟨DagDrive.not_delivers_of_alias (fun _ hn => absurd hn (by simp)) (by decide)
      Session.acyclic_aliasAndDependent trivial (by unfold DistinctHeads; decide),
    not_delivers_of_panic FlatDrive.answers strategies_honest.1 (by decide) (by decide) trivial⟩

end Driver

end Argunix.Daemon
