import Mathlib.Data.List.Count
import Argunix.Lib.Trace
import Argunix.Builders.Registry

/-!
# Builder slots: the in-flight gauge and `max_jobs`

A `BuilderSlot` is taken for the time of one dispatched build. Taking it adds one to the gauge of
the builder's *name*, dropping it takes one off. Two things go wrong with that.

* The gauge does not know connections. A takeover keeps the count of the connection it displaces;
  an eviction deletes it, and slots of the old connection that are dropped later are taken off the
  new one's. `exact_iff` says on which schedules the gauge is right: exactly those that register
  no builder while something is counted under its name, reserve nothing on a connection that is
  not the current one, and drop no slot of an older connection while the current one has any.
* `eligible` and the reservation are two lock acquisitions. Tasks that look at the same time see
  the same free slots. `within_of_inOrder`: `max_jobs` is respected as long as no task reserves on a
  stale look, that is, as long as since its look no more slots of the builder were reserved than
  dropped. What it rests on is the capacity check of `eligible`. For builders that take one job at
  a time nothing weaker will do (`within_iff_of_oneJob`).
-/

set_option autoImplicit false

namespace Argunix.Builders

open Argunix.Lib

/-! ## The gauge -/

/-- A live `BuilderSlot`, with the connection it was reserved against. -/
structure BuilderSlot where
  name : BuilderName
  connectionId : ℕ
deriving DecidableEq, Repr

/-- The registry with the slots that are live. -/
structure Pool where
  reg : BuilderRegistry
  nextConnId : ℕ
  slots : List BuilderSlot

/-- The calls that change the gauge or the connections. -/
inductive PoolAct
  | register (now : ℕ) (name : BuilderName) (capabilities : BuilderCapabilities)
  | evictDead (now : ℕ) (name : BuilderName)
  | removeIfMatches (now : ℕ) (name : BuilderName) (connectionId : ℕ)
  | markDisconnecting (name : BuilderName)
  | reserve (name : BuilderName) (connectionId : ℕ)
  | drop (slot : BuilderSlot)

namespace Pool

/-- Nobody is connected. -/
def new (grace : ℕ) : Pool :=
  { reg := BuilderRegistry.new.setSpillGrace grace, nextConnId := 0, slots := [] }

/-- A registration mints its connection id. A slot is reserved against the connection its builder
    was picked with, which may be gone by then. -/
def act (p : Pool) : PoolAct → Pool
  | .register now name capabilities =>
    { p with
      reg := p.reg.register now name
        { capabilities := capabilities, state := .active, connectionId := p.nextConnId }
      nextConnId := p.nextConnId + 1 }
  | .evictDead now name => { p with reg := p.reg.evictDead now name }
  | .removeIfMatches now name connectionId =>
    { p with reg := p.reg.removeIfMatches now name connectionId }
  | .markDisconnecting name => { p with reg := p.reg.markDisconnecting name }
  | .reserve name connectionId =>
    if connectionId < p.nextConnId then
      { p with reg := p.reg.incInFlight name, slots := p.slots ++ [⟨name, connectionId⟩] }
    else p
  | .drop slot =>
    if slot ∈ p.slots then
      { p with reg := p.reg.decInFlight slot.name, slots := p.slots.erase slot }
    else p

/-- **The gauge is exact**: for every registered builder it is the number of live slots reserved
    against its connection. -/
def Exact (p : Pool) : Prop :=
  ∀ name c, p.reg.inner.lookup name = some c →
    p.reg.gauge name = p.slots.count ⟨name, c.connectionId⟩

/-- The connection registered under a name. -/
def current (p : Pool) (name : BuilderName) : Option ℕ :=
  (p.reg.inner.lookup name).map (·.connectionId)

/-- When a step keeps the gauge exact. -/
def GaugeSafe (p : Pool) : PoolAct → Prop
  | .register _ name _ => p.reg.gauge name = 0
  | .reserve name connectionId => connectionId < p.nextConnId →
    ∀ id ∈ p.current name, id = connectionId
  | .drop slot => slot ∈ p.slots →
    ∀ id ∈ p.current slot.name, id ≠ slot.connectionId → p.reg.gauge slot.name = 0
  | _ => True

instance (p : Pool) (a : PoolAct) : Decidable (p.GaugeSafe a) := by
  unfold GaugeSafe
  split <;> infer_instance

/-- Connection ids are minted once. -/
def Minted (p : Pool) : Prop :=
  (∀ slot ∈ p.slots, slot.connectionId < p.nextConnId) ∧
    ∀ name c, p.reg.inner.lookup name = some c → c.connectionId < p.nextConnId

/-! ## What each registry call does to connections and gauges -/

@[simp]
theorem inner_noteNativeSeen (reg : BuilderRegistry) (now : ℕ) (system : String) :
    (reg.noteNativeSeen now system).inner = reg.inner := by
  unfold BuilderRegistry.noteNativeSeen
  split <;> rfl

@[simp]
theorem inFlight_noteNativeSeen (reg : BuilderRegistry) (now : ℕ) (system : String) :
    (reg.noteNativeSeen now system).inFlight = reg.inFlight := by
  unfold BuilderRegistry.noteNativeSeen
  split <;> rfl

theorem gauge_register (reg : BuilderRegistry) (now : ℕ) (name : BuilderName)
    (conn : ConnectedBuilder) (n : BuilderName) :
    (reg.register now name conn).gauge n = reg.gauge n := by
  simp [BuilderRegistry.gauge, BuilderRegistry.register]

theorem lookup_register (reg : BuilderRegistry) (now : ℕ) (name : BuilderName)
    (conn : ConnectedBuilder) (n : BuilderName) : (reg.register now name conn).inner.lookup n =
      if n = name then some conn else reg.inner.lookup n := by
  simp only [BuilderRegistry.register, inner_noteNativeSeen]
  exact HashMap.lookup_insert_eq name n conn reg.inner

/-- A removal takes the connection and its gauge, and nothing of the others. -/
structure Removes (reg reg' : BuilderRegistry) (name : BuilderName) : Prop where
  inner : ∀ n, reg'.inner.lookup n = if n = name then none else reg.inner.lookup n
  gauge : ∀ n, n ≠ name → reg'.gauge n = reg.gauge n

theorem removes_remove (reg : BuilderRegistry) (now : ℕ) (name : BuilderName)
    (c : ConnectedBuilder) : Removes reg (reg.remove now name c) name := by
  refine ⟨fun n => ?_, fun n hne => ?_⟩
  · simp only [BuilderRegistry.remove, inner_noteNativeSeen]
    exact HashMap.lookup_erase_eq name n reg.inner
  · simp only [BuilderRegistry.remove, BuilderRegistry.gauge, inFlight_noteNativeSeen]
    rw [HashMap.lookup_erase_eq, if_neg hne]

theorem evictDead_cases (reg : BuilderRegistry) (now : ℕ) (name : BuilderName) :
    reg.evictDead now name = reg ∨ Removes reg (reg.evictDead now name) name := by
  unfold BuilderRegistry.evictDead
  split
  · exact Or.inr (removes_remove reg now name _)
  · exact Or.inl rfl

theorem removeIfMatches_cases (reg : BuilderRegistry) (now : ℕ) (name : BuilderName) (id : ℕ) :
    reg.removeIfMatches now name id = reg ∨ Removes reg (reg.removeIfMatches now name id) name := by
  unfold BuilderRegistry.removeIfMatches
  split
  · split
    · exact Or.inr (removes_remove reg now name _)
    · exact Or.inl rfl
  · exact Or.inl rfl

theorem gauge_incInFlight (reg : BuilderRegistry) (name n : BuilderName) :
    (reg.incInFlight name).gauge n = reg.gauge n + if n = name then 1 else 0 := by
  unfold BuilderRegistry.incInFlight BuilderRegistry.gauge
  rw [HashMap.lookup_insert_eq]
  split
  · rename_i h
    rw [h]
    rfl
  · rfl

theorem gauge_decInFlight (reg : BuilderRegistry) (name n : BuilderName) :
    (reg.decInFlight name).gauge n = reg.gauge n - if n = name then 1 else 0 := by
  unfold BuilderRegistry.decInFlight BuilderRegistry.gauge
  rw [HashMap.lookup_modify]
  split
  · rename_i h
    subst h
    cases reg.inFlight.lookup n <;> rfl
  · rfl

/-- A connection that is marked keeps its id. -/
theorem lookup_markDisconnecting {reg : BuilderRegistry} {name n : BuilderName}
    {c : ConnectedBuilder} (h : (reg.markDisconnecting name).inner.lookup n = some c) :
    ∃ c₀, reg.inner.lookup n = some c₀ ∧ c₀.connectionId = c.connectionId := by
  rcases HashMap.lookup_modify_cases h with ⟨-, c₀, hl, rfl⟩ | ⟨-, hl⟩
  · exact ⟨c₀, hl, rfl⟩
  · exact ⟨c, hl, rfl⟩

/-! ## The invariant and the step -/

theorem Minted.act {p : Pool} (h : p.Minted) (a : PoolAct) : (p.act a).Minted := by
  have hremoved : ∀ {reg' : BuilderRegistry} {name : BuilderName}, reg' = p.reg ∨
      Removes p.reg reg' name → Minted { p with reg := reg' } := by
    rintro reg' name (rfl | hr)
    · exact h
    · refine ⟨h.1, fun n c hl => h.2 n c ?_⟩
      have := (hr.inner n).symm.trans hl
      split at this
      · exact absurd this (by simp)
      · exact this
  cases a with
  | register now name caps =>
    refine ⟨fun slot hs => Nat.lt_succ_of_lt (h.1 slot hs), fun n c hl => ?_⟩
    have hl' := (lookup_register _ _ _ _ _).symm.trans hl
    split at hl'
    · rw [← Option.some.inj hl']
      exact Nat.lt_succ_self _
    · exact Nat.lt_succ_of_lt (h.2 n c hl')
  | evictDead now name => exact hremoved (evictDead_cases p.reg now name)
  | removeIfMatches now name id => exact hremoved (removeIfMatches_cases p.reg now name id)
  | markDisconnecting name =>
    refine ⟨h.1, fun n c hl => ?_⟩
    obtain ⟨c₀, hl₀, hid⟩ := lookup_markDisconnecting hl
    exact hid ▸ h.2 n c₀ hl₀
  | reserve name id =>
    simp only [Pool.act]
    split
    · rename_i hlt
      refine ⟨fun slot hs => ?_, h.2⟩
      rcases List.mem_append.mp hs with hs | hs
      · exact h.1 slot hs
      · rw [List.mem_singleton.mp hs]
        exact hlt
    · exact h
  | drop slot =>
    simp only [Pool.act]
    split
    · exact ⟨fun s hs => h.1 s (List.mem_of_mem_erase hs), h.2⟩
    · exact h

/-- **One step**: from an exact state the gauge stays exact if and only if the step is safe. -/
theorem exact_act_iff {p : Pool} (hm : p.Minted) (h : p.Exact) (a : PoolAct) :
    (p.act a).Exact ↔ p.GaugeSafe a := by
  have hremoved : ∀ {reg' : BuilderRegistry} {name : BuilderName}, reg' = p.reg ∨
      Removes p.reg reg' name → Exact { p with reg := reg' } := by
    rintro reg' name (rfl | hr)
    · exact h
    · intro n c hl
      have hl' := (hr.inner n).symm.trans hl
      split at hl'
      · exact absurd hl' (by simp)
      · rename_i hne
        exact (hr.gauge n hne).trans (h n c hl')
  cases a with
  | register now name caps =>
    -- the new connection has no slots yet
    have hfresh : p.slots.count ⟨name, p.nextConnId⟩ = 0 :=
      List.count_eq_zero.mpr fun hs => absurd (hm.1 _ hs) (lt_irrefl _)
    constructor
    · intro hex
      have := hex name _ ((lookup_register _ _ _ _ _).trans (if_pos rfl))
      rw [show (p.act (.register now name caps)).reg.gauge name = p.reg.gauge name from
        gauge_register _ _ _ _ _] at this
      exact this.trans hfresh
    · intro hzero n c hl
      have hl' := (lookup_register _ _ _ _ _).symm.trans hl
      refine (gauge_register _ _ _ _ _).trans ?_
      split at hl'
      · rename_i hn
        subst hn
        rw [← Option.some.inj hl']
        exact hzero.trans hfresh.symm
      · exact h n c hl'
  | evictDead now name => exact iff_of_true (hremoved (evictDead_cases p.reg now name)) trivial
  | removeIfMatches now name id =>
    exact iff_of_true (hremoved (removeIfMatches_cases p.reg now name id)) trivial
  | markDisconnecting name =>
    refine iff_of_true (fun n c hl => ?_) trivial
    obtain ⟨c₀, hl₀, hid⟩ := lookup_markDisconnecting hl
    exact hid ▸ h n c₀ hl₀
  | reserve name id =>
    simp only [Pool.act, GaugeSafe]
    split
    · rename_i hlt
      have hcount : ∀ n c, p.reg.inner.lookup n = some c →
          ((p.reg.incInFlight name).gauge n = (p.slots ++ [(⟨name, id⟩ : BuilderSlot)]).count
              (⟨n, c.connectionId⟩ : BuilderSlot) ↔ (n = name → c.connectionId = id)) := by
        intro n c hl
        rw [gauge_incInFlight, List.count_append, List.count_singleton, h n c hl]
        by_cases hn : n = name <;> by_cases hid : c.connectionId = id
        · simp [hn, hid]
        · simp [hn, hid, Ne.symm hid]
        · simp [hn, Ne.symm hn]
        · simp [hn, Ne.symm hn]
      constructor
      · intro hex _ id' hid'
        obtain ⟨c, hl, rfl⟩ := Option.map_eq_some_iff.mp hid'
        exact (hcount name c hl).mp (hex name c hl) rfl
      · intro hsafe n c hl
        refine (hcount n c hl).mpr fun hn => ?_
        subst hn
        exact hsafe hlt _ (Option.map_eq_some_iff.mpr ⟨c, hl, rfl⟩)
    · rename_i hlt
      exact iff_of_true h fun hlt' => absurd hlt' hlt
  | drop slot =>
    simp only [Pool.act, GaugeSafe]
    split
    · rename_i hs
      have hcount : ∀ n c, p.reg.inner.lookup n = some c →
          ((p.reg.decInFlight slot.name).gauge n = (p.slots.erase slot).count ⟨n, c.connectionId⟩ ↔
            (n = slot.name → c.connectionId ≠ slot.connectionId → p.reg.gauge n = 0)) := by
        intro n c hl
        have hpos : 0 < p.slots.count slot := List.count_pos_iff.mpr hs
        rw [gauge_decInFlight, List.count_erase, h n c hl]
        by_cases hn : n = slot.name <;> by_cases hid : c.connectionId = slot.connectionId
        · subst hn
          simp [hid]
        · subst hn
          have hne : (slot == ⟨slot.name, c.connectionId⟩) = false := by
            rw [beq_eq_false_iff_ne]
            exact fun heq => hid (congrArg BuilderSlot.connectionId heq).symm
          simp only [if_true, hne, ne_eq, hid, not_false_eq_true, forall_const]
          simp only [Bool.false_eq_true, if_false]
          omega
        · have hne : (slot == ⟨n, c.connectionId⟩) = false := by
            rw [beq_eq_false_iff_ne]
            exact fun heq => hn (congrArg BuilderSlot.name heq).symm
          simp [hn, hne]
        · have hne : (slot == ⟨n, c.connectionId⟩) = false := by
            rw [beq_eq_false_iff_ne]
            exact fun heq => hn (congrArg BuilderSlot.name heq).symm
          simp [hn, hne]
      constructor
      · intro hex _ id' hid' hne
        obtain ⟨c, hl, rfl⟩ := Option.map_eq_some_iff.mp hid'
        exact (hcount slot.name c hl).mp (hex slot.name c hl) rfl hne
      · intro hsafe n c hl
        refine (hcount n c hl).mpr fun hn hne => ?_
        subst hn
        exact hsafe hs _ (Option.map_eq_some_iff.mpr ⟨c, hl, rfl⟩) hne
    · rename_i hs
      exact iff_of_true h fun hs' => absurd hs' hs

/-- **The in-flight gauge** is exact in every state of a schedule if and only if every step of the
    schedule is safe. -/
theorem exact_iff (grace : ℕ) (as : List PoolAct) :
    Along Pool.act Exact (new grace) as ↔ Steps Pool.act GaugeSafe (new grace) as := by
  refine along_iff_steps (I := Minted) (fun p a h => Minted.act h a)
    (fun p a hm h => exact_act_iff hm h a) as _ ?_ ?_
  · exact ⟨by simp [new], fun name c hl => absurd hl (by simp [new, BuilderRegistry.new,
      BuilderRegistry.setSpillGrace])⟩
  · exact fun name c hl => absurd hl (by simp [new, BuilderRegistry.new,
      BuilderRegistry.setSpillGrace])

/-- A takeover keeps the gauge: builder `a` reconnects while a slot of its first connection is
    live, and the new connection starts with a build it was never given. -/
theorem not_exact_takeover : ¬ ∀ (grace : ℕ) (as : List PoolAct),
    Along Pool.act Exact (new grace) as := by
  intro h
  have hexact := (h 0 [.register 0 ⟨"a"⟩ ⟨["x86_64-linux"], "x86_64-linux", [], 4⟩,
    .reserve ⟨"a"⟩ 0, .register 5 ⟨"a"⟩ ⟨["x86_64-linux"], "x86_64-linux", [], 4⟩]).last
  exact absurd (hexact ⟨"a"⟩ _ rfl) (by decide)

end Pool

/-! ## `max_jobs` -/

/-- Where a dispatch loop of `build_one` is: about to look for a builder, holding the snapshot it
    picked, or holding a slot of the builder. -/
inductive TaskPc
  | looking
  | picked (b : BuilderSnapshot)
  | holding (name : BuilderName)
deriving DecidableEq, Repr

/-- What the loops have done, for the statements: no loop reads it. -/
inductive SlotEvent
  | looked (i : ℕ)
  | reserved (name : BuilderName)
  | dropped (name : BuilderName)
deriving DecidableEq, Repr

/-- The registry with the dispatch loops. Nothing reads `log`. -/
structure Tasks where
  reg : BuilderRegistry
  tasks : List TaskPc
  /-- newest first -/
  log : List SlotEvent

/-- Every call of the registry is one step. -/
inductive TaskAct
  | spawn
  | pick (i : ℕ) (now : ℕ) (system : String) (features : List String) (exclude : List ℕ)
  | reserve (i : ℕ)
  | drop (i : ℕ)

/-- `pick_builder_for_spec` -/
def pickBuilderForSpec (reg : BuilderRegistry) (now : ℕ) (system : String)
    (features : List String) (exclude : List ℕ) : Option BuilderSnapshot :=
  (reg.eligible now system features exclude).head?

namespace Tasks

/-- The registry's connections, with nothing in flight and no task yet. -/
def start (reg : BuilderRegistry) : Tasks :=
  { reg := { reg with inFlight := ∅ }, tasks := [], log := [] }

/-- One call of one loop. -/
def act (s : Tasks) : TaskAct → Tasks
  | .spawn => { s with tasks := s.tasks ++ [.looking] }
  | .pick i now system features exclude =>
    match s.tasks[i]?, pickBuilderForSpec s.reg now system features exclude with
    | some .looking, some b =>
      { s with tasks := s.tasks.set i (.picked b), log := .looked i :: s.log }
    | _, _ => s
  | .reserve i =>
    match s.tasks[i]? with
    | some (.picked b) =>
      { reg := s.reg.incInFlight b.name, tasks := s.tasks.set i (.holding b.name)
        log := .reserved b.name :: s.log }
    | _ => s
  | .drop i =>
    match s.tasks[i]? with
    | some (.holding name) =>
      { reg := s.reg.decInFlight name, tasks := s.tasks.set i .looking
        log := .dropped name :: s.log }
    | _ => s

/-- The slots that are live on a builder. -/
def live (s : Tasks) (name : BuilderName) : ℕ := s.tasks.count (.holding name)

/-- **`max_jobs` is respected.** -/
def Within (s : Tasks) : Prop :=
  ∀ name c, s.reg.inner.lookup name = some c → s.live name ≤ c.capabilities.maxJobs

/-- What was done since the task's last look. -/
def sinceLook (s : Tasks) (i : ℕ) : List SlotEvent := s.log.takeWhile fun e => e ≠ .looked i

/-- **No reservation on a stale look**: since the look of a task that reserves, no more slots of
    the builder were reserved than dropped. -/
def InOrder (s : Tasks) : TaskAct → Prop
  | .reserve i => ∀ b, s.tasks[i]? = some (.picked b) →
    (s.sinceLook i).count (.reserved b.name) ≤ (s.sinceLook i).count (.dropped b.name)
  | _ => True

/-- A snapshot that was picked is of a registered builder and had a slot free. -/
structure Picked (reg : BuilderRegistry) (b : BuilderSnapshot) : Prop where
  registered : ∃ c, reg.inner.lookup b.name = some c ∧ c.capabilities = b.capabilities
  room : b.inFlight < b.capabilities.maxJobs

/-- The gauge counts the slots, and the slots that are live are those a task saw when it looked and
    those reserved since, less those dropped since. -/
structure Counted (s : Tasks) : Prop where
  gauge : ∀ name, s.reg.gauge name = s.live name
  picked : ∀ b, TaskPc.picked b ∈ s.tasks → Picked s.reg b
  seen : ∀ (i : ℕ) (b : BuilderSnapshot), s.tasks[i]? = some (.picked b) →
    s.live b.name + (s.sinceLook i).count (.dropped b.name) =
      b.inFlight + (s.sinceLook i).count (.reserved b.name)

theorem live_set {s : Tasks} {i : ℕ} {pc : TaskPc} (h : s.tasks[i]? = some pc) (pc' : TaskPc)
    (name : BuilderName) :
    (s.tasks.set i pc').count (.holding name) + (if pc = .holding name then 1 else 0) =
      s.live name + if pc' = .holding name then 1 else 0 := by
  obtain ⟨hlt, hget⟩ := List.getElem?_eq_some_iff.mp h
  rw [List.count_set hlt, hget, live]
  simp only [beq_iff_eq]
  have hpos : pc = .holding name → 0 < s.tasks.count (.holding name) := fun heq =>
    List.count_pos_iff.mpr (heq ▸ List.mem_of_getElem? h)
  split
  · rename_i heq
    have := hpos heq
    omega
  · omega

theorem picked_set {s : Tasks} {i j : ℕ} {pc : TaskPc} {b : BuilderSnapshot}
    (h : (s.tasks.set i pc)[j]? = some (.picked b)) :
    (j = i ∧ pc = .picked b) ∨ (j ≠ i ∧ s.tasks[j]? = some (.picked b)) := by
  by_cases hj : j = i
  · subst hj
    refine Or.inl ⟨rfl, ?_⟩
    rw [List.getElem?_set, if_pos rfl] at h
    split at h
    · exact Option.some.inj h
    · exact absurd h (by simp)
  · rw [List.getElem?_set_ne (Ne.symm hj)] at h
    exact Or.inr ⟨hj, h⟩

/-- What a look sees: a builder that is registered, its gauge, and that this is below its
    `max_jobs`. -/
theorem picked_of_look {reg : BuilderRegistry} {now : ℕ} {system : String}
    {features : List String} {exclude : List ℕ} {b : BuilderSnapshot}
    (h : pickBuilderForSpec reg now system features exclude = some b) :
    Picked reg b ∧ b.inFlight = reg.gauge b.name := by
  have hmem := List.mem_of_mem_head? h
  unfold BuilderRegistry.eligible at hmem
  rw [List.mem_mergeSort] at hmem
  obtain ⟨hfeatures, hroom⟩ := List.mem_filter.mp hmem
  have hcand := List.mem_of_mem_filter hfeatures
  obtain ⟨hlist, -⟩ := BuilderRegistry.mem_supporting.mp
    (BuilderRegistry.mem_supporting_of_candidate hcand)
  obtain ⟨name, c, hl, rfl⟩ := BuilderRegistry.mem_list.mp hlist
  exact ⟨⟨⟨c, hl, rfl⟩, of_decide_eq_true hroom⟩, rfl⟩

/-- What a step does to a task list, with its guards. -/
theorem act_cases (s : Tasks) (a : TaskAct) :
    (s.act a = s ∧ ∀ i b, a = .reserve i → s.tasks[i]? ≠ some (.picked b)) ∨
    (a = .spawn ∧ s.act a = { s with tasks := s.tasks ++ [.looking] }) ∨
    (∃ i now system features exclude b, a = .pick i now system features exclude ∧
      s.tasks[i]? = some .looking ∧ pickBuilderForSpec s.reg now system features exclude = some b ∧
      s.act a = { s with tasks := s.tasks.set i (.picked b), log := .looked i :: s.log }) ∨
    (∃ i b, a = .reserve i ∧ s.tasks[i]? = some (.picked b) ∧
      s.act a = { reg := s.reg.incInFlight b.name, tasks := s.tasks.set i (.holding b.name)
                  log := .reserved b.name :: s.log }) ∨
    (∃ i name, a = .drop i ∧ s.tasks[i]? = some (.holding name) ∧
      s.act a = { reg := s.reg.decInFlight name, tasks := s.tasks.set i .looking
                  log := .dropped name :: s.log }) := by
  cases a with
  | spawn => exact Or.inr (Or.inl ⟨rfl, rfl⟩)
  | pick i now system features exclude =>
    simp only [act]
    split
    · rename_i b ht hp
      exact Or.inr (Or.inr (Or.inl ⟨i, now, system, features, exclude, b, rfl, ht, hp, rfl⟩))
    · exact Or.inl ⟨rfl, by simp⟩
  | reserve i =>
    simp only [act]
    split
    · rename_i b ht
      exact Or.inr (Or.inr (Or.inr (Or.inl ⟨i, b, rfl, ht, rfl⟩)))
    · rename_i hne
      refine Or.inl ⟨rfl, fun j b hj hb => ?_⟩
      cases hj
      exact hne b hb
  | drop i =>
    simp only [act]
    split
    · rename_i name ht
      exact Or.inr (Or.inr (Or.inr (Or.inr ⟨i, name, rfl, ht, rfl⟩)))
    · exact Or.inl ⟨rfl, by simp⟩

/-- How many slots of a builder are live after a reservation. -/
theorem live_reserve {s : Tasks} {i : ℕ} {b : BuilderSnapshot}
    (ht : s.tasks[i]? = some (.picked b)) (n : BuilderName) :
    (s.tasks.set i (.holding b.name)).count (.holding n) =
      s.live n + if b.name = n then 1 else 0 := by
  have hlive := live_set ht (.holding b.name) n
  simpa only [TaskPc.holding.injEq, reduceCtorEq, if_false, Nat.add_zero] using hlive

/-- ... and after a drop. -/
theorem live_drop {s : Tasks} {i : ℕ} {name : BuilderName}
    (ht : s.tasks[i]? = some (.holding name)) (n : BuilderName) :
    (s.tasks.set i .looking).count (.holding n) + (if name = n then 1 else 0) = s.live n := by
  have hlive := live_set ht .looking n
  simpa only [TaskPc.holding.injEq, reduceCtorEq, if_false, Nat.add_zero] using hlive

/-- A look leaves the slots alone. -/
theorem live_pick {s : Tasks} {i : ℕ} (ht : s.tasks[i]? = some .looking) (b : BuilderSnapshot)
    (n : BuilderName) : (s.tasks.set i (.picked b)).count (.holding n) = s.live n := by
  have hlive := live_set ht (.picked b) n
  simpa only [reduceCtorEq, if_false, Nat.add_zero] using hlive

theorem sinceLook_cons {log : List SlotEvent} {e : SlotEvent} {j : ℕ} (h : e ≠ .looked j) :
    (e :: log).takeWhile (fun e => e ≠ .looked j) = e :: log.takeWhile fun e => e ≠ .looked j :=
  List.takeWhile_cons_of_pos (decide_eq_true h)

theorem Picked.congr {reg reg' : BuilderRegistry} {b : BuilderSnapshot} (h : Picked reg b)
    (heq : reg'.inner = reg.inner) : Picked reg' b :=
  ⟨heq ▸ h.registered, h.room⟩

/-- What every other task has seen stays true of a step that changes the slots of one builder by
    what it logs. -/
theorem Counted.act {s : Tasks} (h : s.Counted) (a : TaskAct) : (s.act a).Counted := by
  have hmem : ∀ {i : ℕ} {pc : TaskPc} {b : BuilderSnapshot}, TaskPc.picked b ∈ s.tasks.set i pc →
      pc ≠ .picked b → Picked s.reg b := fun hb hne =>
    h.picked _ ((List.mem_or_eq_of_mem_set hb).resolve_right (Ne.symm hne))
  rcases act_cases s a with ⟨heq, -⟩ | ⟨-, heq⟩ |
    ⟨i, now, system, features, exclude, b, -, ht, hp, heq⟩ |
    ⟨i, b, -, ht, heq⟩ | ⟨i, name, -, ht, heq⟩ <;> rw [heq]
  · exact h
  · have hlive : ∀ n, (s.tasks ++ [TaskPc.looking]).count (.holding n) = s.live n := fun n => by
      simp [live]
    refine ⟨fun n => (h.gauge n).trans (hlive n).symm, fun b hb => ?_, fun j b hj => ?_⟩
    · rcases List.mem_append.mp hb with hb | hb
      · exact h.picked b hb
      · exact absurd (List.mem_singleton.mp hb) (by simp)
    · have hj' : s.tasks[j]? = some (.picked b) := by
        simp only [List.getElem?_append] at hj
        split at hj
        · exact hj
        · exact absurd (List.mem_singleton.mp (List.mem_of_getElem? hj)) (by simp)
      exact (congrArg (· + _) (hlive b.name)).trans (h.seen j b hj')
  · obtain ⟨hpicked, hgauge⟩ := picked_of_look hp
    refine ⟨fun n => (h.gauge n).trans (live_pick ht b n).symm, fun b' hb' => ?_, fun j b' hj => ?_⟩
    · by_cases hb : b = b'
      · exact hb ▸ hpicked
      · exact hmem hb' fun heq => hb (TaskPc.picked.inj heq)
    · simp only [live, sinceLook, live_pick ht b]
      rcases picked_set hj with ⟨rfl, hb⟩ | ⟨hne, hj'⟩
      · obtain rfl : b = b' := TaskPc.picked.inj hb
        rw [List.takeWhile_cons_of_neg (by simp), hgauge, h.gauge]
        rfl
      · rw [sinceLook_cons fun heq => hne (SlotEvent.looked.inj heq).symm]
        simp only [List.count_cons, beq_iff_eq, reduceCtorEq, if_false, Nat.add_zero]
        exact h.seen j b' hj'
  · refine ⟨fun n => ?_, fun b' hb' => (hmem hb' (by simp)).congr rfl, fun j b' hj => ?_⟩
    · rw [Pool.gauge_incInFlight, h.gauge n]
      simpa [live, eq_comm] using (live_reserve ht n).symm
    · obtain ⟨-, hb⟩ | ⟨-, hj'⟩ := picked_set hj
      · exact absurd hb (by simp)
      have hseen := h.seen j b' hj'
      simp only [live, sinceLook, live_reserve ht]
      rw [sinceLook_cons (by simp)]
      simp only [List.count_cons, beq_iff_eq, reduceCtorEq, if_false, Nat.add_zero,
        SlotEvent.reserved.injEq]
      unfold live sinceLook at hseen
      omega
  · refine ⟨fun n => ?_, fun b' hb' => (hmem hb' (by simp)).congr rfl, fun j b' hj => ?_⟩
    · rw [Pool.gauge_decInFlight, h.gauge n, ← live_drop ht n]
      simp only [eq_comm, Nat.add_sub_cancel, live]
    · obtain ⟨-, hb⟩ | ⟨-, hj'⟩ := picked_set hj
      · exact absurd hb (by simp)
      have hseen := h.seen j b' hj'
      have hlive := live_drop ht b'.name
      simp only [sinceLook]
      rw [sinceLook_cons (by simp)]
      simp only [List.count_cons, beq_iff_eq, reduceCtorEq, if_false, Nat.add_zero,
        SlotEvent.dropped.injEq]
      unfold sinceLook at hseen
      simp only [live] at hseen hlive ⊢
      omega

theorem counted_start (reg : BuilderRegistry) : (start reg).Counted :=
  ⟨fun name => by simp [BuilderRegistry.gauge, start, live], by simp [start], by simp [start]⟩

/-- **One step**: from a state that respects `max_jobs` only a reservation leads to one that does
    not, and it does if and only if the slots reserved since the task's look are, less those
    dropped, no fewer than the look saw free. -/
theorem within_act_iff {s : Tasks} (hc : s.Counted) (h : s.Within) (a : TaskAct) :
    (s.act a).Within ↔ ∀ i b, a = .reserve i → s.tasks[i]? = some (.picked b) →
      b.inFlight + (s.sinceLook i).count (.reserved b.name) <
        b.capabilities.maxJobs + (s.sinceLook i).count (.dropped b.name) := by
  rcases act_cases s a with ⟨heq, hno⟩ | ⟨rfl, heq⟩ |
    ⟨i, now, system, features, exclude, b, rfl, ht, -, heq⟩ |
    ⟨i, b, rfl, ht, heq⟩ | ⟨i, name, rfl, ht, heq⟩ <;> rw [heq]
  · exact iff_of_true h fun i b ha hb => absurd hb (hno i b ha)
  · refine iff_of_true (fun n c hl => ?_) (by simp)
    simpa [live] using h n c hl
  · exact iff_of_true (fun n c hl => (live_pick ht b n).trans_le (h n c hl)) (by simp)
  · obtain ⟨c, hl, hcaps⟩ := (hc.picked b (List.mem_of_getElem? ht)).registered
    have hseen := hc.seen i b ht
    constructor
    · intro hw j b' hj hb'
      obtain rfl : i = j := TaskAct.reserve.inj hj
      obtain rfl : b = b' := by simpa [ht] using hb'
      have hle := (live_reserve ht b.name).symm.trans_le (hw b.name c hl)
      rw [if_pos rfl, hcaps] at hle
      omega
    · intro hroom n c' hl'
      refine (live_reserve ht n).trans_le ?_
      by_cases hn : b.name = n
      · subst hn
        obtain rfl : c = c' := Option.some.inj (hl.symm.trans hl')
        have := hroom i b rfl ht
        rw [if_pos rfl, hcaps]
        omega
      · rw [if_neg hn]
        exact h n c' hl'
  · refine iff_of_true (fun n c hl => ?_) (by simp)
    exact (Nat.le_of_add_right_le (live_drop ht n).le).trans (h n c hl)

theorem Within.act {s : Tasks} (hc : s.Counted) (h : s.Within) {a : TaskAct} (hok : s.InOrder a) :
    (s.act a).Within := by
  refine (within_act_iff hc h a).mpr fun i b ha hb => ?_
  subst ha
  -- the capacity check of the look
  have hroom := (hc.picked b (List.mem_of_getElem? hb)).room
  have := hok b hb
  omega

/-- **`max_jobs`** is respected in every state of a schedule in which no task reserves on a stale
    look. -/
theorem within_of_inOrder (reg : BuilderRegistry) (as : List TaskAct)
    (h : Steps Tasks.act InOrder (start reg) as) : Along Tasks.act Within (start reg) as :=
  along_of_steps (I := Counted) (fun _ a hc => hc.act a) (fun _ _ hc hw hok => hw.act hc hok) as _
    (counted_start reg) (fun _ _ _ => Nat.zero_le _) h

/-- Builders that take one job at a time: any reservation on a stale look is one too many. -/
theorem within_iff_of_oneJob (reg : BuilderRegistry)
    (hone : ∀ name c, reg.inner.lookup name = some c → c.capabilities.maxJobs = 1)
    (as : List TaskAct) :
    Along Tasks.act Within (start reg) as ↔ Steps Tasks.act InOrder (start reg) as := by
  have hinner : ∀ s a, (Tasks.act s a).reg.inner = s.reg.inner := by
    intro s a
    rcases act_cases s a with ⟨heq, -⟩ | ⟨-, heq⟩ | ⟨_, _, _, _, _, _, -, -, -, heq⟩ |
      ⟨_, _, -, -, heq⟩ | ⟨_, _, -, -, heq⟩ <;> rw [heq] <;> rfl
  refine along_iff_steps (I := fun s => s.Counted ∧ s.reg.inner = reg.inner)
    (fun s a hI => ⟨hI.1.act a, (hinner s a).trans hI.2⟩) (fun s a hI hw => ?_) as _
    ⟨counted_start reg, rfl⟩ fun _ _ _ => Nat.zero_le _
  refine ⟨fun hnext => ?_, fun hok => hw.act hI.1 hok⟩
  cases a with
  | reserve i =>
    intro b hb
    obtain ⟨⟨c, hl, hcaps⟩, -⟩ := hI.1.picked b (List.mem_of_getElem? hb)
    have hmax := hone b.name c (hI.2 ▸ hl)
    have := (within_act_iff hI.1 hw _).mp hnext i b rfl hb
    rw [← hcaps, hmax] at this
    omega
  | _ => trivial

/-- One builder that takes one job. -/
def oneJob : BuilderRegistry :=
  BuilderRegistry.new.register 0 ⟨"a"⟩
    { capabilities := ⟨["x86_64-linux"], "x86_64-linux", [], 1⟩, state := .active,
      connectionId := 0 }

/-- The only builder, as a task sees it while nothing is reserved. -/
def onlyBuilder : BuilderSnapshot :=
  { name := ⟨"a"⟩, capabilities := ⟨["x86_64-linux"], "x86_64-linux", [], 1⟩, state := .active,
    inFlight := 0, connectionId := 0 }

theorem pick_oneJob :
    pickBuilderForSpec (start oneJob).reg 0 "x86_64-linux" [] [] = some onlyBuilder := by
  have hlist : (start oneJob).reg.list = [onlyBuilder] := List.mergeSort_singleton _
  have hcand : (start oneJob).reg.systemCandidates 0 "x86_64-linux" [] = [onlyBuilder] := by
    unfold BuilderRegistry.systemCandidates BuilderRegistry.supporting
    rw [hlist]
    rfl
  unfold pickBuilderForSpec BuilderRegistry.eligible
  rw [hcand]
  exact congrArg List.head? (List.mergeSort_singleton _)

/-- Two tasks look at `oneJob` before either reserves. -/
def twoLook : List TaskAct :=
  [.spawn, .spawn, .pick 0 0 "x86_64-linux" [] [], .pick 1 0 "x86_64-linux" [] []]

theorem foldl_twoLook : twoLook.foldl Tasks.act (start oneJob) =
    { reg := (start oneJob).reg, tasks := [.picked onlyBuilder, .picked onlyBuilder],
      log := [.looked 1, .looked 0] } := by
  simp only [twoLook, List.foldl, act, show (start oneJob).tasks = [] from rfl, List.nil_append,
    List.cons_append, List.getElem?_cons_zero, pick_oneJob, List.set_cons_zero,
    List.getElem?_cons_succ, List.set_cons_succ, show (start oneJob).log = [] from rfl]

/-- The second task reserves after the first one's slot was dropped. -/
theorem within_of_inOrder_twoLook : Along Tasks.act Within (start oneJob)
    (twoLook ++ [.reserve 0, .drop 0, .reserve 1]) := by
  refine within_of_inOrder oneJob _ (.append ⟨trivial, trivial, trivial, trivial, trivial⟩ ?_)
  rw [foldl_twoLook]
  refine ⟨fun b hb => ?_, trivial, fun b hb => ?_, trivial⟩ <;> cases hb <;> decide

/-- Both reserve. -/
theorem not_within_two_look : ¬ ∀ (reg : BuilderRegistry) (as : List TaskAct),
    Along Tasks.act Within (start reg) as := by
  intro h
  have hw := (h oneJob (twoLook ++ [.reserve 0, .reserve 1])).last
  rw [List.foldl_append, foldl_twoLook] at hw
  exact absurd (hw ⟨"a"⟩ _ rfl) (by decide)

end Tasks

end Argunix.Builders
