import Mathlib.Data.String.Basic
import Argunix.Domain
import Argunix.Lib.HashMap

/-!
# `argunix-builders`: the registry of connected builders

The registry maps a builder's name to its connection and, in a second map, to a gauge of the builds
it has been given. A builder lists the systems it can realise; one of them it runs natively, the
others under emulation. Who may get a job for a system is decided in two tiers: as long as a native
builder is a candidate the emulated ones are not, and after a native builder has left, a grace
period holds its tier open for its return.

`eligible` and `any_matching_builder` are read together by the dispatch loop. No eligible builder
and a matching one means *wait for a slot*; no matching one means *give up*. The reading is sound
only if the two agree whenever there is capacity (`waits_for_capacity`), and with a grace configured
they do not: a native builder that is registered but excluded keeps its tier, and the job waits
for it to reconnect (`not_for_capacity_excluded`).

Time is a number, and `now` is an argument of every function that reads the clock.
-/

set_option autoImplicit false

namespace Argunix

/-- `BuilderName` -/
structure BuilderName where
  asStr : String
deriving DecidableEq, Repr

/-- The capabilities the registry reads. An empty `nativeSystem` is an agent that did not say. -/
structure BuilderCapabilities where
  systems : List String
  nativeSystem : String
  features : List String
  maxJobs : ℕ
deriving DecidableEq, Repr

end Argunix

namespace Argunix.Builders

open Argunix.Lib

/-- `ConnState` -/
inductive ConnState
  | active
  | disconnecting
deriving DecidableEq, Repr

/-- An entry of the registry. -/
structure ConnectedBuilder where
  capabilities : BuilderCapabilities
  state : ConnState
  connectionId : ℕ
deriving DecidableEq, Repr

/-- An entry with its gauge, as a look at the registry returns it. -/
structure BuilderSnapshot where
  name : BuilderName
  capabilities : BuilderCapabilities
  state : ConnState
  inFlight : ℕ
  connectionId : ℕ
deriving DecidableEq, Repr

/-- The maps of the registry. `lastNativeSeen` is by system. -/
structure BuilderRegistry where
  inner : HashMap BuilderName ConnectedBuilder
  inFlight : HashMap BuilderName ℕ
  lastNativeSeen : HashMap String ℕ
  spillGrace : ℕ

namespace BuilderRegistry

/-! ## Connections and the gauge -/

/-- `BuilderRegistry::default` -/
def new : BuilderRegistry := { inner := ∅, inFlight := ∅, lastNativeSeen := ∅, spillGrace := 0 }

/-- `set_spill_grace` -/
def setSpillGrace (reg : BuilderRegistry) (grace : ℕ) : BuilderRegistry :=
  { reg with spillGrace := grace }

/-- A native of the system was there now. -/
def noteNativeSeen (reg : BuilderRegistry) (now : ℕ) (system : String) : BuilderRegistry :=
  if system = "" then reg else { reg with lastNativeSeen := reg.lastNativeSeen.insert system now }

/-- A prior connection of the same name is displaced; the gauge is kept. -/
def register (reg : BuilderRegistry) (now : ℕ) (name : BuilderName) (conn : ConnectedBuilder) :
    BuilderRegistry :=
  let reg := reg.noteNativeSeen now conn.capabilities.nativeSystem
  { reg with inner := reg.inner.insert name conn }

/-- What `evict_dead` and `remove_if_matches` share: connection and gauge are dropped together. -/
def remove (reg : BuilderRegistry) (now : ℕ) (name : BuilderName) (c : ConnectedBuilder) :
    BuilderRegistry :=
  { reg with inner := reg.inner.erase name, inFlight := reg.inFlight.erase name }.noteNativeSeen now
    c.capabilities.nativeSystem

/-- `evict_dead` -/
def evictDead (reg : BuilderRegistry) (now : ℕ) (name : BuilderName) : BuilderRegistry :=
  match reg.inner.lookup name with
  | some c => reg.remove now name c
  | none => reg

/-- `remove_if_matches` -/
def removeIfMatches (reg : BuilderRegistry) (now : ℕ) (name : BuilderName) (connectionId : ℕ) :
    BuilderRegistry :=
  match reg.inner.lookup name with
  | some c => if c.connectionId = connectionId then reg.remove now name c else reg
  | none => reg

/-- `mark_disconnecting` -/
def markDisconnecting (reg : BuilderRegistry) (name : BuilderName) : BuilderRegistry :=
  { reg with inner := reg.inner.modify name fun c => { c with state := .disconnecting } }

/-- The gauge as every reader takes it. -/
def gauge (reg : BuilderRegistry) (name : BuilderName) : ℕ := (reg.inFlight.lookup name).getD 0

/-- `inc_in_flight` -/
def incInFlight (reg : BuilderRegistry) (name : BuilderName) : BuilderRegistry :=
  { reg with inFlight := reg.inFlight.insert name (reg.gauge name + 1) }

/-- `saturating_sub`, and nothing for a builder without a gauge. -/
def decInFlight (reg : BuilderRegistry) (name : BuilderName) : BuilderRegistry :=
  { reg with inFlight := reg.inFlight.modify name (· - 1) }

/-! ## Who may get a job -/

/-- All registered builders, ordered by name. -/
def list (reg : BuilderRegistry) : List BuilderSnapshot :=
  (reg.inner.entries.map fun e =>
    { name := e.1
      capabilities := e.2.capabilities
      state := e.2.state
      inFlight := reg.gauge e.1
      connectionId := e.2.connectionId : BuilderSnapshot }).mergeSort
    fun a b => a.name.asStr ≤ b.name.asStr

/-- The builders of `system_candidates` before the tiers. -/
def supporting (reg : BuilderRegistry) (system : String) (exclude : List ℕ) :
    List BuilderSnapshot :=
  ((reg.list.filter fun b => b.state = .active).filter fun b => b.connectionId ∉ exclude).filter
    fun b => b.capabilities.systems.any (· = system)

/-- `native_holdoff_active`: as long as a native is active, and for the grace after one was last
    seen. -/
def nativeHoldoffActive (reg : BuilderRegistry) (now : ℕ) (system : String) : Bool :=
  if reg.spillGrace = 0 then false
  else if reg.inner.values.any
      fun c => c.state = .active ∧ c.capabilities.nativeSystem = system then true
  else (reg.lastNativeSeen.lookup system).any fun t => now - t < reg.spillGrace

/-- `system_candidates`: natives go first, and others wait for the holdoff to end. -/
def systemCandidates (reg : BuilderRegistry) (now : ℕ) (system : String) (exclude : List ℕ) :
    List BuilderSnapshot :=
  let supporting := reg.supporting system exclude
  if supporting.any fun b => b.capabilities.nativeSystem = system then
    supporting.filter fun b => b.capabilities.nativeSystem = system
  else if reg.nativeHoldoffActive now system then []
  else supporting

/-- `features.iter().all(|f| b.capabilities.features.contains(f))` -/
def BuilderSnapshot.hasFeatures (b : BuilderSnapshot) (features : List String) : Bool :=
  features.all fun f => f ∈ b.capabilities.features

/-- Least loaded first. -/
def eligible (reg : BuilderRegistry) (now : ℕ) (system : String) (features : List String)
    (exclude : List ℕ) : List BuilderSnapshot :=
  (((reg.systemCandidates now system exclude).filter fun b =>
      BuilderSnapshot.hasFeatures b features).filter
    fun b => b.inFlight < b.capabilities.maxJobs).mergeSort fun a b => a.inFlight ≤ b.inFlight

/-- `any_matching_builder`: somebody could build it, or a native may come back. -/
def anyMatchingBuilder (reg : BuilderRegistry) (now : ℕ) (system : String)
    (features : List String) (exclude : List ℕ) : Bool :=
  if (reg.systemCandidates now system exclude).any fun b =>
      BuilderSnapshot.hasFeatures b features then true
  else reg.nativeHoldoffActive now system

/-! ## What the two functions answer -/

variable {reg : BuilderRegistry} {now : ℕ} {system : String} {features : List String}
  {exclude : List ℕ}

/-- The snapshot `list` takes of a connection. -/
def snapshotOf (reg : BuilderRegistry) (name : BuilderName) (c : ConnectedBuilder) :
    BuilderSnapshot :=
  { name := name
    capabilities := c.capabilities
    state := c.state
    inFlight := reg.gauge name
    connectionId := c.connectionId }

theorem mem_list {b : BuilderSnapshot} :
    b ∈ reg.list ↔ ∃ name c, reg.inner.lookup name = some c ∧ b = reg.snapshotOf name c := by
  unfold list
  rw [List.mem_mergeSort, List.mem_map]
  constructor
  · rintro ⟨⟨name, c⟩, hm, rfl⟩
    exact ⟨name, c, HashMap.mem_entries_iff.mp hm, rfl⟩
  · rintro ⟨name, c, hl, rfl⟩
    exact ⟨⟨name, c⟩, HashMap.mem_entries_iff.mpr hl, rfl⟩

theorem mem_supporting {b : BuilderSnapshot} :
    b ∈ reg.supporting system exclude ↔ b ∈ reg.list ∧ b.state = .active ∧
      b.connectionId ∉ exclude ∧ system ∈ b.capabilities.systems := by
  simp only [supporting, List.mem_filter, List.any_eq_true, decide_eq_true_eq, exists_eq_right]
  constructor
  · rintro ⟨⟨⟨hlist, hact⟩, hexcl⟩, hsys⟩
    exact ⟨hlist, hact, hexcl, hsys⟩
  · rintro ⟨hlist, hact, hexcl, hsys⟩
    exact ⟨⟨⟨hlist, hact⟩, hexcl⟩, hsys⟩

theorem mem_values {c : ConnectedBuilder} :
    c ∈ reg.inner.values ↔ ∃ name, reg.inner.lookup name = some c := by
  unfold HashMap.values
  rw [List.mem_map]
  constructor
  · rintro ⟨⟨name, c'⟩, hm, rfl⟩
    exact ⟨name, HashMap.mem_entries_iff.mp hm⟩
  · rintro ⟨name, hl⟩
    exact ⟨⟨name, c⟩, HashMap.mem_entries_iff.mpr hl, rfl⟩

/-- A registered builder runs the system natively. -/
def NativeRegistered (reg : BuilderRegistry) (system : String) : Prop :=
  ∃ name c, reg.inner.lookup name = some c ∧ c.capabilities.nativeSystem = system

/-- An active one does. -/
def NativeActive (reg : BuilderRegistry) (system : String) : Prop :=
  ∃ name c, reg.inner.lookup name = some c ∧ c.state = .active ∧
    c.capabilities.nativeSystem = system

theorem holdoff_of_nativeActive (hgrace : reg.spillGrace ≠ 0) (h : reg.NativeActive system)
    (now : ℕ) : reg.nativeHoldoffActive now system = true := by
  obtain ⟨name, c, hl, hact, hnat⟩ := h
  rw [nativeHoldoffActive, if_neg hgrace, if_pos]
  exact List.any_eq_true.mpr ⟨c, mem_values.mpr ⟨name, hl⟩, by simp [hact, hnat]⟩

theorem holdoff_eq_false (hseen : ∀ t, reg.lastNativeSeen.lookup system = some t →
      reg.spillGrace ≤ now - t) (hnone : reg.spillGrace = 0 ∨ ¬ reg.NativeActive system) :
    reg.nativeHoldoffActive now system = false := by
  unfold nativeHoldoffActive
  by_cases hgrace : reg.spillGrace = 0
  · rw [if_pos hgrace]
  · rw [if_neg hgrace, if_neg]
    · cases hl : reg.lastNativeSeen.lookup system with
      | none => rfl
      | some t =>
        have := hseen t hl
        simpa using this
    · intro hany
      obtain ⟨c, hc, hp⟩ := List.any_eq_true.mp hany
      obtain ⟨name, hl⟩ := mem_values.mp hc
      have hp : c.state = .active ∧ c.capabilities.nativeSystem = system := by simpa using hp
      exact hnone.resolve_left hgrace ⟨name, c, hl, hp⟩

/-- With a slot free everywhere, a candidate that has the features is eligible. -/
theorem eligible_ne_nil {b : BuilderSnapshot} (hb : b ∈ reg.systemCandidates now system exclude)
    (hf : BuilderSnapshot.hasFeatures b features = true) (hcap : b.inFlight < b.capabilities.maxJobs) :
    reg.eligible now system features exclude ≠ [] := by
  refine List.ne_nil_of_mem (a := b) ?_
  unfold eligible
  rw [List.mem_mergeSort]
  simp [hb, hf, hcap]

theorem mem_supporting_of_candidate {b : BuilderSnapshot}
    (hb : b ∈ reg.systemCandidates now system exclude) : b ∈ reg.supporting system exclude := by
  simp only [systemCandidates] at hb
  split at hb
  · exact List.mem_of_mem_filter hb
  · split at hb
    · exact absurd hb (by simp)
    · exact hb

/-- A native builder that supports the job is a candidate. -/
theorem native_candidate {b : BuilderSnapshot} (hb : b ∈ reg.supporting system exclude)
    (hnat : b.capabilities.nativeSystem = system) :
    b ∈ reg.systemCandidates now system exclude := by
  have hany : (reg.supporting system exclude).any (fun b => b.capabilities.nativeSystem = system)
      = true := List.any_eq_true.mpr ⟨b, hb, by simpa using hnat⟩
  unfold systemCandidates
  rw [if_pos hany]
  simp [hb, hnat]

/-- A builder that is alone in the registry and runs the system natively gets the job. -/
theorem eligible_sole {name : BuilderName} {c : ConnectedBuilder}
    (hsole : reg.inner.entries = [⟨name, c⟩]) (hact : c.state = .active)
    (hnat : c.capabilities.nativeSystem = system) (hsys : system ∈ c.capabilities.systems)
    (hfresh : c.connectionId ∉ exclude)
    (hf : BuilderSnapshot.hasFeatures (reg.snapshotOf name c) features = true)
    (hcap : reg.gauge name < c.capabilities.maxJobs) :
    reg.eligible now system features exclude = [reg.snapshotOf name c] := by
  have hlist : reg.list = [reg.snapshotOf name c] := by
    unfold list
    rw [hsole]
    exact List.mergeSort_singleton _
  have hsupporting : reg.supporting system exclude = [reg.snapshotOf name c] := by
    simp [supporting, hlist, snapshotOf, hact, hfresh, hsys]
  have hcand : reg.systemCandidates now system exclude = [reg.snapshotOf name c] := by
    simp [systemCandidates, hsupporting, snapshotOf, hnat]
  have hcap' : (reg.snapshotOf name c).inFlight <
      (reg.snapshotOf name c).capabilities.maxJobs := hcap
  simp [eligible, hcand, hf, hcap']

/-! ## Waiting for capacity -/

/-- No native builder has departed within the grace: a stamp that is younger is that of a builder
    which is still registered. -/
def NoDeparture (reg : BuilderRegistry) (now : ℕ) (system : String) : Prop :=
  ∀ t, reg.lastNativeSeen.lookup system = some t → now - t < reg.spillGrace →
    reg.NativeRegistered system

/-- Every active builder has a free slot. -/
def FreeEverywhere (reg : BuilderRegistry) : Prop :=
  ∀ name c, reg.inner.lookup name = some c → c.state = .active →
    reg.gauge name < c.capabilities.maxJobs

/-- No native builder was seen within the grace. -/
def LongUnseen (reg : BuilderRegistry) (now : ℕ) (system : String) : Prop :=
  ∀ t, reg.lastNativeSeen.lookup system = some t → reg.spillGrace ≤ now - t

/-- The native tier of the system is not held for a builder that cannot take the job: it is not held
    at all, or there is a native builder that can. -/
def TierOpen (reg : BuilderRegistry) (now : ℕ) (system : String) (features : List String)
    (exclude : List ℕ) : Prop :=
  reg.spillGrace = 0 ∨ (¬ reg.NativeActive system ∧ reg.LongUnseen now system) ∨
    ∃ name c, reg.inner.lookup name = some c ∧ c.capabilities.nativeSystem = system ∧
      c.state = .active ∧ c.connectionId ∉ exclude ∧ system ∈ c.capabilities.systems ∧
      ∀ f ∈ features, f ∈ c.capabilities.features

instance (reg : BuilderRegistry) (system : String) : Decidable (reg.NativeRegistered system) :=
  decidable_of_iff _ HashMap.exists_lookup_iff.symm

instance (reg : BuilderRegistry) (now : ℕ) (system : String) :
    Decidable (reg.NoDeparture now system) :=
  inferInstanceAs (Decidable (∀ t ∈ reg.lastNativeSeen.lookup system, now - t < reg.spillGrace →
    reg.NativeRegistered system))

instance (reg : BuilderRegistry) (system : String) : Decidable (reg.NativeActive system) :=
  decidable_of_iff _ HashMap.exists_lookup_iff.symm

instance (reg : BuilderRegistry) (now : ℕ) (system : String) :
    Decidable (reg.LongUnseen now system) :=
  inferInstanceAs (Decidable (∀ t ∈ reg.lastNativeSeen.lookup system, reg.spillGrace ≤ now - t))

instance (reg : BuilderRegistry) : Decidable reg.FreeEverywhere :=
  decidable_of_iff _ HashMap.forall_lookup_iff.symm

instance (reg : BuilderRegistry) (now : ℕ) (system : String) (features : List String)
    (exclude : List ℕ) : Decidable (reg.TierOpen now system features exclude) :=
  have : Decidable (∃ name c, reg.inner.lookup name = some c ∧
      c.capabilities.nativeSystem = system ∧ c.state = .active ∧ c.connectionId ∉ exclude ∧
      system ∈ c.capabilities.systems ∧ ∀ f ∈ features, f ∈ c.capabilities.features) :=
    decidable_of_iff _ HashMap.exists_lookup_iff.symm
  inferInstanceAs (Decidable (_ ∨ _ ∨ _))

/-- The capacity wait of `build_one` ends at a poll at this time. -/
def leavesWait (reg : BuilderRegistry) (now : ℕ) (system : String) (features : List String)
    (exclude : List ℕ) : Bool :=
  !(reg.eligible now system features exclude).isEmpty ||
    !reg.anyMatchingBuilder now system features exclude

theorem eligible_of_anyMatching (hcap : reg.FreeEverywhere)
    (hopen : reg.TierOpen now system features exclude)
    (hany : reg.anyMatchingBuilder now system features exclude = true) :
    reg.eligible now system features exclude ≠ [] := by
  have hfree : ∀ b ∈ reg.supporting system exclude, b.inFlight < b.capabilities.maxJobs := by
    intro b hb
    obtain ⟨hlist, hact, -⟩ := mem_supporting.mp hb
    obtain ⟨name, c, hl, rfl⟩ := mem_list.mp hlist
    exact hcap name c hl hact
  unfold anyMatchingBuilder at hany
  split at hany
  · rename_i hcand
    obtain ⟨b, hb, hf⟩ := List.any_eq_true.mp hcand
    exact eligible_ne_nil hb hf (hfree b (mem_supporting_of_candidate hb))
  · -- the tier is held, so the third alternative is left
    rcases hopen with hgrace | ⟨hnone, hunseen⟩ | ⟨name, c, hl, hnat, hact, hexcl, hsys, hf⟩
    · rw [nativeHoldoffActive, if_pos hgrace] at hany
      exact absurd hany (by simp)
    · rw [holdoff_eq_false hunseen (Or.inr hnone)] at hany
      exact absurd hany (by simp)
    · have hb : reg.snapshotOf name c ∈ reg.supporting system exclude :=
        mem_supporting.mpr ⟨mem_list.mpr ⟨name, c, hl, rfl⟩, hact, hexcl, hsys⟩
      exact eligible_ne_nil (native_candidate hb hnat)
        (List.all_eq_true.mpr fun f hm => decide_eq_true (hf f hm)) (hfree _ hb)

/-- The grace of a builder that has left runs out. -/
theorem exists_longUnseen (reg : BuilderRegistry) (system : String) {polls : ℕ → ℕ}
    (hpolls : ∀ t, ∃ n, t ≤ polls n) : ∃ n, reg.LongUnseen (polls n) system := by
  cases hl : reg.lastNativeSeen.lookup system with
  | none =>
    refine ⟨0, fun t ht => ?_⟩
    rw [hl] at ht
    exact absurd ht (by simp)
  | some t₀ =>
    obtain ⟨n, hn⟩ := hpolls (t₀ + reg.spillGrace)
    refine ⟨n, fun t ht => ?_⟩
    rw [hl, Option.some.injEq] at ht
    omega

/-- An open tier is open at every time at which no native builder was seen for long. -/
theorem TierOpen.later (h : reg.TierOpen now system features exclude) {now' : ℕ}
    (hunseen : reg.LongUnseen now' system) : reg.TierOpen now' system features exclude :=
  h.imp_right (Or.imp_left fun hnone => ⟨hnone.1, hunseen⟩)

/-- The tier is held for native builders that are registered and excluded: the job waits for one to
    reconnect. -/
theorem parked (hgrace : reg.spillGrace ≠ 0) (hnat : reg.NativeActive system)
    (hexcl : ∀ name c, reg.inner.lookup name = some c → c.state = .active →
      c.capabilities.nativeSystem = system → c.connectionId ∈ exclude) :
    reg.anyMatchingBuilder now system features exclude = true ∧
      reg.eligible now system features exclude = [] := by
  have hhold := holdoff_of_nativeActive hgrace hnat now
  have hnone : reg.systemCandidates now system exclude = [] := by
    unfold systemCandidates
    rw [if_neg, if_pos hhold]
    intro hany
    obtain ⟨b, hb, hbn⟩ := List.any_eq_true.mp hany
    obtain ⟨hlist, hact, hnot, -⟩ := mem_supporting.mp hb
    obtain ⟨name, c, hl, rfl⟩ := mem_list.mp hlist
    exact hnot (hexcl name c hl hact (of_decide_eq_true hbn))
  refine ⟨?_, by simp [eligible, hnone]⟩
  unfold anyMatchingBuilder
  split
  · rfl
  · exact hhold

/-- **A capacity wait is only ever for capacity**, unless the tier is held for a native builder.
    Then it ends. A tier that is held for an excluded builder is waited for instead. -/
theorem waits_for_capacity (reg : BuilderRegistry) (now : ℕ) (system : String)
    (features : List String) (exclude : List ℕ) (hcap : reg.FreeEverywhere) :
    (reg.TierOpen now system features exclude →
      (reg.anyMatchingBuilder now system features exclude = true →
        reg.eligible now system features exclude ≠ []) ∧
      ∀ polls : ℕ → ℕ, (∀ t, ∃ n, t ≤ polls n) →
        ∃ n, reg.leavesWait (polls n) system features exclude = true) ∧
    (reg.spillGrace ≠ 0 → reg.NativeActive system →
      (∀ name c, reg.inner.lookup name = some c → c.state = .active →
        c.capabilities.nativeSystem = system → c.connectionId ∈ exclude) →
      reg.anyMatchingBuilder now system features exclude = true ∧
        reg.eligible now system features exclude = []) := by
  refine ⟨fun hopen => ⟨eligible_of_anyMatching hcap hopen, fun polls hpolls => ?_⟩, parked⟩
  obtain ⟨n, hn⟩ := exists_longUnseen reg system hpolls
  refine ⟨n, ?_⟩
  unfold leavesWait
  cases hany : reg.anyMatchingBuilder (polls n) system features exclude with
  | false => simp
  | true =>
    have := eligible_of_anyMatching hcap (hopen.later hn) hany
    simpa using this

/-- A native `aarch64` builder beside an emulating one, and a grace of 300 s. -/
def armAndEmulator : BuilderRegistry :=
  ((new.setSpillGrace 300).register 0 ⟨"arm"⟩
      { capabilities := ⟨["aarch64-linux"], "aarch64-linux", [], 4⟩, state := .active,
        connectionId := 0 }).register 0 ⟨"x86-binfmt"⟩
    { capabilities := ⟨["x86_64-linux", "aarch64-linux"], "x86_64-linux", [], 4⟩, state := .active,
      connectionId := 1 }

theorem armAndEmulator_native : armAndEmulator.NativeActive "aarch64-linux" :=
  ⟨⟨"arm"⟩, _, rfl, rfl, rfl⟩

theorem armAndEmulator_excluded : ∀ name c, armAndEmulator.inner.lookup name = some c →
    c.state = .active → c.capabilities.nativeSystem = "aarch64-linux" → c.connectionId ∈ [0] := by
  refine HashMap.forall_lookup_iff.mpr ?_
  decide

theorem waits_for_capacity_arm :
    armAndEmulator.anyMatchingBuilder 1000 "aarch64-linux" [] [0] = true ∧
      armAndEmulator.eligible 1000 "aarch64-linux" [] [0] = [] ∧
      ∃ n, armAndEmulator.leavesWait (1000 + n) "aarch64-linux" [] [] = true := by
  obtain ⟨-, hparked⟩ := waits_for_capacity armAndEmulator 1000 "aarch64-linux" [] [0] (by decide)
  obtain ⟨hopen, -⟩ := waits_for_capacity armAndEmulator 1000 "aarch64-linux" [] [] (by decide)
  obtain ⟨hany, hnone⟩ := hparked (by decide) armAndEmulator_native armAndEmulator_excluded
  exact ⟨hany, hnone, (hopen (by decide)).2 (fun n => 1000 + n) fun t => ⟨t, by omega⟩⟩

theorem not_for_capacity_excluded :
    ¬ ∀ (reg : BuilderRegistry) (now : ℕ) (system : String) (features : List String)
      (exclude : List ℕ), reg.NoDeparture now system → reg.FreeEverywhere →
      reg.anyMatchingBuilder now system features exclude = true →
      reg.eligible now system features exclude ≠ [] := by
  intro h
  obtain ⟨hany, hnone⟩ := @parked armAndEmulator 1000 "aarch64-linux" [] [0] (by decide)
    armAndEmulator_native armAndEmulator_excluded
  exact h armAndEmulator 1000 "aarch64-linux" [] [0] (by decide) (by decide) hany hnone

end BuilderRegistry

end Argunix.Builders
