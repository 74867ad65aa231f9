import Mathlib.Data.List.Sort
import Argunix.Lib.HashMap
import Argunix.Lib.Runs

/-!
# AgentFlow: the garbage collector of objects

`MoeGCAgent` keeps a table of objects and a count of the storage they use. `run_gc` takes the write
lock of the state three times: to set `gc_in_progress`, to sweep, and to update the statistics. The
second guard lives to the end of the function, so **the third is never given**. A collection that
has started neither returns nor resets `gc_in_progress`.

The count is kept by all that deletes (`Counted`). It is not kept by `register_object` where the
object is known already: the size is added again, and that of the old entry never subtracted.

`sound_of_run` says that these are all: no collection starts, no object of some size is registered
again, and the count does not overflow. There is a third mistake that the first one hides. The
policies are one chain of `else if`, and if `max_age_all` is set no object goes for its generation
(`shouldDelete_iff`).
-/

set_option autoImplicit false

namespace Argunix.AgentFlow

open Argunix.Lib

/-- `MoeGCConfig` -/
structure MoeGCConfig where
  /-- Seconds. -/
  maxAgeNoRefs : UInt64
  /-- Seconds; 0 is no limit. -/
  maxAgeAll : UInt64
  keepGenerations : UInt8
  dryRun : Bool
deriving DecidableEq, Repr

/-- `MoeGCConfig::default()` -/
def MoeGCConfig.default : MoeGCConfig := ⟨86400, 2592000, 5, false⟩

/-- An object that was registered. -/
structure GcObject where
  size : UInt64
  /-- In nanoseconds, as all times. -/
  createdAt : ℤ
  generation : UInt64
  referencedBy : List String
  /-- Marked for deletion. -/
  marked : Bool
  processing : Bool
deriving DecidableEq, Repr

/-- `GCStats` -/
structure GcStats where
  runs : UInt64
  objectsChecked : UInt64
  objectsDeleted : UInt64
  bytesReclaimed : UInt64
deriving DecidableEq, Repr

/-- What a collection reports. -/
structure GcResult where
  objectsDeleted : ℕ
  bytesReclaimed : UInt64
  objectsChecked : ℕ
  dryRun : Bool
deriving DecidableEq, Repr

/-- Where `run_gc` stands. -/
inductive GcPc
  | idle
  /-- `gc_in_progress` was set. -/
  | starting (dryRun : Bool)
  /-- The objects were swept, under a guard that is still alive. -/
  | updatingStats (result : GcResult)
  | panicked
deriving DecidableEq, Repr

/-- A collection that has returned. -/
structure Collection where
  dryRun : Bool
  now : ℤ
  currentGeneration : UInt64
  before : HashMap String GcObject
  after : HashMap String GcObject

/-- The collector. The last fields are where a collection stands, and what the collections have
    reported. -/
structure MoeGCAgent where
  config : MoeGCConfig
  objects : HashMap String GcObject
  stats : GcStats
  currentGeneration : UInt64
  gcInProgress : Bool
  generations : List UInt64
  storageUsed : UInt64
  pc : GcPc
  /-- A write guard of the state is alive. -/
  locked : Bool
  /-- The collection under way, from its sweep on. -/
  current : Option Collection
  collections : List Collection

/-! ## The policies -/

/-- A second. -/
def nanoseconds : ℤ := 1000000000

/-- `secs as i64` -/
def asI64 (secs : UInt64) : ℤ :=
  if secs.toNat < 2 ^ 63 then secs.toNat else secs.toNat - 2 ^ 64

/-- `TimeDelta::seconds(secs as i64)`, which panics if it is out of bounds. -/
def timeDeltaSeconds (secs : UInt64) : Option ℤ :=
  if -9223372036854775 ≤ asI64 secs ∧ asI64 secs ≤ 9223372036854775 then
    some (asI64 secs * nanoseconds)
  else none

/-- `current_generation.saturating_sub(keep_generations)` -/
def minGen (keepGenerations : UInt8) (currentGeneration : UInt64) : ℕ :=
  currentGeneration.toNat - keepGenerations.toNat

/-- Whether an object goes: one without references by its own bound, and every one by the others. -/
def shouldDelete (minGen : ℕ) (maxAgeNoRefs : ℤ) (maxAgeAll : Option ℤ) (now : ℤ)
    (obj : GcObject) : Bool :=
  let isReferenced := !obj.referencedBy.isEmpty
  let age := now - obj.createdAt
  if !isReferenced && maxAgeNoRefs ≤ age then true
  else match maxAgeAll with
    | some maxAge => maxAge ≤ age
    | none => obj.generation.toNat < minGen

/-- The limits of a configuration. `none` is a panic. -/
def limits (config : MoeGCConfig) : Option (ℤ × Option ℤ) :=
  (timeDeltaSeconds config.maxAgeNoRefs).bind fun maxAgeNoRefs =>
    if 0 < config.maxAgeAll then
      (timeDeltaSeconds config.maxAgeAll).map fun maxAgeAll => (maxAgeNoRefs, some maxAgeAll)
    else some (maxAgeNoRefs, none)

/-- The body of the loop. What is processed already is skipped. -/
def checkObject (delete : GcObject → Bool) (dryRun : Bool) (obj : GcObject) : GcObject :=
  if obj.processing then obj
  else { obj with marked := obj.marked || (delete obj && !dryRun), processing := false }

/-! ## The agent -/

namespace MoeGCAgent

/-- A collector that has registered nothing. -/
def new (config : MoeGCConfig) (storageUsed : UInt64) : MoeGCAgent :=
  { config, objects := ∅, stats := ⟨0, 0, 0, 0⟩, currentGeneration := 1, gcInProgress := false,
    generations := [1], storageUsed, pc := .idle, locked := false, current := none,
    collections := [] }

variable {s s' : MoeGCAgent}

/-- `register_object`: an object that is there is replaced, and counted again. -/
def registerObject (s : MoeGCAgent) (hash : String) (size generation : UInt64) (now : ℤ) :
    MoeGCAgent :=
  { s with
    objects := s.objects.insert hash ⟨size, now, generation, [], false, false⟩
    storageUsed := s.storageUsed + size }

/-- `add_reference` -/
def addReference (s : MoeGCAgent) (hash referencedBy : String) : MoeGCAgent :=
  { s with objects := s.objects.modify hash fun obj =>
      { obj with referencedBy := obj.referencedBy.insert referencedBy } }

/-- `update_generation`: the last hundred are kept. -/
def updateGeneration (s : MoeGCAgent) (newGeneration : UInt64) : MoeGCAgent :=
  if s.currentGeneration < newGeneration then
    { s with
      currentGeneration := newGeneration
      generations :=
        if newGeneration ∈ s.generations then s.generations
        else
          let generations := (s.generations ++ [newGeneration]).insertionSort (· ≤ ·)
          generations.drop (generations.length - 100) }
  else s

/-- `force_delete`: references are not looked at. -/
def forceDelete (s : MoeGCAgent) (hash : String) : MoeGCAgent :=
  match s.objects.lookup hash with
  | some obj =>
    { s with objects := s.objects.erase hash, storageUsed := s.storageUsed - obj.size }
  | none => s

/-- The first block of `run_gc`. If a collection is in progress it is an error. -/
def runGc (s : MoeGCAgent) (dryRun : Option Bool) : MoeGCAgent :=
  if s.gcInProgress then s
  else { s with gcInProgress := true, pc := .starting (dryRun.getD s.config.dryRun) }

/-- What the marked objects take up. -/
def markedBytes (objects : HashMap String GcObject) : ℕ :=
  objects.sumOver fun _ obj => if !obj.marked then 0 else obj.size.toNat

/-- The second: it takes a guard, goes through the objects, and removes those that are marked. -/
def sweep (s : MoeGCAgent) (dryRun : Bool) (now : ℤ) : MoeGCAgent :=
  match limits s.config with
  -- the unwinding drops the guard
  | none => { s with pc := .panicked }
  | some (maxAgeNoRefs, maxAgeAll) =>
    let delete := shouldDelete (minGen s.config.keepGenerations s.currentGeneration) maxAgeNoRefs
      maxAgeAll now
    let checked := s.objects.mapValues (checkObject delete dryRun)
    let deleted := s.objects.retain fun _ obj => !obj.processing && delete obj && !dryRun
    let kept := if dryRun then checked else checked.retain fun _ obj => !obj.marked
    { s with
      objects := kept
      storageUsed :=
        if dryRun then s.storageUsed else s.storageUsed - UInt64.ofNat (markedBytes checked)
      locked := true
      pc := .updatingStats
        { objectsDeleted := deleted.keys.length
          bytesReclaimed := UInt64.ofNat (deleted.sumOver fun _ obj => obj.size.toNat)
          objectsChecked := s.objects.keys.length
          dryRun := dryRun }
      current := some ⟨dryRun, now, s.currentGeneration, s.objects, kept⟩ }

/-- The third, and the end of the function. -/
def updateStats (s : MoeGCAgent) (result : GcResult) : MoeGCAgent :=
  { s with
    stats :=
      { runs := s.stats.runs + 1
        objectsChecked := s.stats.objectsChecked + UInt64.ofNat result.objectsChecked
        objectsDeleted := s.stats.objectsDeleted + UInt64.ofNat result.objectsDeleted
        bytesReclaimed := s.stats.bytesReclaimed + result.bytesReclaimed }
    gcInProgress := false
    pc := .idle
    locked := false
    current := none
    collections := s.collections ++ s.current.toList }

/-- The calls of others, and the steps of a collection. -/
inductive Action
  | registerObject (hash : String) (size generation : UInt64) (now : ℤ)
  | addReference (hash referencedBy : String)
  | updateGeneration (newGeneration : UInt64)
  | forceDelete (hash : String)
  | runGc (dryRun : Option Bool)
  | sweep (now : ℤ)
  | updateStats

/-- One step. Every function has the agent to itself (`&mut self`), and waits for the lock. -/
def act (s : MoeGCAgent) : Action → Option MoeGCAgent
  | .registerObject hash size generation now =>
    if s.pc = .idle ∧ !s.locked then some (s.registerObject hash size generation now) else none
  | .addReference hash referencedBy =>
    if s.pc = .idle ∧ !s.locked then some (s.addReference hash referencedBy) else none
  | .updateGeneration newGeneration =>
    if s.pc = .idle ∧ !s.locked then some (s.updateGeneration newGeneration) else none
  | .forceDelete hash =>
    if s.pc = .idle ∧ !s.locked then some (s.forceDelete hash) else none
  | .runGc dryRun => if s.pc = .idle ∧ !s.locked then some (s.runGc dryRun) else none
  | .sweep now =>
    match s.pc with
    | .starting dryRun => if !s.locked then some (s.sweep dryRun now) else none
    | _ => none
  | .updateStats =>
    match s.pc with
    | .updatingStats result => if !s.locked then some (s.updateStats result) else none
    | _ => none

/-! ## What is wanted -/

/-- The sizes of the tracked objects. -/
def tracked (s : MoeGCAgent) : ℕ := s.objects.sumOver fun _ obj => obj.size.toNat

/-- **The books are kept.** The subtractions subtract what is tracked, so then they never wrap. -/
def Counted (initial : UInt64) (s : MoeGCAgent) : Prop :=
  s.storageUsed.toNat = initial.toNat + s.tracked

/-- An object is to go: nothing refers to it and it is old enough, or it is older than anything may
    be, or its generation is none of those that are kept. -/
def Expired (config : MoeGCConfig) (currentGeneration : UInt64) (now : ℤ) (obj : GcObject) :
    Prop :=
  (obj.referencedBy = [] ∧ config.maxAgeNoRefs.toNat * nanoseconds ≤ now - obj.createdAt) ∨
    (config.maxAgeAll ≠ 0 ∧ config.maxAgeAll.toNat * nanoseconds ≤ now - obj.createdAt) ∨
    obj.generation.toNat < minGen config.keepGenerations currentGeneration

/-- A collection has removed what was to go, and a dry run nothing. -/
def Exact (config : MoeGCConfig) (c : Collection) : Prop :=
  ∀ hash obj, c.before.lookup hash = some obj →
    (c.after.lookup hash = none ↔
      c.dryRun = false ∧ Expired config c.currentGeneration c.now obj)

/-- **The books are kept, every collection that has started completes**, and has removed what it
    should when it has. -/
structure Sound (initial : UInt64) (s : MoeGCAgent) : Prop where
  counted : Counted initial s
  completes : ∃ s', Runs act Always s s' ∧ s'.pc = .idle
  released : s.pc = .idle → s.gcInProgress = false
  exact : ∀ c ∈ s.collections, Exact s.config c

/-- No object that has a size is registered again, and the count does not overflow. -/
def Registers (s : MoeGCAgent) : Action → Prop
  | .registerObject hash size _ _ =>
    (∀ obj ∈ s.objects.lookup hash, obj.size = 0) ∧ s.storageUsed.toNat + size.toNat < 2 ^ 64
  | _ => True

/-- Nor does a collection start. -/
def Meets (s : MoeGCAgent) (a : Action) : Prop :=
  s.Registers a ∧ ∀ dryRun, a = .runGc dryRun → s.gcInProgress = true

/-! ## The count -/

variable {initial : UInt64}

theorem Counted.registerObject (h : Counted initial s) {hash : String} {size : UInt64}
    (generation : UInt64) (now : ℤ) :
    Counted initial (s.registerObject hash size generation now) ↔
      s.Registers (.registerObject hash size generation now) := by
  have hadd : (s.registerObject hash size generation now).storageUsed.toNat =
      (s.storageUsed.toNat + size.toNat) % 2 ^ 64 := UInt64.toNat_add _ _
  have hsize := size.toNat_lt
  have hused := s.storageUsed.toNat_lt
  rw [Counted] at h
  rw [Counted, hadd, Registers]
  cases hlook : s.objects.lookup hash with
  | none =>
    have hsum : (s.registerObject hash size generation now).tracked = size.toNat + s.tracked :=
      HashMap.sumOver_insert_of_notMem hlook _
    rw [hsum]
    constructor
    · intro heq
      exact ⟨fun obj hobj => absurd hobj (by simp), by omega⟩
    · intro ⟨_, hlt⟩
      omega
  | some old =>
    have hsum : (s.registerObject hash size generation now).tracked + old.size.toNat =
        size.toNat + s.tracked := by
      have herase := HashMap.sumOver_erase (w := fun _ (obj : GcObject) => obj.size.toNat) hlook
      have hinsert := HashMap.sumOver_insert (w := fun _ (obj : GcObject) => obj.size.toNat) hash
        ⟨size, now, generation, [], false, false⟩ s.objects
      rw [tracked, tracked, ← herase, ← Nat.add_assoc]
      exact congrArg (· + old.size.toNat) hinsert
    have hold := old.size.toNat_lt
    have hzero : (∀ obj ∈ (some old : Option GcObject), obj.size = 0) ↔ old.size.toNat = 0 := by
      simp [← UInt64.toNat_inj]
    rw [hzero]
    omega

theorem toNat_sub_ofNat {a : UInt64} {n : ℕ} (h : n ≤ a.toNat) :
    (a - UInt64.ofNat n).toNat = a.toNat - n := by
  have hn : (UInt64.ofNat n).toNat = n := by
    rw [UInt64.toNat_ofNat']
    exact Nat.mod_eq_of_lt (Nat.lt_of_le_of_lt h a.toNat_lt)
  rw [UInt64.toNat_sub_of_le _ _ (UInt64.le_iff_toNat_le.mpr (hn.symm ▸ h)), hn]

theorem Counted.forceDelete (h : Counted initial s) (hash : String) :
    Counted initial (s.forceDelete hash) := by
  rw [MoeGCAgent.forceDelete]
  cases hlook : s.objects.lookup hash with
  | none => exact h
  | some obj =>
    have herase := HashMap.sumOver_erase (w := fun _ (obj : GcObject) => obj.size.toNat) hlook
    rw [Counted, tracked] at h
    have hle : obj.size ≤ s.storageUsed := UInt64.le_iff_toNat_le.mpr (by omega)
    rw [Counted, tracked]
    dsimp only
    rw [UInt64.toNat_sub_of_le _ _ hle]
    omega

/-- What a sweep removes is what it subtracts. -/
theorem Counted.sweep (h : Counted initial s) (dryRun : Bool) (now : ℤ) :
    Counted initial (s.sweep dryRun now) := by
  unfold MoeGCAgent.sweep
  cases limits s.config with
  | none => exact h
  | some ages =>
    obtain ⟨maxAgeNoRefs, maxAgeAll⟩ := ages
    dsimp only
    generalize shouldDelete _ maxAgeNoRefs maxAgeAll now = delete
    have hsize : ∀ obj, (checkObject delete dryRun obj).size = obj.size := by
      intro obj
      rw [checkObject]
      split <;> rfl
    have hchecked : HashMap.sumOver (fun _ (obj : GcObject) => obj.size.toNat)
        (s.objects.mapValues (checkObject delete dryRun)) = s.tracked :=
      HashMap.sumOver_mapValues (fun _ obj => by rw [hsize]) s.objects
    rw [Counted] at h
    cases dryRun with
    | true =>
      rw [Counted, tracked]
      exact h.trans (congrArg _ hchecked.symm)
    | false =>
      have hretain := HashMap.sumOver_retain (fun _ (obj : GcObject) => obj.size.toNat)
        (fun _ obj => !obj.marked) (s.objects.mapValues (checkObject delete false))
      rw [hchecked] at hretain
      have hmarked : markedBytes (s.objects.mapValues (checkObject delete false)) ≤
          s.storageUsed.toNat := by
        rw [markedBytes]
        omega
      rw [Counted, tracked]
      dsimp only
      rw [if_neg Bool.false_ne_true, if_neg Bool.false_ne_true, toNat_sub_ofNat hmarked,
        markedBytes]
      omega

/-- **The count is kept by every step** but the registration of an object of some size again. -/
theorem Counted.step (h : Counted initial s) {a : Action} (hok : s.Registers a)
    (hact : s.act a = some s') : Counted initial s' := by
  cases a with
  | registerObject hash size generation now =>
    simp only [act, Option.ite_none_right_eq_some, Option.some.injEq] at hact
    exact hact.2 ▸ (h.registerObject generation now).mpr hok
  | addReference hash referencedBy =>
    simp only [act, Option.ite_none_right_eq_some, Option.some.injEq] at hact
    have hsum : (s.addReference hash referencedBy).tracked = s.tracked :=
      HashMap.sumOver_modify_same (w := fun _ (obj : GcObject) => obj.size.toNat)
        (f := fun obj => { obj with referencedBy := obj.referencedBy.insert referencedBy })
        (fun _ => rfl) s.objects
    rw [← hact.2, Counted, hsum]
    exact h
  | updateGeneration newGeneration =>
    simp only [act, Option.ite_none_right_eq_some, Option.some.injEq] at hact
    rw [← hact.2, MoeGCAgent.updateGeneration]
    split <;> exact h
  | forceDelete hash =>
    simp only [act, Option.ite_none_right_eq_some, Option.some.injEq] at hact
    exact hact.2 ▸ h.forceDelete hash
  | runGc dryRun =>
    simp only [act, Option.ite_none_right_eq_some, Option.some.injEq] at hact
    rw [← hact.2, MoeGCAgent.runGc]
    split <;> exact h
  | sweep now =>
    simp only [act] at hact
    split at hact
    · simp only [Option.ite_none_right_eq_some, Option.some.injEq] at hact
      exact hact.2 ▸ h.sweep _ now
    · cases hact
  | updateStats =>
    simp only [act] at hact
    split at hact
    · simp only [Option.ite_none_right_eq_some, Option.some.injEq] at hact
      exact hact.2 ▸ h
    · cases hact

/-- **In every run the books are kept**, collections and all, as long as nothing that has a size is
    registered again. -/
theorem counted_of_run {config : MoeGCConfig} {initial : UInt64}
    (h : Runs act Registers (new config initial) s) : Counted initial s :=
  h.invariant (I := Counted initial) rfl fun hi hok hact => hi.step hok hact

/-! ## The lock -/

/-- **A collection that has started never returns.** It is up to the sweep, or it waits for the lock
    that it holds, or it has panicked. -/
def Stuck (s : MoeGCAgent) : Prop :=
  (∃ dryRun, s.pc = .starting dryRun) ∨ (∃ result, s.pc = .updatingStats result ∧ s.locked = true) ∨
    s.pc = .panicked

theorem Stuck.step (h : s.Stuck) {a : Action} (hact : s.act a = some s') : s'.Stuck := by
  have hidle : s.pc ≠ .idle := by
    rcases h with ⟨_, hpc⟩ | ⟨_, hpc, _⟩ | hpc <;> simp [hpc]
  cases a with
  | sweep now =>
    simp only [act] at hact
    split at hact
    · simp only [Option.ite_none_right_eq_some, Option.some.injEq] at hact
      rw [← hact.2, MoeGCAgent.sweep]
      cases limits s.config with
      | none => exact .inr (.inr rfl)
      | some ages => exact .inr (.inl ⟨_, rfl, rfl⟩)
    · cases hact
  | updateStats =>
    simp only [act] at hact
    split at hact
    · rename_i result hpc
      rcases h with ⟨_, hpc'⟩ | ⟨_, -, hlocked⟩ | hpc'
      · rw [hpc] at hpc'
        cases hpc'
      · simp [hlocked] at hact
      · rw [hpc] at hpc'
        cases hpc'
    · cases hact
  | registerObject | addReference | updateGeneration | forceDelete | runGc =>
    simp [act, hidle] at hact

theorem Stuck.not_completes (h : s.Stuck) : ¬ ∃ s', Runs act Always s s' ∧ s'.pc = .idle := by
  intro ⟨s', hrun, hidle⟩
  have hstuck : s'.Stuck := hrun.invariant h fun hi _ hact => hi.step hact
  rcases hstuck with ⟨_, hpc⟩ | ⟨_, hpc, _⟩ | hpc <;> simp [hpc] at hidle

/-! ## Runs without a collection -/

/-- Nothing is under way. -/
structure Quiet (s : MoeGCAgent) : Prop where
  idle : s.pc = .idle
  free : s.gcInProgress = false
  none : s.collections = []

theorem Quiet.sound (hq : s.Quiet) (h : Counted initial s) : Sound initial s :=
  ⟨h, ⟨s, .refl, hq.idle⟩, fun _ => hq.free, fun c hc => absurd hc (by simp [hq.none])⟩

theorem Quiet.step (hq : s.Quiet) {a : Action} (hok : ∀ dryRun, a ≠ .runGc dryRun)
    (hact : s.act a = some s') : s'.Quiet := by
  cases a with
  | registerObject | addReference =>
    simp only [act, Option.ite_none_right_eq_some, Option.some.injEq] at hact
    exact hact.2 ▸ ⟨hq.idle, hq.free, hq.none⟩
  | updateGeneration newGeneration =>
    simp only [act, Option.ite_none_right_eq_some, Option.some.injEq] at hact
    rw [← hact.2, MoeGCAgent.updateGeneration]
    split <;> exact ⟨hq.idle, hq.free, hq.none⟩
  | forceDelete hash =>
    simp only [act, Option.ite_none_right_eq_some, Option.some.injEq] at hact
    rw [← hact.2, MoeGCAgent.forceDelete]
    split <;> exact ⟨hq.idle, hq.free, hq.none⟩
  | runGc dryRun => exact absurd rfl (hok dryRun)
  | sweep | updateStats => simp [act, hq.idle] at hact

/-- **The property breaks with the first step that does not meet the condition.** -/
theorem Quiet.sound_iff (hq : s.Quiet) (h : Counted initial s) {a : Action}
    (hact : s.act a = some s') : Sound initial s' ↔ s.Meets a := by
  constructor
  · intro hsound
    cases a with
    | registerObject hash size generation now =>
      simp only [act, Option.ite_none_right_eq_some, Option.some.injEq] at hact
      have hcounted := hsound.counted
      rw [← hact.2] at hcounted
      refine ⟨(h.registerObject generation now).mp hcounted, ?_⟩
      intro dryRun heq
      cases heq
    | runGc dryRun =>
      simp only [act, Option.ite_none_right_eq_some, Option.some.injEq] at hact
      have hstuck : s'.Stuck := by
        rw [← hact.2, MoeGCAgent.runGc, hq.free]
        exact .inl ⟨_, rfl⟩
      exact absurd hsound.completes hstuck.not_completes
    | addReference | updateGeneration | forceDelete | sweep | updateStats =>
      exact ⟨trivial, fun dryRun heq => absurd heq (by simp)⟩
  · intro hok
    have hno : ∀ dryRun, a ≠ .runGc dryRun := by
      intro dryRun heq
      have hbusy := hok.2 dryRun heq
      rw [hq.free] at hbusy
      cases hbusy
    exact (hq.step hno hact).sound (h.step hok.1 hact)

/-- **The collector keeps its books and completes what it starts** in every run in which no
    collection starts and nothing of some size is registered again; and with the first step that
    is not like that it does so no more. -/
theorem sound_of_run {config : MoeGCConfig} {initial : UInt64}
    (h : Runs act Meets (new config initial) s) :
    Sound initial s ∧ ∀ a s', s.act a = some s' → (Sound initial s' ↔ s.Meets a) := by
  have hinv : s.Quiet ∧ Counted initial s := by
    refine h.invariant (I := fun s => s.Quiet ∧ Counted initial s) ⟨⟨rfl, rfl, rfl⟩, rfl⟩ ?_
    intro t t' a ⟨hq, hcounted⟩ hok hact
    refine ⟨hq.step (fun dryRun heq => ?_) hact, hcounted.step hok.1 hact⟩
    have hbusy := hok.2 dryRun heq
    rw [hq.free] at hbusy
    cases hbusy
  exact ⟨hinv.1.sound hinv.2, fun a s' hact => hinv.1.sound_iff hinv.2 hact⟩

/-- An object is registered, referred to and deleted, and another is registered. -/
def handling : List Action :=
  [.registerObject "a" 5 1 0, .addReference "a" "b", .updateGeneration 3, .forceDelete "a",
    .registerObject "a" 7 3 1]

instance (s : MoeGCAgent) (a : Action) : Decidable (s.Registers a) := by
  unfold Registers
  split <;> infer_instance

instance (s : MoeGCAgent) (a : Action) : Decidable (s.Meets a) :=
  decidable_of_iff (s.Registers a ∧ (a matches .runGc _ → s.gcInProgress = true)) (by
    unfold Meets
    cases a <;> simp)

theorem sound_of_run_handling :
    ∃ s, Runs act Meets (new .default 0) s ∧ s.storageUsed = 7 ∧ Sound 0 s := by
  have hresult : (script act Meets (new .default 0) handling).map storageUsed = some 7 := by
    decide
  obtain ⟨s, hs, hused⟩ := Option.map_eq_some_iff.mp hresult
  exact ⟨s, .of_script hs, hused, (sound_of_run (.of_script hs)).1⟩

/-- A collection of an empty table never returns. -/
theorem not_sound_started :
    ¬ ∀ (config : MoeGCConfig) (initial : UInt64) (s : MoeGCAgent),
      Runs act Always (new config initial) s → Sound initial s := by
  intro h
  have hrun : Runs act Always (new .default 0) ((new .default 0).runGc none) :=
    .step (a := .runGc none) .refl trivial rfl
  have hstuck : ((new .default 0).runGc none).Stuck := .inl ⟨false, rfl⟩
  exact hstuck.not_completes (h .default 0 _ hrun).completes

/-! ## The chain of policies -/

/-- `max_age_all` is set, the object has not reached that age, and it does not go for want of
    references. -/
def Masked (config : MoeGCConfig) (now : ℤ) (obj : GcObject) : Prop :=
  config.maxAgeAll ≠ 0 ∧ now - obj.createdAt < config.maxAgeAll.toNat * nanoseconds ∧
    ¬ (obj.referencedBy = [] ∧ config.maxAgeNoRefs.toNat * nanoseconds ≤ now - obj.createdAt)

/-- **The chain deletes what is to go, unless a limit for all ages masks the generation.** -/
theorem shouldDelete_iff {config : MoeGCConfig} {currentGeneration : UInt64} {now maxAgeNoRefs : ℤ}
    {maxAgeAll : Option ℤ} (hlimits : limits config = some (maxAgeNoRefs, maxAgeAll))
    (hnoRefs : config.maxAgeNoRefs.toNat < 2 ^ 63) (hall : config.maxAgeAll.toNat < 2 ^ 63)
    (obj : GcObject) :
    shouldDelete (minGen config.keepGenerations currentGeneration) maxAgeNoRefs maxAgeAll now obj =
      true ↔ Expired config currentGeneration now obj ∧ ¬ Masked config now obj := by
  have hseconds : ∀ {secs : UInt64} {d : ℤ}, secs.toNat < 2 ^ 63 → timeDeltaSeconds secs = some d →
      d = secs.toNat * nanoseconds := by
    intro secs d hsmall hd
    rw [timeDeltaSeconds, Option.ite_none_right_eq_some, asI64, if_pos hsmall] at hd
    exact (Option.some.inj hd.2).symm
  obtain ⟨age, hage, hrest⟩ := Option.bind_eq_some_iff.mp hlimits
  have hlist : (!obj.referencedBy.isEmpty) = false ↔ obj.referencedBy = [] := by
    simp
  have hzero : 0 < config.maxAgeAll ↔ config.maxAgeAll ≠ 0 := by
    rw [UInt64.lt_iff_toNat_lt, ne_eq, ← UInt64.toNat_inj]
    exact Nat.pos_iff_ne_zero
  unfold shouldDelete
  split at hrest
  · rename_i hset
    obtain ⟨all, hall', heq⟩ := Option.map_eq_some_iff.mp hrest
    obtain ⟨rfl, rfl⟩ := Prod.mk.inj heq
    rw [hseconds hnoRefs hage, hseconds hall hall']
    have hne := hzero.mp hset
    simp only [Bool.not_eq_true', Bool.and_eq_true, decide_eq_true_eq, hlist, Expired, Masked, hne,
      ne_eq, not_false_eq_true, true_and]
    split
    · rename_i hgo
      exact iff_of_true rfl ⟨.inl hgo, fun h => h.2 hgo⟩
    · rename_i hkeep
      simp only [decide_eq_true_eq, hkeep, not_false_eq_true, and_true, not_lt, false_or]
      exact ⟨fun h => ⟨.inl h, h⟩, fun h => h.2⟩
  · rename_i hunset
    obtain ⟨rfl, rfl⟩ := Prod.mk.inj (Option.some.inj hrest)
    rw [hseconds hnoRefs hage]
    have hne : config.maxAgeAll = 0 := not_not.mp (mt hzero.mpr hunset)
    simp only [Bool.not_eq_true', Bool.and_eq_true, decide_eq_true_eq, hlist, Expired, Masked, hne,
      ne_eq, not_true_eq_false, false_and, not_false_eq_true, and_true, false_or]
    split
    · rename_i hgo
      exact iff_of_true rfl (.inl hgo)
    · rename_i hkeep
      simp [hkeep]

end MoeGCAgent

end Argunix.AgentFlow
