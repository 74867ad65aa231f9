import Argunix.Lib.Trace
import Argunix.Builders.Slots

/-!
# The spill grace: emulation must not stand in for a native builder

After the last native builder of a system has gone, its tier is held for a grace: the builder may
be back in seconds, and an emulated build takes hours. The grace is counted from an anchor,
`last_native_seen`, which is set when a native builder registers and when one is removed.

A builder stops being active in two more ways, and neither sets the anchor:

* a `shutdown` message marks it `Disconnecting`. It stays registered, so nothing is removed; but
  the holdoff looks for *active* ones.
* it reconnects under its name with another native system. The takeover notes the new system only.

The anchor is then as old as the registration, and if that is longer ago than the grace the tier
opens at once. `no_stand_in` proves that these two are the only ways: in every history in which
neither of them takes the last active native builder, emulation does not stand in within the grace.
-/

set_option autoImplicit false

namespace Argunix.Builders

open Argunix.Lib

/-- The registry and the clock. -/
structure Watch where
  now : ℕ
  reg : BuilderRegistry

/-- What happens to the registry. -/
inductive WatchAct
  | advance (d : ℕ)
  | register (name : BuilderName) (conn : ConnectedBuilder)
  | markDisconnecting (name : BuilderName)
  | evictDead (name : BuilderName)
  | removeIfMatches (name : BuilderName) (connectionId : ℕ)
  | incInFlight (name : BuilderName)
  | decInFlight (name : BuilderName)

namespace Watch

/-- The daemon starts with a grace and no builders. -/
def new (grace : ℕ) : Watch := { now := 0, reg := BuilderRegistry.new.setSpillGrace grace }

/-- One of these. -/
def act (w : Watch) : WatchAct → Watch
  | .advance d => { w with now := w.now + d }
  | .register name conn => { w with reg := w.reg.register w.now name conn }
  | .markDisconnecting name => { w with reg := w.reg.markDisconnecting name }
  | .evictDead name => { w with reg := w.reg.evictDead w.now name }
  | .removeIfMatches name id => { w with reg := w.reg.removeIfMatches w.now name id }
  | .incInFlight name => { w with reg := w.reg.incInFlight name }
  | .decInFlight name => { w with reg := w.reg.decInFlight name }

/-- One after the other. -/
def run (w : Watch) (as : List WatchAct) : Watch := as.foldl act w

end Watch

namespace BuilderRegistry

/-- Every builder that is offered runs the system natively. -/
def NoStandIn (reg : BuilderRegistry) (now : ℕ) (system : String) : Prop :=
  ∀ features exclude, ∀ b ∈ reg.eligible now system features exclude,
    b.capabilities.nativeSystem = system

/-- An active connection that runs the system natively. -/
def IsNative (reg : BuilderRegistry) (name : BuilderName) (system : String) : Prop :=
  ∃ c, reg.inner.lookup name = some c ∧ c.state = .active ∧ c.capabilities.nativeSystem = system

/-- The only one there is. -/
def LastNative (reg : BuilderRegistry) (name : BuilderName) (system : String) : Prop :=
  reg.IsNative name system ∧ ∀ name', reg.IsNative name' system → name' = name

variable {reg : BuilderRegistry} {now : ℕ} {system : String}

/-- While the tier is held, only native builders are offered. -/
theorem noStandIn_of_holdoff (h : reg.nativeHoldoffActive now system = true) :
    reg.NoStandIn now system := by
  intro features exclude b hb
  unfold eligible at hb
  rw [List.mem_mergeSort] at hb
  have hcand := List.mem_of_mem_filter (List.mem_of_mem_filter hb)
  unfold systemCandidates at hcand
  simp only [h, if_true] at hcand
  split at hcand
  · simpa using (List.mem_filter.mp hcand).2
  · exact absurd hcand (by simp)

/-- The anchor is young enough. -/
theorem holdoff_of_anchor (hgrace : reg.spillGrace ≠ 0) {t : ℕ}
    (hseen : reg.lastNativeSeen.lookup system = some t) (hyoung : now < t + reg.spillGrace) :
    reg.nativeHoldoffActive now system = true := by
  rw [nativeHoldoffActive, if_neg hgrace]
  split
  · rfl
  · rw [hseen]
    simp only [Option.any_some, decide_eq_true_eq]
    omega

/-- With no native builder active and no young anchor, whoever supports the job is offered it. -/
theorem mem_eligible {features : List String} {exclude : List ℕ} {b : BuilderSnapshot}
    (hb : b ∈ reg.supporting system exclude) (hnone : ¬ reg.NativeActive system)
    (hhold : reg.nativeHoldoffActive now system = false)
    (hf : BuilderSnapshot.hasFeatures b features = true)
    (hcap : b.inFlight < b.capabilities.maxJobs) :
    b ∈ reg.eligible now system features exclude := by
  have hcand : b ∈ reg.systemCandidates now system exclude := by
    unfold systemCandidates
    rw [if_neg, if_neg (by simp [hhold])]
    · exact hb
    · intro hany
      obtain ⟨b', hb', hnat⟩ := List.any_eq_true.mp hany
      obtain ⟨hlist, hact, -⟩ := mem_supporting.mp hb'
      obtain ⟨name, c, hl, rfl⟩ := mem_list.mp hlist
      exact hnone ⟨name, c, hl, hact, of_decide_eq_true hnat⟩
  unfold eligible
  rw [List.mem_mergeSort]
  simp [hcand, hf, hcap]

/-! ## What each call does to the anchor -/

theorem lookup_noteNativeSeen (reg : BuilderRegistry) (now : ℕ) (noted : String)
    (hne : system ≠ "") : (reg.noteNativeSeen now noted).lastNativeSeen.lookup system =
      if system = noted then some now else reg.lastNativeSeen.lookup system := by
  unfold noteNativeSeen
  split
  · rename_i hempty
    rw [if_neg fun heq => hne (heq.trans hempty)]
  · exact HashMap.lookup_insert_eq noted system now reg.lastNativeSeen

@[simp]
theorem spillGrace_noteNativeSeen (reg : BuilderRegistry) (now : ℕ) (noted : String) :
    (reg.noteNativeSeen now noted).spillGrace = reg.spillGrace := by
  unfold noteNativeSeen
  split <;> rfl

/-- A native builder of the system is active, or its anchor is not older than `t₀`. -/
def Held (reg : BuilderRegistry) (system : String) (t₀ : ℕ) : Prop :=
  reg.NativeActive system ∨ ∃ t, reg.lastNativeSeen.lookup system = some t ∧ t₀ ≤ t

namespace Held

variable {reg' : BuilderRegistry} {t₀ : ℕ}

/-- A note only makes an anchor younger. -/
theorem note (h : reg.Held system t₀) (hne : system ≠ "") (ht : t₀ ≤ now) (noted : String) :
    (reg.noteNativeSeen now noted).Held system t₀ := by
  rcases h with ⟨name, c, hl, hnat⟩ | ⟨t, hseen, hle⟩
  · exact Or.inl ⟨name, c, by rw [Pool.inner_noteNativeSeen]; exact hl, hnat⟩
  · refine Or.inr ?_
    rw [lookup_noteNativeSeen reg now noted hne]
    split
    · exact ⟨now, rfl, ht⟩
    · exact ⟨t, hseen, hle⟩

/-- The anchor has just been set. -/
theorem noted (reg : BuilderRegistry) (hne : system ≠ "") (ht : t₀ ≤ now) :
    (reg.noteNativeSeen now system).Held system t₀ := by
  refine Or.inr ⟨now, ?_, ht⟩
  rw [lookup_noteNativeSeen reg now system hne, if_pos rfl]

/-- One connection is exchanged or dropped, and it was not the last native one. -/
theorem others (h : reg.Held system t₀) (name : BuilderName)
    (hother : ∀ n, n ≠ name → reg'.inner.lookup n = reg.inner.lookup n)
    (hseen : reg'.lastNativeSeen = reg.lastNativeSeen) (hlast : ¬ reg.LastNative name system) :
    reg'.Held system t₀ := by
  rcases h with ⟨n, hnat⟩ | hanchor
  · refine Or.inl ?_
    have hexists : ∃ n, n ≠ name ∧ reg.IsNative n system := by
      by_cases hn : n = name
      · subst hn
        by_contra hall
        refine hlast ⟨hnat, fun n' hn' => ?_⟩
        by_contra hne
        exact hall ⟨n', hne, hn'⟩
      · exact ⟨n, hn, hnat⟩
    obtain ⟨n', hne, c, hl, hnat'⟩ := hexists
    exact ⟨n', c, (hother n' hne).trans hl, hnat'⟩
  · exact Or.inr (by rwa [hseen])

theorem remove (h : reg.Held system t₀) (hne : system ≠ "") (ht : t₀ ≤ now) {name : BuilderName}
    {c : ConnectedBuilder} (hl : reg.inner.lookup name = some c) :
    (reg.remove now name c).Held system t₀ := by
  by_cases hlast : reg.LastNative name system
  · -- the departure of a native builder is noted
    obtain ⟨⟨c', hl', -, hnat⟩, -⟩ := hlast
    obtain rfl := Option.some.inj (hl.symm.trans hl')
    unfold BuilderRegistry.remove
    rw [hnat]
    exact noted _ hne ht
  · have hdropped : Held { reg with
        inner := reg.inner.erase name
        inFlight := reg.inFlight.erase name } system t₀ := by
      refine h.others name (fun n hn => ?_) rfl hlast
      exact (HashMap.lookup_erase_eq name n reg.inner).trans (if_neg hn)
    exact hdropped.note hne ht _

theorem register (h : reg.Held system t₀) (hne : system ≠ "") (ht : t₀ ≤ now) {name : BuilderName}
    {conn : ConnectedBuilder}
    (hsame : reg.LastNative name system → conn.capabilities.nativeSystem = system) :
    (reg.register now name conn).Held system t₀ := by
  have hinner : ∀ n, n ≠ name →
      (reg.register now name conn).inner.lookup n = reg.inner.lookup n := fun n hn =>
    (Pool.lookup_register reg now name conn n).trans (if_neg hn)
  have hseen : (reg.register now name conn).lastNativeSeen =
      (reg.noteNativeSeen now conn.capabilities.nativeSystem).lastNativeSeen := rfl
  by_cases hlast : reg.LastNative name system
  · refine Or.inr ⟨now, ?_, ht⟩
    rw [hseen, lookup_noteNativeSeen reg now _ hne, if_pos (hsame hlast).symm]
  · have hnoted := h.note hne ht conn.capabilities.nativeSystem
    refine hnoted.others name (fun n hn => ?_) hseen fun hlast' => hlast ?_
    · rw [hinner n hn, Pool.inner_noteNativeSeen]
    · simpa [LastNative, IsNative] using hlast'

end Held

end BuilderRegistry

/-! ## Histories -/

namespace Watch

open BuilderRegistry

variable {w : Watch} {system : String} {t₀ : ℕ}

/-- The step does not take the last active native builder without a note. -/
def Anchored (system : String) (w : Watch) : WatchAct → Prop
  | .markDisconnecting name => ¬ w.reg.LastNative name system
  | .register name conn =>
    w.reg.LastNative name system → conn.capabilities.nativeSystem = system
  | _ => True

theorem act_now (w : Watch) (a : WatchAct) : w.now ≤ (w.act a).now := by
  cases a with
  | advance d => exact Nat.le_add_right _ _
  | _ => exact le_rfl

theorem act_spillGrace (w : Watch) (a : WatchAct) :
    (w.act a).reg.spillGrace = w.reg.spillGrace := by
  cases a with
  | register name conn => exact spillGrace_noteNativeSeen w.reg _ _
  | evictDead name =>
    simp only [act, BuilderRegistry.evictDead]
    split
    · exact spillGrace_noteNativeSeen _ _ _
    · rfl
  | removeIfMatches name id =>
    simp only [act, BuilderRegistry.removeIfMatches]
    split
    · split
      · exact spillGrace_noteNativeSeen _ _ _
      · rfl
    · rfl
  | advance | markDisconnecting | incInFlight | decInFlight => rfl

/-- **One step keeps the tier held.** -/
theorem held_act (h : w.reg.Held system t₀) (hne : system ≠ "") (ht : t₀ ≤ w.now) {a : WatchAct}
    (hok : w.Anchored system a) : (w.act a).reg.Held system t₀ := by
  cases a with
  | advance => exact h
  | register name conn => exact h.register hne ht hok
  | markDisconnecting name =>
    refine h.others name (fun n hn => ?_) rfl hok
    exact HashMap.lookup_modify_ne hn
  | evictDead name =>
    simp only [act, BuilderRegistry.evictDead]
    split
    · rename_i c hl
      exact h.remove hne ht hl
    · exact h
  | removeIfMatches name id =>
    simp only [act, BuilderRegistry.removeIfMatches]
    split
    · rename_i c hl
      split
      · exact h.remove hne ht hl
      · exact h
    · exact h
  | incInFlight | decInFlight => exact h

/-- And so does a history. -/
theorem held_run (hne : system ≠ "") : ∀ {as : List WatchAct} {w : Watch},
    w.reg.Held system t₀ → t₀ ≤ w.now → Steps act (Anchored system) w as →
    (w.run as).reg.Held system t₀ ∧ (w.run as).reg.spillGrace = w.reg.spillGrace
  | [], w, h, _, _ => ⟨h, rfl⟩
  | a :: as, w, h, ht, hok => by
    have hrest := held_run hne (held_act h hne ht hok.1) (ht.trans (w.act_now a)) hok.2
    exact ⟨hrest.1, hrest.2.trans (w.act_spillGrace a)⟩

theorem run_spillGrace : ∀ (as : List WatchAct) (w : Watch),
    (w.run as).reg.spillGrace = w.reg.spillGrace
  | [], _ => rfl
  | a :: as, w => (run_spillGrace as (w.act a)).trans (w.act_spillGrace a)

/-- **Emulation does not stand in for a native builder inside the grace**: whenever a native builder
    was active less than the grace ago, in every history that has not taken the last one
    unnoticed. -/
theorem no_stand_in (grace : ℕ) (as bs : List WatchAct) (system : String) (hgrace : grace ≠ 0)
    (hne : system ≠ "") (hnative : ((new grace).run as).reg.NativeActive system)
    (hok : Steps act (Anchored system) ((new grace).run as) bs)
    (hrecent : (((new grace).run as).run bs).now < ((new grace).run as).now + grace) :
    (((new grace).run as).run bs).reg.NoStandIn (((new grace).run as).run bs).now system := by
  obtain ⟨hheld, hsame⟩ := held_run hne (Or.inl hnative) le_rfl hok
  have hg : (((new grace).run as).run bs).reg.spillGrace = grace :=
    hsame.trans (run_spillGrace as (new grace))
  have hpos : (((new grace).run as).run bs).reg.spillGrace ≠ 0 := by rwa [hg]
  refine noStandIn_of_holdoff ?_
  rcases hheld with hactive | ⟨t, hseen, hle⟩
  · exact holdoff_of_nativeActive hpos hactive _
  · exact holdoff_of_anchor hpos hseen (by omega)

/-! ## An eviction is noted, a shutdown is not -/

/-- A native of `aarch64-linux`. -/
def armCaps : BuilderCapabilities := ⟨["aarch64-linux"], "aarch64-linux", [], 4⟩

/-- A builder that emulates it. -/
def binfmtCaps : BuilderCapabilities := ⟨["x86_64-linux", "aarch64-linux"], "x86_64-linux", [], 4⟩

/-- A native builder and an emulating one, connected for longer than a grace of 300 s. -/
def longConnected : List WatchAct :=
  [.register ⟨"arm"⟩ { capabilities := armCaps, state := .active, connectionId := 0 },
    .register ⟨"x86-binfmt"⟩ { capabilities := binfmtCaps, state := .active, connectionId := 1 },
    .advance 1000]

/-- The native builder goes silent and is evicted; two minutes pass. -/
def evicted : List WatchAct := [.evictDead ⟨"arm"⟩, .advance 120]

theorem longConnected_native : ((new 300).run longConnected).reg.NativeActive "aarch64-linux" :=
  ⟨⟨"arm"⟩, _, rfl, rfl, rfl⟩

theorem no_stand_in_evicted :
    (((new 300).run longConnected).run evicted).reg.eligible 1120 "aarch64-linux" [] [] = [] ∧
      (((new 300).run longConnected).run evicted).reg.NoStandIn 1120 "aarch64-linux" :=
  ⟨by decide +kernel, no_stand_in 300 longConnected evicted "aarch64-linux" (by decide) (by decide)
    longConnected_native ⟨trivial, trivial, trivial⟩ (by decide)⟩

/-- The native builder says that it shuts down. -/
def shutDown : List WatchAct := [.markDisconnecting ⟨"arm"⟩]

theorem shutDown_spills :
    ¬ (((new 300).run longConnected).run shutDown).reg.NoStandIn 1000 "aarch64-linux" := by
  intro h
  have hnone : ∀ name c,
      (((new 300).run longConnected).run shutDown).reg.inner.lookup name = some c →
      c.state = .active → c.capabilities.nativeSystem ≠ "aarch64-linux" :=
    HashMap.forall_lookup_iff.mpr (by decide)
  have hoffered := h [] [] _ (mem_eligible
    (b := (((new 300).run longConnected).run shutDown).reg.snapshotOf ⟨"x86-binfmt"⟩
      { capabilities := binfmtCaps, state := .active, connectionId := 1 })
    (mem_supporting.mpr ⟨mem_list.mpr ⟨_, _, rfl, rfl⟩, rfl, by simp, by decide⟩)
    (fun ⟨name, c, hl, hact, hnat⟩ => hnone name c hl hact hnat) (by decide) (by decide)
    (by decide))
  exact absurd hoffered (by decide)

theorem not_no_stand_in :
    ¬ ∀ (grace : ℕ) (as bs : List WatchAct) (system : String), grace ≠ 0 → system ≠ "" →
      ((new grace).run as).reg.NativeActive system →
      (((new grace).run as).run bs).now < ((new grace).run as).now + grace →
      (((new grace).run as).run bs).reg.NoStandIn (((new grace).run as).run bs).now system :=
  fun h => shutDown_spills (h 300 longConnected shutDown "aarch64-linux" (by decide) (by decide)
    longConnected_native (by decide))

end Watch

end Argunix.Builders
