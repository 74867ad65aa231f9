import Mathlib.Data.List.MinMax
import Mathlib.Data.Prod.Lex
import Mathlib.Data.Rat.Defs
import Mathlib.Algebra.Order.Ring.Rat
import Mathlib.Algebra.Order.Field.Basic
import Mathlib.Tactic.Positivity
import Argunix.Lib.HashMap
import Argunix.Domain

/-!
# `argunix-sched::wfq`: the weighted-fair-queueing core

Each repo carries a `virtualTime`; the repo with the lowest virtual time and pending work
wins a dispatch, ties going to the older head entry; the winner's clock then advances by
`1 / weight`. A repo that goes from empty to non-empty is pulled forward to the minimum
virtual time of the repos that have pending work, **if there is one**.

The tag type `T` is whatever the calling strategy uses to find its own state again, so the
core is generic in it, as in the source. `f64` becomes `ℚ`: the clocks are exact here.

The second half is the specification the strategies use: what `enqueue` and `dispatch` do to
one repo's entry, how many times a tag is queued (`queuedCount`), and the inversion lemma
`dispatch_cases`, which says everything a dispatch can do.
-/

set_option autoImplicit false
set_option linter.unusedSectionVars false

namespace Argunix.Sched

open Argunix.Lib

/-- Default per-repo weight. -/
def DEFAULT_WEIGHT : ℕ := 1

/-- One repo's queue. The weight is positive in every value of the type: `RepoState::new`
    and `set_weight` both clamp it. -/
structure RepoState (T : Type) where
  weight : ℕ
  virtualTime : ℚ
  /-- Each entry carries its enqueue sequence number. -/
  pending : List (ℕ × T)
  weight_pos : 0 < weight
deriving DecidableEq

namespace RepoState

variable {T : Type}

/-- A repository that has asked for nothing. A weight of zero counts as one. -/
def new (weight : ℕ) : RepoState T :=
  { weight := max weight 1, virtualTime := 0, pending := [], weight_pos := by omega }

/-- `has_pending` -/
def hasPending (s : RepoState T) : Bool := !s.pending.isEmpty

/-- `earliest_seq` -/
def earliestSeq (s : RepoState T) : Option ℕ := s.pending.head?.map Prod.fst

/-- `state.weight = weight.max(1)` -/
def setWeight (weight : ℕ) (s : RepoState T) : RepoState T :=
  { s with weight := max weight 1, weight_pos := by omega }

/-- What `WfqCore::enqueue` does to the repo's entry: pull the clock of an empty repo
    forward to `snapTo`, then append. -/
def push (snapTo : Option ℚ) (seq : ℕ) (tag : T) (s : RepoState T) : RepoState T :=
  let virtualTime :=
    if s.hasPending then s.virtualTime
    else match snapTo with
      | some minVt => if s.virtualTime < minVt then minVt else s.virtualTime
      | none => s.virtualTime
  { s with virtualTime := virtualTime, pending := s.pending ++ [(seq, tag)] }

/-- What `WfqCore::dispatch` does to the winner's entry. -/
def pop (s : RepoState T) : RepoState T :=
  { s with pending := s.pending.tail, virtualTime := s.virtualTime + 1 / s.weight }

end RepoState

/-- What `dispatch` hands out. -/
structure Popped (T : Type) where
  tag : T
  repoId : RepoId
deriving DecidableEq

/-- The queues of all repositories. -/
structure WfqCore (T : Type) where
  repos : HashMap RepoId (RepoState T)
  inFlight : HashMap T RepoId
  concurrencyCap : Option ℕ
  nextSeq : ℕ

namespace WfqCore

variable {T : Type} [DecidableEq T]

/-- No repository is known. -/
def new (concurrencyCap : Option ℕ) : WfqCore T :=
  { repos := ∅, inFlight := ∅, concurrencyCap := concurrencyCap, nextSeq := 0 }

/-- `repos.entry(repo_id).or_insert_with(|| RepoState::new(weight))` -/
def entryOrInsert (repos : HashMap RepoId (RepoState T)) (repoId : RepoId) (weight : ℕ) :
    HashMap RepoId (RepoState T) :=
  match repos.lookup repoId with
  | some _ => repos
  | none => repos.insert repoId (RepoState.new weight)

/-- `set_weight` -/
def setWeight (c : WfqCore T) (repoId : RepoId) (weight : ℕ) : WfqCore T :=
  { c with repos := (entryOrInsert c.repos repoId weight).modify repoId (·.setWeight weight) }

/-- The minimum virtual time among repos with pending work. -/
def systemVirtualTime (c : WfqCore T) : Option ℚ :=
  ((c.repos.values.filter (·.hasPending)).map (·.virtualTime)).min?

/-- `enqueue` -/
def enqueue (c : WfqCore T) (repoId : RepoId) (tag : T) : WfqCore T :=
  { c with
    repos := (entryOrInsert c.repos repoId DEFAULT_WEIGHT).modify repoId
      (·.push c.systemVirtualTime c.nextSeq tag)
    nextSeq := c.nextSeq + 1 }

/-- The loop body of `dispatch`: keep the best candidate seen so far. -/
def better (best : Option (RepoId × ℚ × ℕ)) (e : Sigma fun _ : RepoId => RepoState T) :
    Option (RepoId × ℚ × ℕ) :=
  match e.2.earliestSeq with
  | none => best
  | some earliest =>
    let candidate := (e.1, e.2.virtualTime, earliest)
    match best with
    | none => some candidate
    | some prev =>
      if candidate.2.1 < prev.2.1 ∨ (candidate.2.1 = prev.2.1 ∧ candidate.2.2 < prev.2.2) then
        some candidate
      else some prev

/-- The repo `dispatch` picks, scanning `repos` in its current iteration order. -/
def pick (c : WfqCore T) : Option (RepoId × ℚ × ℕ) := c.repos.entries.foldl better none

/-- `self.in_flight.len() >= cap` -/
def capReached (c : WfqCore T) : Bool :=
  match c.concurrencyCap with
  | some cap => decide (cap ≤ c.inFlight.keys.length)
  | none => false

/-- `dispatch` -/
def dispatch (c : WfqCore T) : Option (Popped T) × WfqCore T :=
  if c.capReached then (none, c)
  else match c.pick with
    | none => (none, c)
    | some (repoId, _, _) =>
      match (c.repos.lookup repoId).bind (·.pending.head?) with
      | none => (none, c) -- both `expect`s; `dispatch_cases` shows the branch is not taken
      | some (_, tag) =>
        (some { tag := tag, repoId := repoId },
          { c with
            repos := c.repos.modify repoId (·.pop)
            inFlight := c.inFlight.insert tag repoId })

/-- Frees an in-flight slot; answers the repo the tag belonged to. -/
def complete (c : WfqCore T) (tag : T) : Option RepoId × WfqCore T :=
  (c.inFlight.lookup tag, { c with inFlight := c.inFlight.erase tag })

/-- Remove every pending tag matching `predicate` without dispatching it; answers the removed
    tags. In-flight tags are not touched. -/
def cancelPending (c : WfqCore T) (predicate : T → Bool) : List T × WfqCore T :=
  (c.repos.values.flatMap fun s => (s.pending.map Prod.snd).filter predicate,
    { c with repos := c.repos.mapValues fun s =>
        { s with pending := s.pending.filter fun e => !predicate e.2 } })

/-- `pending_count` -/
def pendingCount (c : WfqCore T) : ℕ := c.repos.sumOver fun _ s => s.pending.length

/-- `in_flight_count` -/
def inFlightCount (c : WfqCore T) : ℕ := c.inFlight.keys.length

/-- How many times a tag is queued, over all repos. -/
def queuedCount (c : WfqCore T) (tag : T) : ℕ :=
  c.repos.sumOver fun _ s => (s.pending.map Prod.snd).count tag

/-! ## Iteration order -/

/-- The same core with its hash maps iterated in another order. -/
structure Shuffle (c c' : WfqCore T) : Prop where
  repos : HashMap.Shuffle c.repos c'.repos
  inFlight : HashMap.Shuffle c.inFlight c'.inFlight
  concurrencyCap : c'.concurrencyCap = c.concurrencyCap
  nextSeq : c'.nextSeq = c.nextSeq

theorem Shuffle.refl (c : WfqCore T) : Shuffle c c := ⟨.refl _, .refl _, rfl, rfl⟩

theorem Shuffle.lookup {c c' : WfqCore T} (h : Shuffle c c') (r : RepoId) :
    c'.repos.lookup r = c.repos.lookup r :=
  (HashMap.Shuffle.lookup h.repos r).symm

theorem Shuffle.queuedCount {c c' : WfqCore T} (h : Shuffle c c') (t : T) :
    c'.queuedCount t = c.queuedCount t :=
  (HashMap.sumOver_shuffle h.repos).symm

theorem Shuffle.pendingCount {c c' : WfqCore T} (h : Shuffle c c') :
    c'.pendingCount = c.pendingCount :=
  (HashMap.sumOver_shuffle h.repos).symm

/-! ## What one repo's entry looks like after each operation -/

section Entries

variable (c : WfqCore T) (r r' : RepoId) (w : ℕ) (t t' : T)

theorem lookup_entryOrInsert (repos : HashMap RepoId (RepoState T)) :
    (entryOrInsert repos r w).lookup r'
      = if r' = r then some ((repos.lookup r).getD (RepoState.new w)) else repos.lookup r' := by
  unfold entryOrInsert
  cases h : repos.lookup r with
  | some st =>
    by_cases hr : r' = r
    · subst hr
      simp [h]
    · simp [hr]
  | none =>
    rw [HashMap.lookup_insert_eq]
    simp

theorem lookup_setWeight :
    (c.setWeight r w).repos.lookup r'
      = if r' = r then some (((c.repos.lookup r).getD (RepoState.new w)).setWeight w)
        else c.repos.lookup r' := by
  simp only [setWeight, HashMap.lookup_modify, lookup_entryOrInsert]
  split <;> simp

theorem lookup_enqueue :
    (c.enqueue r t).repos.lookup r'
      = if r' = r then
          some (((c.repos.lookup r).getD (RepoState.new DEFAULT_WEIGHT)).push
            c.systemVirtualTime c.nextSeq t)
        else c.repos.lookup r' := by
  simp only [enqueue, HashMap.lookup_modify, lookup_entryOrInsert]
  split <;> simp

/-- A weight that a fresh repo does not have is unchanged by registering one. -/
theorem sumOver_entryOrInsert {f : RepoId → RepoState T → ℕ}
    (repos : HashMap RepoId (RepoState T)) (hf : f r (RepoState.new w) = 0) :
    (entryOrInsert repos r w).sumOver f = repos.sumOver f := by
  unfold entryOrInsert
  cases h : repos.lookup r with
  | some st => rfl
  | none => rw [HashMap.sumOver_insert_of_notMem h, hf, Nat.zero_add]

/-- How `setWeight` and `enqueue` change a sum: through the one entry they rewrite. -/
theorem sumOver_entryOrInsert_modify {f : RepoId → RepoState T → ℕ}
    (repos : HashMap RepoId (RepoState T)) (g : RepoState T → RepoState T)
    (hf : f r (RepoState.new w) = 0) :
    ((entryOrInsert repos r w).modify r g).sumOver f
        + f r ((repos.lookup r).getD (RepoState.new w))
      = repos.sumOver f + f r (g ((repos.lookup r).getD (RepoState.new w))) := by
  have hl : (entryOrInsert repos r w).lookup r = some ((repos.lookup r).getD (RepoState.new w)) := by
    simp [lookup_entryOrInsert]
  have := HashMap.sumOver_modify (w := f) hl g
  rw [sumOver_entryOrInsert r w repos hf] at this
  exact this

@[simp]
theorem queuedCount_setWeight : (c.setWeight r w).queuedCount t = c.queuedCount t := by
  have := sumOver_entryOrInsert_modify (f := fun _ s => (s.pending.map Prod.snd).count t) r w
    c.repos (·.setWeight w) (by simp [RepoState.new])
  simp only [RepoState.setWeight] at this
  simp only [queuedCount, setWeight, RepoState.setWeight]
  omega

theorem queuedCount_enqueue :
    (c.enqueue r t).queuedCount t' = c.queuedCount t' + if t' = t then 1 else 0 := by
  have := sumOver_entryOrInsert_modify (f := fun _ s => (s.pending.map Prod.snd).count t') r
    DEFAULT_WEIGHT c.repos (·.push c.systemVirtualTime c.nextSeq t) (by simp [RepoState.new])
  simp only [RepoState.push, List.map_append, List.map_cons, List.map_nil, List.count_append,
    List.count_singleton, beq_iff_eq] at this
  simp only [queuedCount, enqueue, RepoState.push]
  have hif : (if t = t' then 1 else 0) = if t' = t then 1 else 0 := by
    simp [eq_comm]
  omega

end Entries

theorem mem_values_iff {c : WfqCore T} {st : RepoState T} :
    st ∈ c.repos.values ↔ ∃ r, c.repos.lookup r = some st := by
  unfold HashMap.values
  simp only [List.mem_map]
  constructor
  · rintro ⟨⟨r, st'⟩, hmem, rfl⟩
    exact ⟨r, HashMap.mem_entries_iff.mp hmem⟩
  · rintro ⟨r, hl⟩
    exact ⟨⟨r, st⟩, HashMap.mem_entries_iff.mpr hl, rfl⟩

theorem hasPending_iff {st : RepoState T} : st.hasPending = true ↔ st.pending ≠ [] := by
  simp [RepoState.hasPending]

/-! ## The system virtual time is the minimum clock of the non-empty queues -/

theorem systemVirtualTime_eq_some_iff {c : WfqCore T} {m : ℚ} :
    c.systemVirtualTime = some m ↔
      (∃ r st, c.repos.lookup r = some st ∧ st.pending ≠ [] ∧ st.virtualTime = m) ∧
      ∀ r st, c.repos.lookup r = some st → st.pending ≠ [] → m ≤ st.virtualTime := by
  unfold systemVirtualTime
  rw [List.min?_eq_some_iff]
  simp only [List.mem_map, List.mem_filter, mem_values_iff, hasPending_iff]
  constructor
  · rintro ⟨⟨st, ⟨⟨r, hl⟩, hp⟩, hv⟩, hmin⟩
    exact ⟨⟨r, st, hl, hp, hv⟩, fun r' st' hl' hp' => hmin _ ⟨st', ⟨⟨r', hl'⟩, hp'⟩, rfl⟩⟩
  · rintro ⟨⟨r, st, hl, hp, hv⟩, hmin⟩
    refine ⟨⟨st, ⟨⟨r, hl⟩, hp⟩, hv⟩, ?_⟩
    rintro _ ⟨st', ⟨⟨r', hl'⟩, hp'⟩, rfl⟩
    exact hmin r' st' hl' hp'

theorem systemVirtualTime_eq_none_iff {c : WfqCore T} :
    c.systemVirtualTime = none ↔ ∀ r st, c.repos.lookup r = some st → st.pending = [] := by
  unfold systemVirtualTime
  rw [List.min?_eq_none_iff, List.map_eq_nil_iff, List.filter_eq_nil_iff]
  simp only [mem_values_iff, hasPending_iff, ne_eq, not_not, forall_exists_index]
  exact forall_comm

/-! ## The pick is the lexicographic minimum of `(virtual_time, earliest seq)` -/

/-- The candidates `dispatch` compares, in iteration order. -/
def candidates (c : WfqCore T) : List (RepoId × ℚ × ℕ) :=
  c.repos.entries.filterMap fun e => e.2.earliestSeq.map fun q => (e.1, e.2.virtualTime, q)

theorem pick_eq_argmin (c : WfqCore T) :
    c.pick = c.candidates.argmin fun x => toLex x.2 := by
  unfold pick candidates List.argmin
  rw [List.foldl_filterMap]
  congr 1
  funext best e
  unfold better
  cases e.2.earliestSeq with
  | none => rfl
  | some q =>
    cases best with
    | none => rfl
    | some prev =>
      simp only [Option.map_some, List.argAux, Prod.Lex.toLex_lt_toLex]

theorem mem_candidates_iff {c : WfqCore T} {r : RepoId} {vt : ℚ} {q : ℕ} :
    (r, vt, q) ∈ c.candidates ↔
      ∃ st, c.repos.lookup r = some st ∧ st.virtualTime = vt ∧ st.earliestSeq = some q := by
  unfold candidates
  simp only [List.mem_filterMap, Option.map_eq_some_iff, Prod.mk.injEq]
  constructor
  · rintro ⟨⟨r', st⟩, hmem, q', hq, rfl, rfl, rfl⟩
    exact ⟨st, HashMap.mem_entries_iff.mp hmem, rfl, hq⟩
  · rintro ⟨st, hl, rfl, hq⟩
    exact ⟨⟨r, st⟩, HashMap.mem_entries_iff.mpr hl, q, hq, rfl, rfl, rfl⟩

theorem pick_eq_none_iff {c : WfqCore T} :
    c.pick = none ↔ ∀ r st, c.repos.lookup r = some st → st.pending = [] := by
  rw [pick_eq_argmin, List.argmin_eq_none, List.eq_nil_iff_forall_not_mem]
  constructor
  · intro h r st hl
    cases hp : st.pending with
    | nil => rfl
    | cons e rest =>
      exact absurd (mem_candidates_iff.mpr ⟨st, hl, rfl, by simp [RepoState.earliestSeq, hp]⟩)
        (h (r, st.virtualTime, e.1))
  · rintro h ⟨r, vt, q⟩ hmem
    obtain ⟨st, hl, -, hq⟩ := mem_candidates_iff.mp hmem
    simp [RepoState.earliestSeq, h r st hl] at hq

/-- What the picked triple says about the map: it is the head of a non-empty queue, and no
    other non-empty queue has a smaller clock. -/
theorem pick_spec {c : WfqCore T} {r : RepoId} {vt : ℚ} {q : ℕ} (h : c.pick = some (r, vt, q)) :
    ∃ st tag rest, c.repos.lookup r = some st ∧ st.pending = (q, tag) :: rest ∧
      ∀ r' st', c.repos.lookup r' = some st' → st'.pending ≠ [] →
        st.virtualTime ≤ st'.virtualTime := by
  rw [pick_eq_argmin] at h
  obtain ⟨st, hl, rfl, hq⟩ := mem_candidates_iff.mp (List.argmin_mem h)
  cases hp : st.pending with
  | nil => simp [RepoState.earliestSeq, hp] at hq
  | cons e rest =>
    obtain ⟨q', tag⟩ := e
    obtain rfl : q' = q := by simpa [RepoState.earliestSeq, hp] using hq
    refine ⟨st, tag, rest, hl, hp, fun r' st' hl' hne => ?_⟩
    obtain ⟨e', rest', hp'⟩ := List.exists_cons_of_ne_nil hne
    have hmem : (r', st'.virtualTime, e'.1) ∈ c.candidates :=
      mem_candidates_iff.mpr ⟨st', hl', rfl, by simp [RepoState.earliestSeq, hp']⟩
    have hle := List.le_of_mem_argmin hmem h
    rw [Prod.Lex.toLex_le_toLex] at hle
    rcases hle with hlt | ⟨heq, -⟩
    · exact le_of_lt hlt
    · exact le_of_eq heq

/-! ## Everything a dispatch can do -/

/-- **Inversion of `dispatch`.** It answers nothing and changes nothing, because the cap is
    reached or every queue is empty; or it pops the head of a queue with a minimal clock. -/
theorem dispatch_cases (c : WfqCore T) :
    (c.dispatch = (none, c) ∧
      (c.capReached = true ∨ ∀ r st, c.repos.lookup r = some st → st.pending = [])) ∨
    ∃ r st q tag rest, c.repos.lookup r = some st ∧ st.pending = (q, tag) :: rest ∧
      (∀ r' st', c.repos.lookup r' = some st' → st'.pending ≠ [] →
        st.virtualTime ≤ st'.virtualTime) ∧
      c.capReached = false ∧
      c.dispatch = (some { tag := tag, repoId := r },
        { c with
          repos := c.repos.modify r (·.pop)
          inFlight := c.inFlight.insert tag r }) := by
  unfold dispatch
  cases hcap : c.capReached with
  | true => exact Or.inl ⟨by simp, Or.inl rfl⟩
  | false =>
    cases hp : c.pick with
    | none => exact Or.inl ⟨by simp, Or.inr (pick_eq_none_iff.mp hp)⟩
    | some p =>
      obtain ⟨r, vt, q⟩ := p
      obtain ⟨st, tag, rest, hl, hpend, hmin⟩ := pick_spec hp
      refine Or.inr ⟨r, st, q, tag, rest, hl, hpend, hmin, rfl, ?_⟩
      simp [hl, hpend]

theorem pendingCount_eq_zero_iff {c : WfqCore T} :
    c.pendingCount = 0 ↔ ∀ r st, c.repos.lookup r = some st → st.pending = [] := by
  unfold pendingCount
  rw [HashMap.sumOver_eq_zero_iff]
  simp

/-- A core without a cap answers nothing exactly when nothing is queued. -/
theorem dispatch_eq_none_iff {c : WfqCore T} (hfree : c.capReached = false) :
    c.dispatch = (none, c) ↔ c.pendingCount = 0 := by
  rw [pendingCount_eq_zero_iff]
  rcases dispatch_cases c with ⟨hn, hor⟩ | ⟨r, st, q, tag, rest, hl, hp, -, -, hd⟩
  · refine iff_of_true hn (hor.resolve_left ?_)
    rw [hfree]
    simp
  · refine iff_of_false (by simp [hd]) fun h => ?_
    rw [h r st hl] at hp
    exact absurd hp (by simp)

/-- What a pop does outside the queues: it takes a slot. -/
theorem inFlight_pop {c c' : WfqCore T} {p : Popped T} (h : c.dispatch = (some p, c')) :
    c'.inFlight = c.inFlight.insert p.tag p.repoId ∧ c'.concurrencyCap = c.concurrencyCap := by
  rcases dispatch_cases c with ⟨hn, -⟩ | ⟨r, st, q, tag, rest, -, -, -, -, hd⟩
  · rw [hn] at h
    simp at h
  · rw [hd] at h
    simp only [Prod.mk.injEq, Option.some.injEq] at h
    obtain ⟨rfl, rfl⟩ := h
    exact ⟨rfl, rfl⟩

/-- A popped tag leaves the queue once; everything else stays queued as often as before. -/
theorem queuedCount_pop {c c' : WfqCore T} {p : Popped T} (h : c.dispatch = (some p, c')) (t : T) :
    c.queuedCount t = c'.queuedCount t + if t = p.tag then 1 else 0 := by
  rcases dispatch_cases c with ⟨hn, -⟩ | ⟨r, st, q, tag, rest, hl, hpend, -, -, hd⟩
  · rw [hn] at h
    simp at h
  · rw [hd] at h
    simp only [Prod.mk.injEq, Option.some.injEq] at h
    obtain ⟨rfl, rfl⟩ := h
    have hs := HashMap.sumOver_modify (w := fun _ s => (s.pending.map Prod.snd).count t) hl (·.pop)
    simp only [RepoState.pop, hpend, List.tail_cons, List.map_cons, List.count_cons,
      beq_iff_eq] at hs
    simp only [queuedCount, RepoState.pop]
    have hif : (if tag = t then 1 else 0) = if t = tag then 1 else 0 := by
      simp [eq_comm]
    omega

/-- Each pop shortens the queues by one entry, which is what bounds the swallow loop of
    `DagStrategy::dispatch`. -/
theorem pendingCount_pop {c c' : WfqCore T} {p : Popped T} (h : c.dispatch = (some p, c')) :
    c.pendingCount = c'.pendingCount + 1 := by
  rcases dispatch_cases c with ⟨hn, -⟩ | ⟨r, st, q, tag, rest, hl, hpend, -, -, hd⟩
  · rw [hn] at h
    simp at h
  · rw [hd] at h
    simp only [Prod.mk.injEq, Option.some.injEq] at h
    obtain ⟨rfl, rfl⟩ := h
    have hs := HashMap.sumOver_modify (w := fun _ s => s.pending.length) hl (·.pop)
    simp only [RepoState.pop, hpend, List.tail_cons, List.length_cons] at hs
    simp only [pendingCount, RepoState.pop]
    omega

theorem queuedCount_eq_zero_of_pendingCount {c : WfqCore T} (h : c.pendingCount = 0) (t : T) :
    c.queuedCount t = 0 := by
  unfold queuedCount
  rw [HashMap.sumOver_eq_zero_iff]
  intro r st hl
  simp [pendingCount_eq_zero_iff.mp h r st hl]

@[simp]
theorem queuedCount_complete (c : WfqCore T) (tag t : T) :
    (c.complete tag).2.queuedCount t = c.queuedCount t := rfl

@[simp]
theorem pendingCount_complete (c : WfqCore T) (tag : T) :
    (c.complete tag).2.pendingCount = c.pendingCount := rfl

end WfqCore

end Argunix.Sched
