import Argunix.Sched.Fairness

/-!
# What goes into a WFQ core and what comes out

A `Ledger` is the history of a core as its strategy sees it: the tags it has enqueued and the
tags the core has popped, each with its repo, oldest first. `Fits` is what every sequence of
calls keeps:

* per repo, what was popped followed by what is still queued is a **sublist** of what was
  enqueued, so the queue is first-in-first-out, and an entry that was cancelled is the only
  kind that is skipped;
* no tag is popped and queued more often than it was enqueued;
* the slots in use never exceed the cap.

The strategies then have to say only which calls they make.
-/

set_option autoImplicit false
set_option linter.unusedSectionVars false

namespace Argunix.Sched

open Argunix.Lib

@[ext]
structure Ledger (T : Type) where
  enqueued : List (RepoId × T)
  popped : List (RepoId × T)
deriving DecidableEq

/-- The tags of one repo. -/
def lane {T : Type} (es : List (RepoId × T)) (r : RepoId) : List T :=
  (es.filter fun e => e.1 = r).map Prod.snd

namespace Ledger

variable {T : Type}

def empty : Ledger T := ⟨[], []⟩

/-- Carry on with the entries of a later stretch. -/
def append (l l' : Ledger T) : Ledger T :=
  ⟨l.enqueued ++ l'.enqueued, l.popped ++ l'.popped⟩

instance : Append (Ledger T) := ⟨append⟩

@[simp]
theorem append_enqueued (l l' : Ledger T) : (l ++ l').enqueued = l.enqueued ++ l'.enqueued := rfl

@[simp]
theorem append_popped (l l' : Ledger T) : (l ++ l').popped = l.popped ++ l'.popped := rfl

theorem append_empty (l : Ledger T) : l ++ ⟨[], []⟩ = l := by
  ext1 <;> simp

end Ledger

section Lane

variable {T : Type}

@[simp]
theorem lane_append (es es' : List (RepoId × T)) (r : RepoId) :
    lane (es ++ es') r = lane es r ++ lane es' r := by
  simp [lane]

@[simp]
theorem lane_singleton (r r' : RepoId) (t : T) :
    lane [(r', t)] r = if r' = r then [t] else [] := by
  unfold lane
  by_cases h : r' = r <;> simp [h]

end Lane

namespace WfqCore

variable {T : Type} [DecidableEq T]

/-- The tags queued for one repo, the head first. -/
def queue (c : WfqCore T) (r : RepoId) : List T :=
  ((c.repos.lookup r).map fun st => st.pending.map Prod.snd).getD []

theorem queue_enqueue (c : WfqCore T) (r r' : RepoId) (t : T) :
    (c.enqueue r t).queue r' = c.queue r' ++ if r = r' then [t] else [] := by
  unfold queue
  rw [lookup_enqueue]
  by_cases h : r' = r
  · subst h
    cases hl : c.repos.lookup r' <;> simp [RepoState.push, RepoState.new]
  · simp [h, Ne.symm h]

/-- A pop takes the head of its repo's queue. -/
theorem queue_pop {c c' : WfqCore T} {p : Popped T} (h : c.dispatch = (some p, c'))
    (r : RepoId) : c.queue r = (if p.repoId = r then [p.tag] else []) ++ c'.queue r := by
  rcases dispatch_cases c with ⟨hn, -⟩ | ⟨r', st, q, tag, rest, hl, hpend, -, -, hd⟩
  · rw [hn] at h
    simp at h
  · rw [hd] at h
    simp only [Prod.mk.injEq, Option.some.injEq] at h
    obtain ⟨rfl, rfl⟩ := h
    unfold queue
    rw [HashMap.lookup_modify]
    by_cases hr : r = r'
    · subst hr
      simp [hl, RepoState.pop, hpend]
    · simp [hr, Ne.symm hr]

theorem queue_cancelPending (c : WfqCore T) (p : T → Bool) (r : RepoId) :
    (c.cancelPending p).2.queue r = (c.queue r).filter fun t => !p t := by
  unfold queue
  rw [lookup_cancelPending]
  cases c.repos.lookup r with
  | none => rfl
  | some st => simp [List.filter_map, Function.comp_def]

theorem queuedCount_cancelPending (c : WfqCore T) (p : T → Bool) (t : T) :
    (c.cancelPending p).2.queuedCount t = if p t then 0 else c.queuedCount t := by
  have hcount : ∀ st : RepoState T,
      ((st.pending.filter fun e => !p e.2).map Prod.snd).count t
        = if p t then 0 else (st.pending.map Prod.snd).count t := by
    intro st
    have hmap : (st.pending.filter fun e => !p e.2).map Prod.snd
        = (st.pending.map Prod.snd).filter fun u => !p u := by
      simp [List.filter_map, Function.comp_def]
    rw [hmap]
    cases hp : p t with
    | true => simp [List.count_eq_zero, hp]
    | false => simp [List.count_filter, hp]
  unfold queuedCount cancelPending
  simp only [HashMap.sumOver, HashMap.mapValues, List.map_map, Function.comp_def, hcount]
  cases p t <;> simp

theorem capReached_iff {c : WfqCore T} :
    c.capReached = true ↔ ∃ n, c.concurrencyCap = some n ∧ n ≤ c.inFlightCount := by
  unfold capReached inFlightCount
  cases c.concurrencyCap <;> simp

/-- A core that answers nothing is full or has nothing queued. -/
theorem dispatch_none {c c' : WfqCore T} (h : c.dispatch = (none, c')) :
    c' = c ∧ (c.capReached = true ∨ c.pendingCount = 0) := by
  rcases dispatch_cases c with ⟨hn, hor⟩ | ⟨r, st, q, tag, rest, -, -, -, -, hd⟩
  · rw [hn] at h
    exact ⟨(Prod.ext_iff.mp h).2.symm, hor.imp id pendingCount_eq_zero_iff.mpr⟩
  · rw [hd] at h
    simp at h

theorem capReached_of_pop {c c' : WfqCore T} {p : Popped T} (h : c.dispatch = (some p, c')) :
    c.capReached = false := by
  rcases dispatch_cases c with ⟨hn, -⟩ | ⟨r, st, q, tag, rest, -, -, -, hcap, -⟩
  · rw [hn] at h
    simp at h
  · exact hcap

end WfqCore

namespace Ledger

variable {T : Type} [DecidableEq T] {l : Ledger T} {cap : Option ℕ} {c c' : WfqCore T}

/-- The ledger and the core agree. -/
structure Fits (l : Ledger T) (cap : Option ℕ) (c : WfqCore T) : Prop where
  capKept : c.concurrencyCap = cap
  slots : ∀ n, cap = some n → c.inFlightCount ≤ n
  fifo : ∀ r, (lane l.popped r ++ c.queue r).Sublist (lane l.enqueued r)
  counted : ∀ t, (l.popped.map Prod.snd).count t + c.queuedCount t
    ≤ (l.enqueued.map Prod.snd).count t

namespace Fits

theorem new (cap : Option ℕ) : Fits (T := T) .empty cap (WfqCore.new cap) where
  capKept := rfl
  slots := fun _ _ => Nat.zero_le _
  fifo := fun _ => List.Sublist.refl _
  counted := fun _ => Nat.le_refl _

theorem shuffle (h : Fits l cap c) (hs : WfqCore.Shuffle c c') : Fits l cap c' where
  capKept := hs.concurrencyCap.trans h.capKept
  slots := fun n hn => by
    have hlen : c'.inFlight.keys.length = c.inFlight.keys.length := by
      simpa [AList.keys, List.keys] using hs.inFlight.length_eq.symm
    exact hlen.trans_le (h.slots n hn)
  fifo := fun r => by
    rw [show c'.queue r = c.queue r by unfold WfqCore.queue; rw [hs.lookup]]
    exact h.fifo r
  counted := fun t => by
    rw [hs.queuedCount]
    exact h.counted t

theorem setWeight (h : Fits l cap c) (r : RepoId) (w : ℕ) : Fits l cap (c.setWeight r w) where
  capKept := h.capKept
  slots := h.slots
  fifo := fun r' => by
    have hq : (c.setWeight r w).queue r' = c.queue r' := by
      unfold WfqCore.queue
      rw [WfqCore.lookup_setWeight]
      by_cases hr : r' = r
      · subst hr
        cases hl : c.repos.lookup r' <;> simp [RepoState.setWeight, RepoState.new]
      · simp [hr]
    rw [hq]
    exact h.fifo r'
  counted := fun t => by
    rw [WfqCore.queuedCount_setWeight]
    exact h.counted t

theorem enqueue (h : Fits l cap c) (r : RepoId) (t : T) :
    Fits (l ++ ⟨[(r, t)], []⟩) cap (c.enqueue r t) where
  capKept := h.capKept
  slots := h.slots
  fifo := fun r' => by
    simp only [append_popped, append_enqueued, List.append_nil, lane_append, lane_singleton,
      WfqCore.queue_enqueue]
    rw [← List.append_assoc]
    exact (h.fifo r').append (List.Sublist.refl _)
  counted := fun t' => by
    have := h.counted t'
    simp only [append_popped, append_enqueued, List.append_nil, List.map_append, List.map_cons,
      List.map_nil, List.count_append, List.count_singleton, beq_iff_eq,
      WfqCore.queuedCount_enqueue]
    have hif : (if t = t' then 1 else 0) = if t' = t then 1 else 0 := by
      simp [eq_comm]
    omega

theorem enqueueAll (es : List (RepoId × T)) :
    ∀ {l : Ledger T} {c : WfqCore T}, Fits l cap c →
      Fits (l ++ ⟨es, []⟩) cap (es.foldl (fun c e => c.enqueue e.1 e.2) c) := by
  induction es with
  | nil =>
    intro l c h
    rw [append_empty]
    exact h
  | cons e es ih =>
    intro l c h
    have hstep := ih (h.enqueue e.1 e.2)
    have hl : l ++ ⟨[(e.1, e.2)], []⟩ ++ ⟨es, []⟩ = l ++ ⟨e :: es, []⟩ := by
      ext1 <;> simp
    rw [hl] at hstep
    exact hstep

theorem pop (h : Fits l cap c) {p : Popped T} (hd : c.dispatch = (some p, c')) :
    Fits (l ++ ⟨[], [(p.repoId, p.tag)]⟩) cap c' where
  capKept := (WfqCore.inFlight_pop hd).2.trans h.capKept
  slots := fun n hn => by
    have hfree := WfqCore.capReached_of_pop hd
    have hlt : c.inFlight.keys.length < n := by
      simpa [WfqCore.capReached, h.capKept, hn] using hfree
    have hle : (c.inFlight.insert p.tag p.repoId).keys.length ≤ c.inFlight.keys.length + 1 := by
      rw [AList.keys_insert, List.length_cons]
      exact Nat.succ_le_succ (List.length_erase_le)
    show c'.inFlight.keys.length ≤ n
    rw [(WfqCore.inFlight_pop hd).1]
    omega
  fifo := fun r => by
    have := h.fifo r
    rw [WfqCore.queue_pop hd] at this
    simpa [List.append_assoc] using this
  counted := fun t => by
    have := h.counted t
    rw [WfqCore.queuedCount_pop hd] at this
    simp only [append_popped, append_enqueued, List.append_nil, List.map_append, List.map_cons,
      List.map_nil, List.count_append, List.count_singleton, beq_iff_eq]
    have hif : (if p.tag = t then 1 else 0) = if t = p.tag then 1 else 0 := by
      simp [eq_comm]
    omega

theorem complete (h : Fits l cap c) (t : T) : Fits l cap (c.complete t).2 where
  capKept := h.capKept
  slots := fun n hn => by
    have hle : (c.inFlight.erase t).keys.length ≤ c.inFlight.keys.length := by
      rw [AList.keys_erase]
      exact List.length_erase_le
    exact hle.trans (h.slots n hn)
  fifo := h.fifo
  counted := h.counted

theorem cancelPending (h : Fits l cap c) (p : T → Bool) : Fits l cap (c.cancelPending p).2 where
  capKept := h.capKept
  slots := h.slots
  fifo := fun r => by
    rw [WfqCore.queue_cancelPending]
    exact ((List.Sublist.refl _).append List.filter_sublist).trans (h.fifo r)
  counted := fun t => by
    rw [WfqCore.queuedCount_cancelPending]
    have := h.counted t
    split <;> omega

theorem lane_sublist (h : Fits l cap c) (r : RepoId) :
    (lane l.popped r).Sublist (lane l.enqueued r) :=
  (List.sublist_append_left _ _).trans (h.fifo r)

/-- What was enqueued once is popped at most once. -/
theorem nodup (h : Fits l cap c) (hnd : (l.enqueued.map Prod.snd).Nodup) :
    (l.popped.map Prod.snd).Nodup := by
  rw [List.nodup_iff_count_le_one] at hnd ⊢
  intro t
  have := h.counted t
  have := hnd t
  omega

/-- A tag that was enqueued once and is queued has not been popped. -/
theorem notMem_popped (h : Fits l cap c) (hnd : (l.enqueued.map Prod.snd).Nodup) {t : T}
    (hq : 0 < c.queuedCount t) : t ∉ l.popped.map Prod.snd := by
  intro hmem
  have := List.count_pos_iff.mpr hmem
  have := h.counted t
  have := List.nodup_iff_count_le_one.mp hnd t
  omega

end Fits

end Ledger

end Argunix.Sched
