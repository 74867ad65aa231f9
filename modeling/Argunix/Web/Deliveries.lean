import Mathlib.Data.List.Pairwise
import Argunix.Web.Persist

/-!
# Sequences of deliveries

`persist` keeps two memories that know nothing of each other. The coalesce pool forgets after a
window and is keyed by `(repo, sha)`; the supersede loop is keyed by the branch. Over a sequence of
deliveries two things can go wrong.

* A delivery is remembered before the store is asked. If the store fails, the forge is told so
  and delivers again, and the second delivery is dropped as a duplicate of one that created
  nothing. `coalesced_handled_iff`: exactly if a delivery whose store calls fail is repeated
  within the window.
* A push supersedes the evaluation of an earlier SHA, and a push back to that SHA is dropped as a
  duplicate of the superseded one. `newest_built_iff` says for which sequences the last SHA has
  an evaluation that is not cancelled, whatever the worker does in between.

Deliveries carry the time since the one before, so that the clock only moves forward.
-/

set_option autoImplicit false

namespace Argunix.Web

open Argunix.Lib

/-! ## Arrivals -/

/-- A delivery the policy accepted, and what the store answers to its two calls. -/
structure Delivery where
  wait : ℕ
  repoId : RepoId
  event : NormalizedEvent
  listOk : Bool
  createOk : Bool
deriving DecidableEq, Repr

namespace Delivery

/-- What the coalesce pool remembers of it. -/
def key (d : Delivery) : RepoId × Sha := (d.repoId, d.event.sha)

/-- The delivery gets its evaluation, if it is admitted. -/
def stored (d : Delivery) : Bool := d.listOk && d.createOk

end Delivery

/-- A delivery with the time it came at, and whether the pool let it through. -/
structure Arrival where
  now : ℕ
  delivery : Delivery
  admitted : Bool
deriving DecidableEq, Repr

/-- The pool's answers, which depend on keys and times only. -/
def arrivals : CoalescePool → ℕ → List Delivery → List Arrival
  | _, _, [] => []
  | pool, now, d :: ds =>
    let admission := pool.admitAt d.repoId d.event.sha (now + d.wait)
    ⟨now + d.wait, d, admission.1⟩ :: arrivals admission.2 (now + d.wait) ds

namespace CoalescePool

variable {pool : CoalescePool} {repoId : RepoId} {sha : Sha} {now : ℕ}

@[simp]
theorem window_admitAt : (pool.admitAt repoId sha now).2.window = pool.window := by
  simp only [admitAt]
  split <;> rfl

theorem lookup_retained (k : RepoId × Sha) {deadline : ℕ} :
    (pool.inner.retain fun _ deadline => now < deadline).lookup k = some deadline ↔
      pool.inner.lookup k = some deadline ∧ now < deadline := by
  rw [HashMap.lookup_retain, Option.filter_eq_some_iff, decide_eq_true_eq]

/-- What is dropped is remembered. -/
theorem admitAt_eq_false : (pool.admitAt repoId sha now).1 = false ↔
    ∃ deadline, pool.inner.lookup (repoId, sha) = some deadline ∧ now < deadline := by
  simp only [admitAt]
  split
  · rename_i h
    obtain ⟨deadline, hl⟩ := Option.isSome_iff_exists.mp h
    exact iff_of_true rfl ⟨deadline, (lookup_retained _).mp hl⟩
  · rename_i h
    refine iff_of_false (by simp) fun ⟨deadline, hl⟩ => h ?_
    exact Option.isSome_iff_exists.mpr ⟨deadline, (lookup_retained _).mpr hl⟩

/-- What the pool remembers after a delivery: an unexpired deadline, or the new one. -/
theorem lookup_admitAt {k : RepoId × Sha} {deadline : ℕ} :
    (pool.admitAt repoId sha now).2.inner.lookup k = some deadline ↔
      if k = (repoId, sha) ∧ (pool.admitAt repoId sha now).1 = true
      then deadline = now + pool.window
      else pool.inner.lookup k = some deadline ∧ now < deadline := by
  simp only [admitAt]
  split
  · simp [lookup_retained]
  · simp only [and_true]
    rw [HashMap.lookup_insert_eq]
    by_cases hk : k = (repoId, sha)
    · rw [if_pos hk, if_pos hk, Option.some.injEq, eq_comm]
    · rw [if_neg hk, if_neg hk]
      exact lookup_retained k

end CoalescePool

variable {pool : CoalescePool} {now : ℕ} {ds : List Delivery}

theorem now_le_of_mem_arrivals {a : Arrival} (h : a ∈ arrivals pool now ds) : now ≤ a.now := by
  induction ds generalizing pool now with
  | nil => exact absurd h (by simp [arrivals])
  | cons d ds ih =>
    rcases List.mem_cons.mp h with rfl | h
    · exact Nat.le_add_right _ _
    · exact (Nat.le_add_right _ _).trans (ih h)

/-- A mark in the pool keeps its key out until the deadline. -/
theorem deadline_le {k : RepoId × Sha} {deadline : ℕ} {a : Arrival}
    (hl : pool.inner.lookup k = some deadline) (h : a ∈ arrivals pool now ds)
    (hk : a.delivery.key = k) (hadm : a.admitted = true) : deadline ≤ a.now := by
  induction ds generalizing pool now with
  | nil => exact absurd h (by simp [arrivals])
  | cons d ds ih =>
    by_cases hexp : deadline ≤ now + d.wait
    · rcases List.mem_cons.mp h with rfl | h
      · exact hexp
      · exact hexp.trans (now_le_of_mem_arrivals h)
    · have hdrop : k = d.key → (pool.admitAt d.repoId d.event.sha (now + d.wait)).1 = false :=
        fun hkd => CoalescePool.admitAt_eq_false.mpr
          ⟨deadline, (hkd ▸ hl : pool.inner.lookup d.key = some deadline), by omega⟩
      rcases List.mem_cons.mp h with rfl | h
      · exact absurd (hadm.symm.trans (hdrop hk.symm)) (by simp)
      · refine ih (CoalescePool.lookup_admitAt.mpr ?_) h
        rw [if_neg fun hc => absurd (hc.2.symm.trans (hdrop hc.1)) (by simp)]
        exact ⟨hl, by omega⟩

/-- Two admitted deliveries of one key are a window apart. -/
theorem pairwise_arrivals : (arrivals pool now ds).Pairwise fun a b =>
    a.delivery.key = b.delivery.key → a.admitted = true → b.admitted = true →
      a.now + pool.window ≤ b.now := by
  induction ds generalizing pool now with
  | nil => exact List.Pairwise.nil
  | cons d ds ih =>
    refine List.Pairwise.cons (fun b hb hk ha hadm => ?_) ?_
    · refine deadline_le (CoalescePool.lookup_admitAt.mpr ?_) hb hk.symm hadm
      rw [if_pos ⟨rfl, ha⟩]
    · have htail := @ih (pool.admitAt d.repoId d.event.sha (now + d.wait)).2 (now + d.wait)
      simpa using htail

theorem pairwise_now : (arrivals pool now ds).Pairwise fun a b => a.now ≤ b.now := by
  induction ds generalizing pool now with
  | nil => exact List.Pairwise.nil
  | cons d ds ih => exact List.Pairwise.cons (fun b hb => now_le_of_mem_arrivals hb) ih

/-- **Why a delivery is dropped**: one of the same key was admitted less than a window ago. -/
theorem blocked_of_dropped {pre post : List Arrival} {a : Arrival}
    (h : arrivals pool now ds = pre ++ a :: post) (hdrop : a.admitted = false) :
    (∃ c ∈ pre, c.delivery.key = a.delivery.key ∧ c.admitted = true ∧ a.now < c.now + pool.window) ∨
      ∃ deadline, pool.inner.lookup a.delivery.key = some deadline ∧ a.now < deadline := by
  induction ds generalizing pool now pre with
  | nil => exact absurd h (by simp [arrivals])
  | cons d ds ih =>
    cases pre with
    | nil =>
      obtain ⟨rfl, -⟩ := List.cons.inj h
      exact Or.inr (CoalescePool.admitAt_eq_false.mp hdrop)
    | cons c pre =>
      obtain ⟨rfl, hrest⟩ := List.cons.inj h
      rcases ih hrest with ⟨c, hc, hk, hadm, hlt⟩ | ⟨deadline, hl, hlt⟩
      · exact Or.inl ⟨c, List.mem_cons_of_mem _ hc, hk, hadm, by simpa using hlt⟩
      · rw [CoalescePool.lookup_admitAt] at hl
        split at hl
        · rename_i hc
          exact Or.inl ⟨_, List.mem_cons_self, hc.1.symm, hc.2, hl ▸ hlt⟩
        · exact Or.inr ⟨deadline, hl.1, hlt⟩

/-! ## Redeliveries -/

/-- A delivery that was handled. -/
structure Handled where
  arrival : Arrival
  outcome : Outcome
deriving DecidableEq, Repr

/-- One delivery after the other. -/
def handleAll : AppState → ℕ → List Delivery → List Handled
  | _, _, [] => []
  | st, now, d :: ds =>
    let admitted := (st.coalesce.admitAt d.repoId d.event.sha (now + d.wait)).1
    let res := st.persist (now + d.wait) d.repoId d.event d.listOk d.createOk
    ⟨⟨now + d.wait, d, admitted⟩, res.1⟩ :: handleAll res.2 (now + d.wait) ds

/-- **A coalesced delivery was really handled**: what is dropped has a row that was created within
    the window. -/
def CoalescedHandled (window : ℕ) (log : List Handled) : Prop :=
  ∀ pre h post, log = pre ++ h :: post → h.outcome = .dropped →
    ∃ c ∈ pre, c.arrival.delivery.key = h.arrival.delivery.key ∧ (∃ id, c.outcome = .queued id) ∧
      h.arrival.now < c.arrival.now + window

/-- Nothing that was admitted and not stored is delivered again within the window. -/
def RepeatsStored (window : ℕ) (as : List Arrival) : Prop :=
  ∀ pre a post, as = pre ++ a :: post → ∀ c ∈ pre, c.delivery.key = a.delivery.key →
    c.admitted = true → a.now < c.now + window → c.delivery.stored = true

theorem map_arrival_handleAll (st : AppState) (now : ℕ) (ds : List Delivery) :
    (handleAll st now ds).map (·.arrival) = arrivals st.coalesce now ds := by
  induction ds generalizing st now with
  | nil => rfl
  | cons d ds ih => simp [handleAll, arrivals, ih]

/-- What the outcome of a call says of its arrival. -/
theorem outcome_of_mem {st : AppState} {now : ℕ} {ds : List Delivery} {h : Handled}
    (hm : h ∈ handleAll st now ds) : (h.outcome = .dropped ↔ h.arrival.admitted = false) ∧
      ((∃ id, h.outcome = .queued id) ↔
        h.arrival.admitted = true ∧ h.arrival.delivery.stored = true) := by
  induction ds generalizing st now with
  | nil => exact absurd hm (by simp [handleAll])
  | cons d ds ih =>
    rcases List.mem_cons.mp hm with rfl | hm
    · rcases AppState.persist_cases st (now + d.wait) d.repoId d.event d.listOk d.createOk with
        ⟨ha, ho, -⟩ | ⟨ha, hl, ho, -⟩ | ⟨ha, -, hc, ho, -⟩ | ⟨ha, hl, hc, r, -, ho, -⟩
      · simp [ha, ho]
      · have hstored : d.stored = false := by simp [Delivery.stored, hl]
        simp [ha, ho, hstored]
      · have hstored : d.stored = false := by simp [Delivery.stored, hc]
        simp [ha, ho, hstored]
      · have hstored : d.stored = true := by simp [Delivery.stored, hl, hc]
        simp [ha, ho, hstored]
    · exact ih hm

/-- Between two admissions of one key lies a window, so that only one is in force. -/
theorem admission_unique {pre post : List Arrival} {a c c' : Arrival}
    (h : arrivals pool now ds = pre ++ a :: post) (hc : c ∈ pre) (hc' : c' ∈ pre)
    (hk : c.delivery.key = c'.delivery.key) (hadm : c.admitted = true)
    (hadm' : c'.admitted = true) (hlt : a.now < c.now + pool.window)
    (hlt' : a.now < c'.now + pool.window) : c = c' := by
  have hpair := @pairwise_arrivals pool now ds
  have hnow := @pairwise_now pool now ds
  rw [h] at hpair hnow
  have hbefore : ∀ x ∈ pre, x.now ≤ a.now := fun x hx =>
    (List.pairwise_append.mp hnow).2.2 x hx a List.mem_cons_self
  have hpair := (List.pairwise_append.mp hpair).1
  obtain ⟨l₁, l₂, rfl⟩ := List.append_of_mem hc
  obtain ⟨-, hright, hleft⟩ := List.pairwise_append.mp hpair
  rcases List.mem_append.mp hc' with hm | hm
  · have := hleft c' hm c List.mem_cons_self hk.symm hadm' hadm
    have := hbefore c hc
    omega
  · rcases List.mem_cons.mp hm with rfl | hm
    · rfl
    · have := (List.pairwise_cons.mp hright).1 c' hm hk hadm hadm'
      have := hbefore c' hc'
      omega

/-- **When a coalesced delivery was really handled.** -/
theorem coalesced_handled_iff (evals : EvalTable) (window now : ℕ) (ds : List Delivery) :
    CoalescedHandled window (handleAll (.start evals window) now ds) ↔
      RepeatsStored window (arrivals (.new window) now ds) := by
  constructor
  · intro h pre a post heq c hc hk hadm hlt
    -- the repeated delivery is dropped, so what it is dropped for was stored
    have hdrop : a.admitted = false := by
      by_contra hne
      have hpair := @pairwise_arrivals (.new window) now ds
      rw [heq] at hpair
      have hle : c.now + window ≤ a.now := (List.pairwise_append.mp hpair).2.2 c hc a
        List.mem_cons_self hk hadm (by simpa using hne)
      omega
    have hlog := map_arrival_handleAll (.start evals window) now ds
    rw [show (AppState.start evals window).coalesce = .new window from rfl, heq] at hlog
    obtain ⟨lpre, lrest, hlist, rfl, hrest⟩ := List.map_eq_append_iff.mp hlog
    obtain ⟨g, lpost, rfl, rfl, -⟩ := List.map_eq_cons_iff.mp hrest
    have hmem : g ∈ handleAll (.start evals window) now ds := by simp [hlist]
    obtain ⟨c', hc', hk', hq, hlt'⟩ := h lpre g lpost hlist ((outcome_of_mem hmem).1.mpr hdrop)
    have hmem' : c' ∈ handleAll (.start evals window) now ds := by simp [hlist, hc']
    obtain ⟨hadm', hstored⟩ := (outcome_of_mem hmem').2.mp hq
    rw [admission_unique heq hc (List.mem_map_of_mem hc') (hk.trans hk'.symm) hadm hadm' hlt hlt']
    exact hstored
  · intro h lpre g lpost hlist hdrop
    have hmem : g ∈ handleAll (.start evals window) now ds := by simp [hlist]
    have heq : arrivals (.new window) now ds =
        lpre.map (·.arrival) ++ g.arrival :: lpost.map (·.arrival) := by
      rw [show CoalescePool.new window = (AppState.start evals window).coalesce from rfl,
        ← map_arrival_handleAll, hlist, List.map_append, List.map_cons]
    rcases blocked_of_dropped heq ((outcome_of_mem hmem).1.mp hdrop) with
      ⟨c, hc, hk, hadm, hlt⟩ | ⟨deadline, hl, -⟩
    · have hstored := h _ _ _ heq c hc hk hadm hlt
      obtain ⟨c', hc', rfl⟩ := List.mem_map.mp hc
      have hmem' : c' ∈ handleAll (.start evals window) now ds := by simp [hlist, hc']
      exact ⟨c', hc', hk, (outcome_of_mem hmem').2.mpr ⟨hadm, hstored⟩, hlt⟩
    · exact absurd hl (by simp [CoalescePool.new])

/-- No evaluations yet. -/
def emptyTable : EvalTable := ⟨[], List.Pairwise.nil⟩

/-- The `INSERT` fails, the forge delivers again after a second, and is told that all is well. -/
theorem not_coalesced_handled_retry :
    ¬ ∀ (evals : EvalTable) (window now : ℕ) (ds : List Delivery),
      CoalescedHandled window (handleAll (.start evals window) now ds) := by
  intro h
  let push : NormalizedEvent := .push "refs/heads/main" ⟨"a"⟩
  let log := handleAll (.start emptyTable 5) 0
    [⟨0, ⟨1⟩, push, true, false⟩, ⟨1, ⟨1⟩, push, true, true⟩]
  have hlog : log = [⟨⟨0, ⟨0, ⟨1⟩, push, true, false⟩, true⟩, .failed⟩] ++
      [⟨⟨1, ⟨1, ⟨1⟩, push, true, true⟩, false⟩, .dropped⟩] := by decide
  obtain ⟨c, hc, -, ⟨id, hq⟩, -⟩ := h emptyTable 5 0 _ _ _ _ hlog rfl
  rw [List.mem_singleton.mp hc] at hq
  exact absurd hq (by simp)

/-! ## The newest push -/

/-- The handlers and the worker over one database. `signalled` are the evaluations whose
    cancellation a handler has asked for. -/
structure Front where
  now : ℕ
  app : AppState
  signalled : List EvalId

/-- A delivery, or a statement of the worker on the row of an evaluation. -/
inductive FrontAct
  | deliver (d : Delivery)
  | work (id : EvalId) (status : EvalStatus)

namespace Front

/-- No delivery was handled. -/
def start (evals : EvalTable) (window : ℕ) : Front :=
  { now := 0, app := .start evals window, signalled := [] }

/-- The evaluations a delivery signals. -/
def signals (s : Front) (d : Delivery) : List EvalId :=
  if (s.app.coalesce.admitAt d.repoId d.event.sha (s.now + d.wait)).1 = true ∧ d.listOk = true then
    (s.app.evals.rows.filter fun r => AppState.Supersedes d.repoId d.event r).map (·.id)
  else []

/-- The worker's statements are guarded, and it writes `cancelled` only for an evaluation whose
    token has been fired. -/
def act (s : Front) : FrontAct → Front
  | .deliver d =>
    { now := s.now + d.wait
      app := (s.app.persist (s.now + d.wait) d.repoId d.event d.listOk d.createOk).2
      signalled := s.signalled ++ s.signals d }
  | .work id status =>
    if status = .cancelled ∧ id ∉ s.signalled then s
    else { s with app := { s.app with evals := s.app.evals.setGuarded id status } }

/-- One after the other. -/
def run (s : Front) (acts : List FrontAct) : Front := acts.foldl act s

end Front

namespace FrontAct

/-- The delivery that is handled. -/
def delivery : FrontAct → Option Delivery
  | deliver d => some d
  | work .. => none

end FrontAct

/-- What an evaluation is of. -/
structure Commit where
  repoId : RepoId
  gitRef : String
  sha : Sha
deriving DecidableEq, Repr

/-- What an evaluation is of. -/
def EvalRecord.commit (r : EvalRecord) : Commit := ⟨r.repoId, r.gitRef, r.sha⟩

/-- What a delivery asks for. -/
def Delivery.commit (d : Delivery) : Commit := ⟨d.repoId, d.event.gitRef, d.event.sha⟩

/-- An evaluation of the delivery's SHA on its branch key. -/
def Fits (d : Delivery) (c : Commit) : Prop :=
  c.repoId = d.repoId ∧ c.sha = d.event.sha ∧ branchKey c.gitRef = branchKey d.event.gitRef

instance (d : Delivery) (c : Commit) : Decidable (Fits d c) := inferInstanceAs (Decidable (_ ∧ _ ∧ _))

/-- **The newest push is built**: after the deliveries `ds` and last `d`, with the worker at any
    point, the SHA of `d` has an evaluation on its branch key that is not cancelled. -/
def NewestBuilt (evals : EvalTable) (window : ℕ) (ds : List Delivery) (d : Delivery) : Prop :=
  ∀ acts : List FrontAct, acts.filterMap FrontAct.delivery = ds ++ [d] →
    ∃ r ∈ ((Front.start evals window).run acts).app.evals.rows,
      Fits d r.commit ∧ r.status ≠ .cancelled

/-- The delivery supersedes evaluations of `c`. -/
def Hits (a : Arrival) (c : Commit) : Prop :=
  a.admitted = true ∧ a.delivery.listOk = true ∧ c.repoId = a.delivery.repoId ∧
    matchesKey (branchKey a.delivery.event.gitRef) c.gitRef = true ∧ c.sha ≠ a.delivery.event.sha

instance (a : Arrival) (c : Commit) : Decidable (Hits a c) :=
  inferInstanceAs (Decidable (_ ∧ _ ∧ _ ∧ _ ∧ _))

/-- Of the delivery's SHA and branch key there is an evaluation in the database that has ended, or
    one that no delivery supersedes, or a delivery that got its evaluation and that no later one
    supersedes. -/
def Unsuperseded (evals : EvalTable) (as : List Arrival) (d : Delivery) : Prop :=
  (∃ r ∈ evals.rows, Fits d r.commit ∧ r.status ≠ .cancelled ∧
    (r.status.isTerminal = true ∨ ∀ a ∈ as, ¬ Hits a r.commit)) ∨
  ∃ pre a post, as = pre ++ a :: post ∧ a.admitted = true ∧ a.delivery.stored = true ∧
    Fits d a.delivery.commit ∧ ∀ b ∈ post, ¬ Hits b a.delivery.commit

namespace Front

variable {s : Front} {acts : List FrontAct} {r : EvalRecord}

/-- What is still to arrive. -/
def upcoming (s : Front) (ds : List Delivery) : List Arrival := arrivals s.app.coalesce s.now ds

/-- The evaluations. -/
def rows (s : Front) : List EvalRecord := s.app.evals.rows

/-- The arrival of a delivery. -/
def arrival (s : Front) (d : Delivery) : Arrival :=
  ⟨s.now + d.wait, d, (s.app.coalesce.admitAt d.repoId d.event.sha (s.now + d.wait)).1⟩

theorem upcoming_cons (s : Front) (d : Delivery) (ds : List Delivery) :
    s.upcoming (d :: ds) = s.arrival d :: (s.act (.deliver d)).upcoming ds := by
  simp [upcoming, arrivals, arrival, act]

theorem upcoming_work (s : Front) (id : EvalId) (status : EvalStatus) (ds : List Delivery) :
    (s.act (.work id status)).upcoming ds = s.upcoming ds := by
  simp only [act]
  split <;> rfl

/-- What becomes of a row when the delivery arrives. -/
def afterArrival (a : Arrival) (r : EvalRecord) : EvalRecord :=
  if r.status.isTerminal = false ∧ Hits a r.commit then { r with status := .cancelled } else r

@[simp]
theorem afterArrival_id (a : Arrival) (r : EvalRecord) : (afterArrival a r).id = r.id := by
  unfold afterArrival
  split <;> rfl

@[simp]
theorem afterArrival_commit (a : Arrival) (r : EvalRecord) :
    (afterArrival a r).commit = r.commit := by
  unfold afterArrival
  split <;> rfl

theorem afterArrival_eq {a : Arrival} (h : r.status.isTerminal = true ∨ ¬ Hits a r.commit) :
    afterArrival a r = r := by
  refine if_neg fun hh => ?_
  rcases h with h | h
  · exact absurd (h.symm.trans hh.1) (by simp)
  · exact h hh.2

/-- An admitted delivery whose query is answered hits what it supersedes. -/
theorem afterArrival_eq_afterEvent {d : Delivery} (ha : (s.arrival d).admitted = true)
    (hl : d.listOk = true) : afterArrival (s.arrival d) = AppState.afterEvent d.repoId d.event := by
  funext r
  refine if_congr ?_ rfl rfl
  constructor
  · rintro ⟨hopen, -, -, hrepo, hm, hsha⟩
    exact ⟨hrepo, hopen, hm, hsha⟩
  · rintro ⟨hrepo, hopen, hm, hsha⟩
    exact ⟨hopen, ha, hl, hrepo, hm, hsha⟩

theorem map_afterArrival_of_not_hits {a : Arrival} {rows : List EvalRecord}
    (h : ∀ c, ¬ Hits a c) : rows.map (afterArrival a) = rows :=
  (List.map_congr_left fun r _ => afterArrival_eq (Or.inr (h r.commit))).trans (List.map_id _)

/-- **One delivery**: an open row that is hit is cancelled, every other row stays, and a new row
    comes exactly with a delivery that is admitted and stored. -/
theorem rows_deliver (s : Front) (d : Delivery) :
    ((s.act (.deliver d)).rows = s.rows.map (afterArrival (s.arrival d)) ∧
      ¬ ((s.arrival d).admitted = true ∧ d.stored = true)) ∨
    ((s.arrival d).admitted = true ∧ d.stored = true ∧ ∃ new : EvalRecord,
      (s.act (.deliver d)).rows = s.rows.map (afterArrival (s.arrival d)) ++ [new] ∧
      new.commit = d.commit ∧ new.status = .queued ∧ ∀ r ∈ s.rows, r.id ≠ new.id) := by
  rcases AppState.persist_cases s.app (s.now + d.wait) d.repoId d.event d.listOk d.createOk with
    ⟨ha, -, heq⟩ | ⟨-, hl, -, heq⟩ | ⟨ha, hl, hc, -, hrows⟩ | ⟨ha, hl, hc, new, hnew, -, hrows⟩
  · have ha : (s.arrival d).admitted = false := ha
    refine Or.inl ⟨?_, by simp [ha]⟩
    rw [map_afterArrival_of_not_hits fun c hh => absurd (ha.symm.trans hh.1) (by simp)]
    exact congrArg EvalTable.rows heq
  · refine Or.inl ⟨?_, by simp [Delivery.stored, hl]⟩
    rw [map_afterArrival_of_not_hits fun c hh => absurd (hl.symm.trans hh.2.1) (by simp)]
    exact congrArg EvalTable.rows heq
  · refine Or.inl ⟨?_, by simp [Delivery.stored, hc]⟩
    rw [afterArrival_eq_afterEvent ha hl]
    exact hrows
  · refine Or.inr ⟨ha, by simp [Delivery.stored, hl, hc], new, ?_, ?_, hnew.status, ?_⟩
    · rw [afterArrival_eq_afterEvent ha hl]
      exact hrows
    · simp only [EvalRecord.commit, Delivery.commit, hnew.repoId, hnew.gitRef, hnew.sha]
    · intro r hr heq
      have hlt := EvalTable.lt_nextId
        (List.mem_map_of_mem (f := AppState.afterEvent d.repoId d.event) hr)
      rw [AppState.afterEvent_id, heq, hnew.id] at hlt
      exact absurd hlt (lt_irrefl _)

/-- A row with the id of every row before. -/
def KeepsIds (s s' : Front) : Prop := ∀ r ∈ s.rows, ∃ r' ∈ s'.rows, r'.id = r.id

theorem keepsIds_act (s : Front) (a : FrontAct) : KeepsIds s (s.act a) := by
  intro r hr
  cases a with
  | deliver d =>
    refine ⟨afterArrival (s.arrival d) r, ?_, by simp⟩
    rcases rows_deliver s d with ⟨heq, -⟩ | ⟨-, -, new, heq, -⟩
    · rw [heq]
      exact List.mem_map_of_mem hr
    · rw [heq]
      exact List.mem_append_left _ (List.mem_map_of_mem hr)
  | work id status =>
    simp only [act]
    split
    · exact ⟨r, hr, rfl⟩
    · exact ⟨_, List.mem_map_of_mem hr, EvalTable.guarded_id id status r⟩

/-- What is signalled is in the table. -/
def Signalled (s : Front) : Prop := ∀ id ∈ s.signalled, ∃ r ∈ s.rows, r.id = id

theorem mem_signals {d : Delivery} {id : EvalId} (h : id ∈ s.signals d) :
    ∃ r ∈ s.rows, r.id = id ∧ r.status.isTerminal = false ∧ Hits (s.arrival d) r.commit := by
  unfold signals at h
  split at h
  · rename_i hadm
    obtain ⟨r, hr, rfl⟩ := List.mem_map.mp h
    obtain ⟨hr, hs⟩ := List.mem_filter.mp hr
    obtain ⟨hrepo, hopen, hm, hsha⟩ := of_decide_eq_true hs
    exact ⟨r, hr, rfl, hopen, hadm.1, hadm.2, hrepo, hm, hsha⟩
  · exact absurd h (by simp)

theorem Signalled.act (h : s.Signalled) (a : FrontAct) : (s.act a).Signalled := by
  intro id hid
  have hold : id ∈ s.signalled ∨ ∃ d, a = .deliver d ∧ id ∈ s.signals d := by
    cases a with
    | deliver d => exact (List.mem_append.mp hid).imp_right fun hs => ⟨d, rfl, hs⟩
    | work id' status =>
      simp only [Front.act] at hid
      split at hid <;> exact Or.inl hid
  have hrow : ∃ r ∈ s.rows, r.id = id := by
    rcases hold with hold | ⟨d, -, hs⟩
    · exact h id hold
    · obtain ⟨r, hr, hrid, -⟩ := mem_signals hs
      exact ⟨r, hr, hrid⟩
  obtain ⟨r, hr, rfl⟩ := hrow
  exact keepsIds_act s a r hr

/-! ### A row that nothing hits -/

/-- Nothing that is still to arrive takes the row's place. -/
structure Safe (s : Front) (ds : List Delivery) (r : EvalRecord) : Prop where
  mem : r ∈ s.rows
  live : r.status ≠ .cancelled
  unsignalled : r.id ∉ s.signalled
  unhit : r.status.isTerminal = true ∨ ∀ a ∈ s.upcoming ds, ¬ Hits a r.commit

theorem Safe.deliver {d : Delivery} {ds : List Delivery} (h : s.Safe (d :: ds) r) :
    (s.act (.deliver d)).Safe ds r := by
  have hunhit := h.unhit
  rw [upcoming_cons] at hunhit
  have hhead : r.status.isTerminal = true ∨ ¬ Hits (s.arrival d) r.commit :=
    hunhit.imp_right fun hall => hall _ List.mem_cons_self
  refine ⟨?_, h.live, fun hsig => ?_, ?_⟩
  · have hmem := List.mem_map_of_mem (f := afterArrival (s.arrival d)) h.mem
    rw [afterArrival_eq hhead] at hmem
    rcases rows_deliver s d with ⟨heq, -⟩ | ⟨-, -, new, heq, -⟩
    · rw [heq]
      exact hmem
    · rw [heq]
      exact List.mem_append_left _ hmem
  · rcases List.mem_append.mp hsig with hsig | hsig
    · exact h.unsignalled hsig
    · obtain ⟨r', hr', hid, hopen, hhit⟩ := mem_signals hsig
      obtain rfl := EvalTable.eq_of_id hr' h.mem hid
      exact hhead.elim (fun ht => absurd (ht.symm.trans hopen) (by simp)) fun hn => hn hhit
  · exact hunhit.imp_right fun hall a ha => hall a (List.mem_cons_of_mem _ ha)

/-- The worker moves the row, and does not cancel it. -/
theorem Safe.work {ds : List Delivery} (h : s.Safe ds r) (id : EvalId) (status : EvalStatus) :
    ∃ r', (s.act (.work id status)).Safe ds r' ∧ r'.commit = r.commit := by
  have hup := upcoming_work s id status ds
  simp only [act] at hup ⊢
  split at hup
  · rename_i hno
    rw [if_pos hno]
    exact ⟨r, h, rfl⟩
  · rename_i hno
    rw [if_neg hno]
    refine ⟨EvalTable.guarded id status r, ⟨List.mem_map_of_mem h.mem, ?_, ?_, ?_⟩, ?_⟩
    · unfold EvalTable.guarded
      split
      · rename_i hid
        intro hc
        refine hno ⟨hc, ?_⟩
        rw [← hid.1]
        exact h.unsignalled
      · exact h.live
    · rw [EvalTable.guarded_id]
      exact h.unsignalled
    · rw [hup]
      unfold EvalTable.guarded
      split
      · rename_i hid
        exact Or.inr (h.unhit.resolve_left fun ht => absurd (ht.symm.trans hid.2) (by simp))
      · exact h.unhit
    · unfold EvalTable.guarded
      split <;> rfl

theorem Safe.run (h : s.Safe (acts.filterMap FrontAct.delivery) r) :
    ∃ r' ∈ (s.run acts).rows, r'.commit = r.commit ∧ r'.status ≠ .cancelled := by
  induction acts generalizing s r with
  | nil => exact ⟨r, h.mem, rfl, h.live⟩
  | cons a acts ih =>
    cases a with
    | deliver d => exact ih h.deliver
    | work id status =>
      obtain ⟨r', hr', hcommit⟩ := h.work id status
      obtain ⟨r'', hmem, hcommit', hlive⟩ := ih hr'
      exact ⟨r'', hmem, hcommit'.trans hcommit, hlive⟩

/-- The same for a row that is yet to come. -/
theorem safe_of_arrival {pre post : List Arrival} {a : Arrival} (hsig : s.Signalled)
    (h : s.upcoming (acts.filterMap FrontAct.delivery) = pre ++ a :: post)
    (hadm : a.admitted = true) (hstored : a.delivery.stored = true)
    (hunhit : ∀ b ∈ post, ¬ Hits b a.delivery.commit) :
    ∃ r' ∈ (s.run acts).rows, r'.commit = a.delivery.commit ∧ r'.status ≠ .cancelled := by
  induction acts generalizing s pre with
  | nil => exact absurd h (by simp [upcoming, arrivals])
  | cons act acts ih =>
    cases act with
    | work id status =>
      exact ih (hsig.act (.work id status)) ((upcoming_work s id status _).trans h)
    | deliver d =>
      have h : s.upcoming (d :: acts.filterMap FrontAct.delivery) = pre ++ a :: post := h
      rw [upcoming_cons] at h
      cases pre with
      | cons c pre => exact ih (hsig.act (.deliver d)) (List.cons.inj h).2
      | nil =>
        obtain ⟨rfl, hpost⟩ := List.cons.inj h
        rcases rows_deliver s d with ⟨-, hno⟩ | ⟨-, -, new, hrows, hcommit, hstatus, hfresh⟩
        · exact absurd ⟨hadm, hstored⟩ hno
        · have hsafe : (s.act (.deliver d)).Safe (acts.filterMap FrontAct.delivery) new := by
            refine ⟨by simp [hrows], by simp [hstatus], fun hs => ?_, Or.inr ?_⟩
            · have hold : ∃ r ∈ s.rows, r.id = new.id := by
                rcases List.mem_append.mp hs with hs | hs
                · exact hsig _ hs
                · obtain ⟨r, hr, hid, -⟩ := mem_signals hs
                  exact ⟨r, hr, hid⟩
              obtain ⟨r, hr, hid⟩ := hold
              exact hfresh r hr hid
            · rw [hpost, hcommit]
              exact hunhit
          obtain ⟨r', hr', hc, hlive⟩ := hsafe.run
          exact ⟨r', hr', hc.trans hcommit, hlive⟩

/-- **Where a live row comes from**, when the worker does nothing: it was there, or it came with a
    delivery, and nothing has hit it since. -/
theorem origin_of_live {ds : List Delivery} (hr : r ∈ (s.run (ds.map .deliver)).rows)
    (hlive : r.status ≠ .cancelled) :
    (∃ r₀ ∈ s.rows, r₀.commit = r.commit ∧ r₀.status ≠ .cancelled ∧
      (r₀.status.isTerminal = true ∨ ∀ a ∈ s.upcoming ds, ¬ Hits a r₀.commit)) ∨
    ∃ pre a post, s.upcoming ds = pre ++ a :: post ∧ a.admitted = true ∧
      a.delivery.stored = true ∧ a.delivery.commit = r.commit ∧
      ∀ b ∈ post, ¬ Hits b a.delivery.commit := by
  induction ds generalizing s with
  | nil => exact Or.inl ⟨r, hr, rfl, hlive, Or.inr (by simp [upcoming, arrivals])⟩
  | cons d ds ih =>
    rw [upcoming_cons]
    rcases ih hr with ⟨r₁, hr₁, hcommit, hlive₁, hunhit⟩ | ⟨pre, a, post, heq, ha⟩
    · -- a row that was there before the delivery stays one
      have hold : r₁ ∈ s.rows.map (afterArrival (s.arrival d)) → ∃ r₀ ∈ s.rows,
          r₀.commit = r.commit ∧ r₀.status ≠ .cancelled ∧ (r₀.status.isTerminal = true ∨
            ∀ a ∈ s.arrival d :: (s.act (.deliver d)).upcoming ds, ¬ Hits a r₀.commit) := by
        intro hmem
        obtain ⟨r₀, hr₀, rfl⟩ := List.mem_map.mp hmem
        unfold afterArrival at hlive₁ hcommit hunhit
        split at hlive₁
        · exact absurd rfl hlive₁
        · rename_i hno
          rw [if_neg hno] at hcommit hunhit
          refine ⟨r₀, hr₀, hcommit, hlive₁, ?_⟩
          by_cases ht : r₀.status.isTerminal = true
          · exact Or.inl ht
          · refine Or.inr (List.forall_mem_cons.mpr ⟨fun hh => hno ⟨by simpa using ht, hh⟩, ?_⟩)
            exact hunhit.resolve_left ht
      rcases rows_deliver s d with ⟨hrows, -⟩ | ⟨hadm, hstored, new, hrows, hnew, hstatus, -⟩
      · exact Or.inl (hold (hrows ▸ hr₁))
      · rw [hrows] at hr₁
        rcases List.mem_append.mp hr₁ with hmem | hmem
        · exact Or.inl (hold hmem)
        · obtain rfl := List.mem_singleton.mp hmem
          refine Or.inr ⟨[], s.arrival d, _, rfl, hadm, hstored, hnew.symm.trans hcommit, ?_⟩
          have hopen : ¬ r₁.status.isTerminal = true := by simp [hstatus, EvalStatus.isTerminal]
          exact fun b hb => hnew ▸ hunhit.resolve_left hopen b hb
    · exact Or.inr ⟨s.arrival d :: pre, a, post, by rw [heq]; rfl, ha⟩

end Front

/-- **When the newest push is built.** -/
theorem newest_built_iff (evals : EvalTable) (window : ℕ) (ds : List Delivery) (d : Delivery) :
    NewestBuilt evals window ds d ↔
      Unsuperseded evals (arrivals (.new window) 0 (ds ++ [d])) d := by
  constructor
  · intro h
    have hdeliveries : ((ds ++ [d]).map FrontAct.deliver).filterMap FrontAct.delivery = ds ++ [d] := by
      rw [List.filterMap_map]
      exact List.filterMap_some
    obtain ⟨r, hr, hfits, hlive⟩ := h _ hdeliveries
    rcases Front.origin_of_live hr hlive with
      ⟨r₀, hr₀, hcommit, hlive₀, hunhit⟩ | ⟨pre, a, post, heq, hadm, hstored, hcommit, hunhit⟩
    · exact Or.inl ⟨r₀, hr₀, hcommit ▸ hfits, hlive₀, hunhit⟩
    · exact Or.inr ⟨pre, a, post, heq, hadm, hstored, hcommit ▸ hfits, hunhit⟩
  · intro h acts hacts
    rcases h with ⟨r, hr, hfits, hlive, hunhit⟩ | ⟨pre, a, post, heq, hadm, hstored, hfits, hunhit⟩
    · have hsafe : (Front.start evals window).Safe (acts.filterMap FrontAct.delivery) r :=
        ⟨hr, hlive, by simp [Front.start], hacts ▸ hunhit⟩
      obtain ⟨r', hr', hcommit, hlive'⟩ := hsafe.run
      exact ⟨r', hr', hcommit ▸ hfits, hlive'⟩
    · obtain ⟨r', hr', hcommit, hlive'⟩ := Front.safe_of_arrival
        (s := Front.start evals window) (by simp [Front.Signalled, Front.start])
        ((congrArg _ hacts).trans heq) hadm hstored hunhit
      exact ⟨r', hr', hcommit ▸ hfits, hlive'⟩

/-- A branch is pushed to `a`, to `b`, and back to `a` within the window: the last push is dropped,
    and the evaluation it is taken for has been cancelled. -/
theorem not_newest_built_back : ¬ ∀ (evals : EvalTable) (window : ℕ) (ds : List Delivery)
    (d : Delivery), NewestBuilt evals window ds d := by
  intro h
  let push (sha : String) : NormalizedEvent := .push "refs/heads/main" ⟨sha⟩
  obtain ⟨r, hr, hfits, hlive⟩ := h emptyTable 5 [⟨0, ⟨1⟩, push "a", true, true⟩,
    ⟨1, ⟨1⟩, push "b", true, true⟩] ⟨1, ⟨1⟩, push "a", true, true⟩
    [.deliver ⟨0, ⟨1⟩, push "a", true, true⟩, .deliver ⟨1, ⟨1⟩, push "b", true, true⟩,
      .deliver ⟨1, ⟨1⟩, push "a", true, true⟩] rfl
  revert r
  decide

end Argunix.Web
