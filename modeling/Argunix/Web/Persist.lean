import Argunix.Lib.Like
import Argunix.Web.Cancel

/-!
# `argunix-web`: from a delivery to an evaluation

`persist` is what a webhook delivery comes to once the policy has let it through. It has two
memories. The coalesce pool remembers `(repo, sha)` for a window and drops what it remembers; the
store remembers evaluations, and those of the same branch that are still active and have another
SHA are superseded.

*The same branch* is decided by text. A push stores its branch name, a pull request the made-up
ref `refs/pull/<n>/head:<branch>`, and the query compares with the part before the colon: equal to
it, or `LIKE` it followed by a colon and anything. `rows_persist` says what one call does to the
table, in terms of that comparison.
-/

set_option autoImplicit false

namespace Argunix.Web

open Argunix.Lib Argunix.Store

/-! ## Events and refs -/

/-- A commit. -/
structure Sha where
  asStr : String
deriving DecidableEq, Repr

/-- What `persist` is called with. -/
inductive NormalizedEvent
  | push (gitRef : String) (sha : Sha)
  | pullRequest (prNumber : ℕ) (headSha : Sha) (headRef : String)
deriving DecidableEq, Repr

/-- `str::strip_prefix` -/
def stripPrefix (start text : String) : Option String :=
  if start.toList.isPrefixOf text.toList then
    some (String.ofList (text.toList.drop start.toList.length))
  else none

theorem stripPrefix_eq_some {start text rest : String} :
    stripPrefix start text = some rest ↔ text = start ++ rest := by
  unfold stripPrefix
  constructor
  · intro h
    split_ifs at h with hpre
    obtain ⟨v, hv⟩ := List.isPrefixOf_iff_prefix.mp hpre
    obtain rfl := Option.some.inj h
    apply String.toList_injective
    rw [← hv, String.toList_append, String.toList_ofList, List.drop_left]
  · rintro rfl
    rw [String.toList_append, if_pos (List.isPrefixOf_iff_prefix.mpr (List.prefix_append ..)),
      List.drop_left, String.ofList_toList]

theorem stripPrefix_append (start text : String) :
    stripPrefix start (start ++ text) = some text :=
  stripPrefix_eq_some.mpr rfl

namespace NormalizedEvent

/-- The commit it is about. -/
def sha : NormalizedEvent → Sha
  | push _ sha | pullRequest _ sha _ => sha

/-- The `git_ref` column. -/
def gitRef : NormalizedEvent → String
  | push gitRef _ => (stripPrefix "refs/heads/" gitRef).getD gitRef
  | pullRequest prNumber _ headRef => "refs/pull/" ++ toString prNumber ++ "/head:" ++ headRef

/-- The column `trigger`. -/
def trigger : NormalizedEvent → String
  | push .. => "push"
  | pullRequest .. => "pull_request"

/-- `u32::try_from(pr_number).ok()` -/
def prNumber : NormalizedEvent → Option ℕ
  | push .. => none
  | pullRequest prNumber .. => if prNumber < 2 ^ 32 then some prNumber else none

end NormalizedEvent

/-- `git_ref.split_once(':')` -/
def branchKey (gitRef : String) : String := String.ofList (gitRef.toList.takeWhile (· ≠ ':'))

/-! ## The coalesce pool -/

/-- Deadlines of the `(repo, sha)` that were admitted. -/
structure CoalescePool where
  inner : HashMap (RepoId × Sha) ℕ
  window : ℕ

namespace CoalescePool

/-- Nothing was admitted yet. -/
def new (window : ℕ) : CoalescePool := { inner := ∅, window := window }

/-- `admit_at`: what is over its window is forgotten first. -/
def admitAt (pool : CoalescePool) (repoId : RepoId) (sha : Sha) (now : ℕ) :
    Bool × CoalescePool :=
  let inner := pool.inner.retain fun _ deadline => now < deadline
  if (inner.lookup (repoId, sha)).isSome then (false, { pool with inner := inner })
  else (true, { pool with inner := inner.insert (repoId, sha) (now + pool.window) })

end CoalescePool

/-! ## The table -/

/-- A row of `evaluations`. -/
structure EvalRecord where
  id : EvalId
  repoId : RepoId
  trigger : String
  gitRef : String
  sha : Sha
  status : EvalStatus
  prNumber : Option ℕ
deriving DecidableEq, Repr

/-- `evaluations`, ordered by their primary key. -/
structure EvalTable where
  rows : List EvalRecord
  increasing : rows.Pairwise fun a b => a.id.get < b.id.get

theorem EvalTable.increasing_nil :
    ([] : List EvalRecord).Pairwise fun a b => a.id.get < b.id.get := List.Pairwise.nil

/-- The `LIKE` operand: only the escape itself is escaped. -/
def likePattern (key : String) : List Char :=
  (key.toList.flatMap fun c => if c = '\\' then ['\\', '\\'] else [c]) ++ [':', '%']

/-- `git_ref = ?2 OR git_ref LIKE ?3 ESCAPE '\'` -/
def matchesKey (key gitRef : String) : Bool :=
  gitRef = key || like (likePattern key) gitRef.toList

namespace EvalTable

/-- Above every id in use. -/
def nextId (rows : List EvalRecord) : Int := rows.foldr (fun r m => max m (r.id.get + 1)) 1

theorem lt_nextId {rows : List EvalRecord} {r : EvalRecord} (h : r ∈ rows) :
    r.id.get < nextId rows := by
  induction rows with
  | nil => exact absurd h (by simp)
  | cons x rows ih =>
    rw [nextId, List.foldr_cons, ← nextId]
    rcases List.mem_cons.mp h with rfl | h
    · omega
    · have := ih h
      omega

/-- An id names one row. -/
theorem eq_of_id {t : EvalTable} {a b : EvalRecord} (ha : a ∈ t.rows) (hb : b ∈ t.rows)
    (h : a.id = b.id) : a = b := by
  have hnodup : (t.rows.map (·.id)).Nodup :=
    List.pairwise_map.mpr (t.increasing.imp fun hlt heq => absurd hlt (by simp [heq]))
  exact List.inj_on_of_nodup_map hnodup ha hb h

/-- A change of the rows that leaves their ids. -/
def mapRows (t : EvalTable) (f : EvalRecord → EvalRecord) (hf : ∀ r, (f r).id = r.id) :
    EvalTable where
  rows := t.rows.map f
  increasing := List.pairwise_map.mpr (by simpa only [hf] using t.increasing)

/-- What a guarded `UPDATE … SET status … WHERE id` makes of a row. -/
def guarded (id : EvalId) (status : EvalStatus) (r : EvalRecord) : EvalRecord :=
  if r.id = id ∧ r.status.isTerminal = false then { r with status := status } else r

@[simp]
theorem guarded_id (id : EvalId) (status : EvalStatus) (r : EvalRecord) :
    (guarded id status r).id = r.id := by
  unfold guarded
  split <;> rfl

/-- `start`, `mark_building`, `finish`, `fail_with_reason` -/
def setGuarded (t : EvalTable) (id : EvalId) (status : EvalStatus) : EvalTable :=
  t.mapRows (guarded id status) (guarded_id id status)

/-- `finish` -/
def finish (t : EvalTable) (id : EvalId) (status : EvalStatus) : EvalTable := t.setGuarded id status

/-- The row `INSERT` writes. -/
def newRow (t : EvalTable) (repoId : RepoId) (event : NormalizedEvent) : EvalRecord :=
  { id := ⟨nextId t.rows⟩
    repoId := repoId
    trigger := event.trigger
    gitRef := event.gitRef
    sha := event.sha
    status := .queued
    prNumber := event.prNumber }

/-- `create` -/
def create (t : EvalTable) (repoId : RepoId) (event : NormalizedEvent) : EvalTable where
  rows := t.rows ++ [t.newRow repoId event]
  increasing := List.pairwise_append.mpr
    ⟨t.increasing, List.pairwise_singleton _ _, fun r hr r' hr' => by
      rw [List.mem_singleton.mp hr']
      exact lt_nextId hr⟩

/-- `list_active_by_branch_key` -/
def listActiveByBranchKey (t : EvalTable) (repoId : RepoId) (key : String) : List EvalRecord :=
  t.rows.filter fun r =>
    r.repoId = repoId ∧ r.status.isTerminal = false ∧ matchesKey key r.gitRef = true

end EvalTable

/-! ## `persist` -/

/-- The parts of `AppState` that `persist` touches; `sent` is the channel to the worker. -/
structure AppState where
  evals : EvalTable
  coalesce : CoalescePool
  cancellations : CancelRegistry
  sent : List EvalId

/-- What becomes of an event. -/
inductive Outcome
  | dropped
  | failed
  | queued (id : EvalId)
deriving DecidableEq, Repr

namespace AppState

/-- A daemon that has just started over a database. -/
def start (evals : EvalTable) (window : ℕ) : AppState :=
  { evals := evals, coalesce := .new window, cancellations := .new, sent := [] }

/-- One round of the supersede loop. -/
def supersede (st : AppState) (prev : EvalRecord) : AppState :=
  { st with
    evals := st.evals.finish prev.id .cancelled
    cancellations := st.cancellations.cancel prev.id }

/-- `listOk` and `createOk` are what the two fallible store calls return. -/
def persist (st : AppState) (now : ℕ) (repoId : RepoId) (event : NormalizedEvent)
    (listOk createOk : Bool) : Outcome × AppState :=
  let admission := st.coalesce.admitAt repoId event.sha now
  let st := { st with coalesce := admission.2 }
  if admission.1 = false then (.dropped, st)
  else if listOk = false then (.failed, st)
  else
    let active := st.evals.listActiveByBranchKey repoId (branchKey event.gitRef)
    let st := (active.filter fun prev => prev.sha ≠ event.sha).foldl supersede st
    if createOk = false then (.failed, st)
    else
      (.queued (st.evals.newRow repoId event).id,
        { st with
          evals := st.evals.create repoId event
          sent := st.sent ++ [(st.evals.newRow repoId event).id] })

/-! ## What one call does to the table -/

variable {st : AppState} {now : ℕ} {repoId : RepoId} {event : NormalizedEvent}

/-- The rows the event supersedes. -/
def Supersedes (repoId : RepoId) (event : NormalizedEvent) (r : EvalRecord) : Prop :=
  r.repoId = repoId ∧ r.status.isTerminal = false ∧
    matchesKey (branchKey event.gitRef) r.gitRef = true ∧ r.sha ≠ event.sha

instance (repoId : RepoId) (event : NormalizedEvent) (r : EvalRecord) :
    Decidable (Supersedes repoId event r) := inferInstanceAs (Decidable (_ ∧ _ ∧ _ ∧ _))

/-- What becomes of a row. -/
def afterEvent (repoId : RepoId) (event : NormalizedEvent) (r : EvalRecord) : EvalRecord :=
  if Supersedes repoId event r then { r with status := .cancelled } else r

@[simp]
theorem afterEvent_id (repoId : RepoId) (event : NormalizedEvent) (r : EvalRecord) :
    (afterEvent repoId event r).id = r.id := by
  unfold afterEvent
  split <;> rfl

/-- The supersede loop, round by round. -/
theorem rows_supersede (l : List EvalRecord) (st : AppState) :
    (l.foldl supersede st).evals.rows = st.evals.rows.map fun r =>
      if r.id ∈ l.map (·.id) ∧ r.status.isTerminal = false then { r with status := .cancelled }
      else r := by
  induction l generalizing st with
  | nil => simp
  | cons prev l ih =>
    rw [List.foldl_cons, ih]
    simp only [supersede, EvalTable.finish, EvalTable.setGuarded, EvalTable.mapRows, List.map_map]
    refine List.map_congr_left fun r _ => ?_
    simp only [Function.comp, EvalTable.guarded, List.map_cons, List.mem_cons]
    by_cases hopen : r.status.isTerminal = false
    · by_cases hid : r.id = prev.id
      · simp [hid, hopen, show EvalStatus.cancelled.isTerminal = true from rfl]
      · simp [hid, hopen]
    · simp [hopen]

theorem rows_supersede_active (st : AppState) (repoId : RepoId) (event : NormalizedEvent) :
    (((st.evals.listActiveByBranchKey repoId (branchKey event.gitRef)).filter
      fun prev => prev.sha ≠ event.sha).foldl supersede st).evals.rows =
      st.evals.rows.map (afterEvent repoId event) := by
  rw [rows_supersede]
  refine List.map_congr_left fun r hr => ?_
  unfold afterEvent
  refine if_congr ?_ rfl rfl
  constructor
  · rintro ⟨hmem, -⟩
    obtain ⟨r', hr', hid⟩ := List.mem_map.mp hmem
    obtain ⟨hactive, hsha⟩ := List.mem_filter.mp hr'
    obtain ⟨hrow, hp⟩ := List.mem_filter.mp hactive
    obtain rfl := EvalTable.eq_of_id hrow hr hid
    have hp := of_decide_eq_true hp
    exact ⟨hp.1, hp.2.1, hp.2.2, of_decide_eq_true hsha⟩
  · rintro ⟨hrepo, hopen, hmatch, hsha⟩
    refine ⟨List.mem_map.mpr ⟨r, ?_, rfl⟩, hopen⟩
    exact List.mem_filter.mpr ⟨List.mem_filter.mpr ⟨hr, decide_eq_true ⟨hrepo, hopen, hmatch⟩⟩,
      decide_eq_true hsha⟩

/-- The row of an event, in a table whose rows are `rows` before. -/
structure RowOf (rows : List EvalRecord) (repoId : RepoId) (event : NormalizedEvent)
    (r : EvalRecord) : Prop where
  id : r.id = ⟨EvalTable.nextId rows⟩
  repoId : r.repoId = repoId
  gitRef : r.gitRef = event.gitRef
  sha : r.sha = event.sha
  status : r.status = .queued

/-- **One call of `persist`.** A delivery that is dropped, or that the query fails for, touches no
    row; what it supersedes is cancelled before the insert is tried; its own row comes last. -/
theorem persist_cases (st : AppState) (now : ℕ) (repoId : RepoId) (event : NormalizedEvent)
    (listOk createOk : Bool) :
    let res := st.persist now repoId event listOk createOk
    let admitted := (st.coalesce.admitAt repoId event.sha now).1
    (admitted = false ∧ res.1 = .dropped ∧ res.2.evals = st.evals) ∨
    (admitted = true ∧ listOk = false ∧ res.1 = .failed ∧ res.2.evals = st.evals) ∨
    (admitted = true ∧ listOk = true ∧ createOk = false ∧ res.1 = .failed ∧
      res.2.evals.rows = st.evals.rows.map (afterEvent repoId event)) ∨
    (admitted = true ∧ listOk = true ∧ createOk = true ∧
      ∃ r, RowOf (st.evals.rows.map (afterEvent repoId event)) repoId event r ∧
        res.1 = .queued r.id ∧
        res.2.evals.rows = st.evals.rows.map (afterEvent repoId event) ++ [r]) := by
  let st' : AppState := { st with coalesce := (st.coalesce.admitAt repoId event.sha now).2 }
  have hrows := rows_supersede_active st' repoId event
  simp only
  cases hadm : (st.coalesce.admitAt repoId event.sha now).1 with
  | false => exact Or.inl (by simp [persist, hadm])
  | true =>
    cases hlist : listOk with
    | false => exact Or.inr (Or.inl (by simp [persist, hadm]))
    | true =>
      cases hcreate : createOk with
      | false =>
        refine Or.inr (Or.inr (Or.inl ⟨rfl, rfl, rfl, by simp [persist, hadm], ?_⟩))
        simpa [persist, hadm, st'] using hrows
      | true =>
        refine Or.inr (Or.inr (Or.inr ⟨rfl, rfl, rfl, (((st'.evals.listActiveByBranchKey repoId
          (branchKey event.gitRef)).filter fun prev => prev.sha ≠ event.sha).foldl supersede
          st').evals.newRow repoId event, ?_, by simp [persist, hadm, st'], ?_⟩))
        · exact ⟨congrArg (fun rows => (⟨EvalTable.nextId rows⟩ : EvalId)) hrows, rfl, rfl, rfl,
            rfl⟩
        · simp only [persist, hadm, Bool.true_eq_false, if_false, EvalTable.create]
          exact congrArg₂ (· ++ ·) hrows rfl

/-- The pool after a delivery does not depend on what the store answers. -/
@[simp]
theorem coalesce_persist (listOk createOk : Bool) :
    (st.persist now repoId event listOk createOk).2.coalesce =
      (st.coalesce.admitAt repoId event.sha now).2 := by
  have hfold : ∀ (l : List EvalRecord) (st : AppState),
      (l.foldl supersede st).coalesce = st.coalesce := by
    intro l
    induction l with
    | nil => exact fun _ => rfl
    | cons prev l ih => exact fun st => ih (st.supersede prev)
  unfold persist
  simp only
  split
  · rfl
  · split
    · rfl
    · split <;> exact hfold _ _

end AppState

end Argunix.Web
