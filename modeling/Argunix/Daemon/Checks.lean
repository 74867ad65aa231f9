import Argunix.Daemon.Abort
import Argunix.Daemon.World

/-!
# Forge checks: what a commit shows in the end

A check is posted by a task of its own. `spawn_post_check` looks at the pause registry, spawns and
forgets: the task sends its post up to four times, with a growing pause after every transient
failure, and nothing waits for it. The webhook's twin of the function sends once. The forge keeps,
for every context of a commit, the state it accepted last.

The posts of one evaluation are *spawned* in a good order. A Pending post comes first (the
webhook's and `process`'s for the whole evaluation, one for every Job before the build phase), the
verdicts come later, and the sweep of `reconcile_forge_checks` comes last and repeats what the rows
say. But they do not *arrive* in this order. **A Pending post that has to be sent again can arrive
after the verdict it should precede, and nothing is posted that could correct it**
(`not_never_back`).

* `Board` is the machine: the stage of the evaluation with the phase and its rows, the posts that
  are about to be spawned, the tasks, the pause flag, and what the forge shows.
* `InOrder` is the condition. No verdict is accepted while a Pending post of its context is still
  on its way; and a status is only reported as the row has it.
* `never_back_to_pending` is the theorem, for every run whose steps meet the condition.

The phase is the one of `Argunix.Daemon.Phase`. What it posts stays true because a row that was
reported is not written again (`Told.acts`); this is immediate for terminal rows, and an invariant
of the loop for `interrupted` ones.
-/

set_option autoImplicit false

namespace Argunix.Daemon

open Argunix.Lib Argunix.Sched Argunix.Sched.DagStrategy Argunix.Eval Argunix.Store

/-! ## Posts -/

/-- `argunix: evaluation`, or `argunix: <attr>`. The attributes of one evaluation are different, and
    each begins with the fragment it was found under, so none is `evaluation`. -/
inductive Context
  | overall
  | job (jobId : JobId)
deriving DecidableEq, Repr

/-- A check, as it is posted. -/
structure CheckPost where
  context : Context
  state : CheckState
deriving DecidableEq, Repr

/-- The state a status is posted as, if it is. -/
def jobCheckState : JobStatus → Option CheckState
  | .success | .cached => some .success
  | .failure => some .failure
  | .cancelled | .interrupted => some .error
  | .skippedNoBuilder | .queued | .running => none

/-- `post_per_job_check_pending` -/
def postPerJobCheckPending (jobId : JobId) : CheckPost := ⟨.job jobId, .pending⟩

/-- `post_per_job_check`: a status without a check state is not posted. -/
def postPerJobCheck (jobId : JobId) (status : JobStatus) : List CheckPost :=
  (jobCheckState status).toList.map fun state => ⟨.job jobId, state⟩

/-- `post_overall_check` -/
def postOverallCheck (state : CheckState) : CheckPost := ⟨.overall, state⟩

/-- `reconcile_forge_checks` -/
def reconcileForgeChecks (row : EvalRow) : List CheckPost :=
  row.listByEval.flatMap fun r =>
    if r.2.status.isTerminal then postPerJobCheck r.1 r.2.status else []

/-- What `handle_cascade_skip`, `handle_alias_completion` and the end of a completion post. In
    collapsed mode the last of them is the rolling summary, if the debounce has elapsed. -/
def Effect.posts (collapsed elapsed known : Bool) : Effect → List CheckPost
  | .skip jobId => if known && !collapsed then postPerJobCheck jobId .failure else []
  | .mirror jobId status => if known && !collapsed then postPerJobCheck jobId status else []
  | .count jobId status =>
    if collapsed then if elapsed then [postOverallCheck .pending] else []
    else postPerJobCheck jobId status

/-- What an action of the phase posts. -/
def Phase.posts (p : Phase) (collapsed elapsed : Bool) : PhaseAct → List CheckPost
  | .handle =>
    match p.pc.todo with
    | [] => []
    | x :: _ => x.posts collapsed elapsed (p.knows x.jobId)
  | .post => [postOverallCheck p.tally.overallState]
  | _ => []

/-- The loop's own actions. The others are those of the build tasks and of webhooks. -/
def PhaseAct.byLoop : PhaseAct → Bool
  | .build .. | .dropGuard _ | .supersede | .fire => false
  | _ => true

/-! ## The machine -/

/-- A `spawn_post_check`, with the attempts it has left. -/
structure PostTask where
  post : CheckPost
  attempts : ℕ
deriving DecidableEq, Repr

/-- `MAX_ATTEMPTS` -/
def PostTask.worker (post : CheckPost) : PostTask := ⟨post, 4⟩

/-- The twin of `argunix-web` does not retry. -/
def PostTask.webhook (post : CheckPost) : PostTask := ⟨post, 1⟩

/-- What `post_check` returned. `transient` is what `is_transient_forge_error` accepts. -/
inductive Answer
  | ok
  | unauthorised
  | transient
  | rejected
deriving DecidableEq, Repr

/-- How far the evaluation is. -/
inductive Stage
  | received
  | evaluating
  | failed
  | building (row : EvalRow) (p : Phase) (reconciled : Bool)

/-- What a run is about: the evaluation, what `process` hands to the build phase, and the forge. -/
structure Evaluation where
  id : EvalId
  persisted : Persisted
  strategy : DagStrategy
  row : EvalRow
  cancel : Bool
  threshold : ℕ
  resumed : Bool
  paused : Bool
  /-- What the commit shows before this evaluation, or before a restart of it. -/
  before : Context → Option CheckState

/-- `total as u32 > threshold` -/
def Evaluation.collapsed (ev : Evaluation) : Bool :=
  decide (ev.threshold < ev.persisted.length % 2 ^ 32)

/-- What is posted up front: `building N jobs`, the queued Jobs, and the Jobs that did not
    evaluate. -/
def Evaluation.openingPosts (ev : Evaluation) : List CheckPost :=
  postOverallCheck .pending ::
    (if !ev.collapsed && !ev.resumed then
      ev.persisted.map fun q => postPerJobCheckPending q.2 else []) ++
    (if ev.collapsed then [] else
      (ev.persisted.filter fun q => q.1.drvPath.isNone).flatMap fun q =>
        postPerJobCheck q.2 .failure)

/-- An evaluation beside what the forge shows. -/
structure Board where
  stage : Stage
  /-- The posts that are about to be spawned, in order. -/
  outbox : List PostTask
  tasks : List PostTask
  paused : Bool
  shown : Context → Option CheckState
  /-- Every post the forge has accepted. -/
  accepted : List CheckPost

/-- What can happen to it. -/
inductive BoardAct
  | webhook
  | bootScan
  | evalFailed
  | build
  | loop (a : PhaseAct) (elapsed : Bool)
  | reconcile
  | spawn
  | attempt (i : ℕ) (applied : Bool) (answer : Answer)
  | pause
  | markHealthy
deriving DecidableEq, Repr

namespace Board

/-- The delivery was accepted. -/
def start (ev : Evaluation) : Board :=
  { stage := .received
    outbox := []
    tasks := []
    paused := ev.paused
    shown := ev.before
    accepted := [] }

/-- The posts that have not arrived, and may. -/
def inFlight (b : Board) : List CheckPost := (b.outbox ++ b.tasks).map (·.post)

/-- The forge takes the post. -/
def accept (b : Board) (post : CheckPost) : Board :=
  { b with
    shown := Function.update b.shown post.context (some post.state)
    accepted := b.accepted ++ [post] }

/-- One turn of the retry loop. The forge may have taken a post and the answer be lost (`transient`),
    or answer `ok` without taking it: GitLab refuses some transitions, and `post_check` swallows
    that. -/
def attempt (b : Board) (i : ℕ) (t : PostTask) (applied : Bool) (answer : Answer) : Board :=
  let b' := if applied then b.accept t.post else b
  match answer with
  | .ok => { b' with tasks := b.tasks.eraseIdx i, paused := false }
  | .unauthorised => { b' with tasks := b.tasks.eraseIdx i, paused := true }
  | .transient =>
    if 1 < t.attempts then
      { b' with tasks := b.tasks.set i { t with attempts := t.attempts - 1 } }
    else { b' with tasks := b.tasks.eraseIdx i }
  | .rejected => { b' with tasks := b.tasks.eraseIdx i }

/-- The evaluation goes on to a stage, with more to be spawned. -/
def goto (b : Board) (stage : Stage) (more : List PostTask) : Board :=
  { b with stage := stage, outbox := b.outbox ++ more }

/-- One action. A party that posts goes on when its posts have been spawned. -/
def act (ev : Evaluation) (b : Board) : BoardAct → Option Board
  | .webhook =>
    match b.stage with
    | .received => some (b.goto .evaluating [.webhook (postOverallCheck .pending)])
    | _ => none
  | .bootScan =>
    match b.stage with
    | .received => some (b.goto .evaluating [])
    | _ => none
  | .evalFailed =>
    match b.stage, b.outbox with
    | .evaluating, [] =>
      if ev.resumed then none else some (b.goto .failed [.worker (postOverallCheck .failure)])
    | _, _ => none
  | .build =>
    match b.stage, b.outbox with
    | .evaluating, [] =>
      some (b.goto (.building ev.row (.start ev.persisted ev.strategy ev.cancel) false)
        (ev.openingPosts.map .worker))
    | _, _ => none
  | .loop a elapsed =>
    match b.stage with
    | .building row p reconciled =>
      if a.byLoop = true ∧ b.outbox ≠ [] then none
      else (p.act ev.id row a).map fun r =>
        b.goto (.building r.1 r.2 reconciled) ((p.posts ev.collapsed elapsed a).map .worker)
    | _ => none
  | .reconcile =>
    match b.stage, b.outbox with
    | .building row p false, [] =>
      if p.pc = .ended ∧ p.posted.isSome = true ∧ ev.collapsed = false then
        some (b.goto (.building row p true) ((reconcileForgeChecks row).map .worker))
      else none
    | _, _ => none
  | .spawn =>
    match b.outbox with
    | [] => none
    | t :: outbox =>
      some { b with outbox := outbox, tasks := if b.paused then b.tasks else b.tasks ++ [t] }
  | .attempt i applied answer =>
    match b.tasks[i]? with
    | none => none
    | some t => some (b.attempt i t applied answer)
  | .pause => some { b with paused := true }
  | .markHealthy => some { b with paused := false }

end Board

/-- A run of the board of one evaluation, every action of which satisfies `ok`. The maps of the
    strategy may be in any order, at any time. -/
inductive BoardRun (ok : Board → BoardAct → Prop) (ev : Evaluation) : Board → Prop
  | start : BoardRun ok ev (.start ev)
  | act {b b' : Board} {a : BoardAct} : BoardRun ok ev b → ok b a → b.act ev a = some b' →
      BoardRun ok ev b'
  | reorder {b : Board} {row : EvalRow} {p : Phase} {reconciled : Bool} {s : DagStrategy} :
      BoardRun ok ev b → b.stage = .building row p reconciled → Shuffle p.session.strategy s →
      BoardRun ok ev { b with stage := .building row (p.reorder s) reconciled }

/-! ## Reports that follow the rows, and when they do -/

/-- The state of the evaluation, or of the Job's row. -/
def Stage.verdict : Stage → Context → Option CheckState
  | .failed, .overall => some .failure
  | .building _ p _, .overall => p.posted
  | .building row _ _, .job jobId => (row.jobStatus jobId).bind jobCheckState
  | _, _ => none

/-- **A check never goes back to pending.** -/
def Board.NeverBack (b : Board) : Prop :=
  ∀ post ∈ b.accepted, post.state ≠ .pending →
    b.shown post.context ≠ some .pending ∧ b.shown post.context = b.stage.verdict post.context

/-- The status an effect writes and reports. -/
def Effect.status : Effect → JobStatus
  | .skip _ => .failure
  | .mirror _ status => status
  | .count _ status => status

/-- The effect is posted. -/
def Effect.speaks (known : Bool) : Effect → Bool
  | .skip _ | .mirror _ _ => known
  | .count _ _ => true

/-- **When checks arrive in order.** A verdict is accepted when no Pending post of its context is on
    its way any more, and a status is reported as the row has it. -/
def Evaluation.InOrder (ev : Evaluation) (b : Board) : BoardAct → Prop
  | .attempt i true _ => ∀ t ∈ b.tasks[i]?, t.post.state ≠ .pending →
      ∀ q ∈ b.inFlight, q.context = t.post.context → q.state ≠ .pending
  | .build => ev.collapsed = false →
      ∀ q ∈ ev.persisted, q.1.drvPath = none → ev.row.jobStatus q.2 = some .failure
  | .loop .handle _ =>
    match b.stage with
    | .building row p _ => ev.collapsed = false → ∀ x ∈ p.pc.todo.head?,
        x.speaks (p.knows x.jobId) = true →
        (x.apply (p.knows x.jobId) row p.tally).1.jobStatus x.jobId = some x.status
    | _ => True
  | _ => True

/-! ## Effects in order -/

/-- Skips come before mirrors, and what comes after a mirror has the same status. -/
def Effect.Before (x y : Effect) : Prop :=
  (∃ j, x = .skip j) ∨ (y.status = x.status ∧ ∀ j, y ≠ .skip j)

theorem Phase.effectsOf_before (jobId : JobId) (status : JobStatus) (effects : CompletionEffects) :
    (Phase.effectsOf jobId status effects).Pairwise Effect.Before := by
  have hskips : ∀ x ∈ effects.cascadedSkips.map fun skip => Effect.skip skip.jobId,
      ∃ j, x = .skip j := by
    intro x hx
    obtain ⟨skip, -, rfl⟩ := List.mem_map.mp hx
    exact ⟨skip.jobId, rfl⟩
  have hrest : ∀ x ∈ effects.aliasCompletions.map (fun al => Effect.mirror al.jobId status) ++
      [Effect.count jobId status], x.status = status ∧ ∀ j, x ≠ .skip j := by
    intro x hx
    rcases List.mem_append.mp hx with hx | hx
    · obtain ⟨al, -, rfl⟩ := List.mem_map.mp hx
      exact ⟨rfl, fun j => by simp⟩
    · obtain rfl := List.mem_singleton.mp hx
      exact ⟨rfl, fun j => by simp⟩
  unfold Phase.effectsOf
  rw [List.append_assoc]
  refine List.pairwise_append.mpr ⟨?_, ?_, fun x hx _ _ => Or.inl (hskips x hx)⟩
  · exact List.pairwise_of_forall_mem_list fun x hx _ _ => Or.inl (hskips x hx)
  · refine List.pairwise_of_forall_mem_list fun x hx y hy => Or.inr ⟨?_, (hrest y hy).2⟩
    rw [(hrest x hx).1, (hrest y hy).1]

/-! ## Rows that are not written again -/

/-- The loop with what it is about to write, or winding down. -/
def Phase.Sane (items : List ScheduleItem) (p : Phase) : Prop :=
  (p.pc.alive = true ∧ Looping items p ∧ p.Owned items ∧ p.pc.todo.Pairwise Effect.Before) ∨
    (Winding p ∧ ∀ x ∈ p.pc.todo, ∃ j, x = .skip j)

/-- No task has the Job, and nothing but its `interrupted` is left to be written. -/
structure Closed (items : List ScheduleItem) (p : Phase) (j : JobId) : Prop where
  free : ∀ d ∈ p.session.inFlight, d.headJob ≠ some j
  todo : ∀ x ∈ p.pc.todo, x.jobId = j → x.status = .interrupted ∧ ∀ j, x ≠ .skip j
  ended : p.pc.alive = true → ∃ item ∈ items, item.jobId = j ∧ p.Ended item

/-- The row says the status that was reported, and will. -/
def Told (items : List ScheduleItem) (row : EvalRow) (p : Phase) (j : JobId)
    (status : JobStatus) : Prop :=
  row.jobStatus j = some status ∧
    (status.isTerminal = true ∨ (status = .interrupted ∧ Closed items p j))

section

variable {items : List ScheduleItem} {e : EvalId} {row row' : EvalRow} {p p' : Phase}
  {a : PhaseAct} {j : JobId} {status : JobStatus}

namespace Phase.Sane

theorem start {s : DagStrategy} (henq : Enqueued none items s) (hflat : Flat items)
    (hnd : (items.map (·.jobId)).Nodup) (persisted : Persisted) (cancel : Bool) :
    (Phase.start persisted s cancel).Sane items :=
  Or.inl ⟨rfl, .start henq hflat hnd persisted cancel, Looping.owned_start henq persisted cancel,
    List.Pairwise.nil⟩

theorem reorder (h : p.Sane items) {s : DagStrategy} (hs : Shuffle p.session.strategy s) :
    (p.reorder s).Sane items := by
  rcases h with ⟨halive, hloop, hown, hord⟩ | ⟨hw, hskips⟩
  · exact Or.inl ⟨halive, hloop.reorder hs, Looping.owned_reorder hs hown, hord⟩
  · exact Or.inr ⟨hw.reorder s, hskips⟩

theorem looping (h : p.Sane items) (halive : p.pc.alive = true) :
    Looping items p ∧ p.Owned items ∧ p.pc.todo.Pairwise Effect.Before := by
  rcases h with ⟨-, h⟩ | ⟨hw, -⟩
  · exact h
  · have hpc := hw.pc
    cases hp : p.pc <;> simp_all [LoopPc.alive, LoopPc.winding]

theorem skips (h : p.Sane items) {todo : List Effect} (hpc : p.pc = .aborting todo) {x : Effect}
    (hx : x ∈ todo) : ∃ j, x = .skip j := by
  rcases h with ⟨halive, -⟩ | ⟨-, hskips⟩
  · exact absurd halive (by simp [hpc, LoopPc.alive])
  · exact hskips x (by rw [hpc]; exact hx)

/-- What the loop has to write stays in order. -/
theorem before (h : p.pc.todo.Pairwise Effect.Before) (hact : PhaseActs e row p a row' p')
    (halive : p'.pc.alive = true) : p'.pc.todo.Pairwise Effect.Before := by
  cases hact with
  | look hpc => split <;> exact List.Pairwise.nil
  | check hpc =>
    rw [Looping.afterChecks_todo]
    exact List.Pairwise.nil
  | join hpc ht => exact Phase.effectsOf_before _ _ _
  | settle hpc =>
    rw [hpc] at h
    exact h.of_cons
  | finish hpc => split <;> exact List.Pairwise.nil
  | drain hpc ht =>
    rw [Phase.joined_eq]
    exact h
  | abort | aborted | skip | drained | post => exact absurd halive (by simp [LoopPc.alive])
  | noPermit | idle | wake | polled | permit | sleep | settled => exact List.Pairwise.nil
  | spawned | build | dropGuard | supersede | fire => exact h

theorem todo_of_winding (hw : Winding p) (hact : PhaseActs e row p a row' p') :
    ∀ x ∈ p'.pc.todo, x ∈ p.pc.todo := by
  intro x hx
  have hpc := hw.pc
  cases hact with
  | skip hp =>
    rw [hp]
    exact List.mem_cons_of_mem _ hx
  | drain hp ht =>
    rw [Phase.joined_eq] at hx
    exact hx
  | finish hp => split at hx <;> exact absurd hx (by simp [LoopPc.todo])
  | aborted | drained => exact absurd hx (by simp [LoopPc.todo])
  | build | dropGuard | supersede | fire => exact hx
  | look hp | noPermit hp | idle hp | spawned hp | check hp | wake hp | abort hp | polled hp
  | join hp | permit hp | sleep hp | settled hp | settle hp | post hp =>
    rw [hp] at hpc
    exact absurd hpc (by simp [LoopPc.winding])

theorem acts (h : p.Sane items) (hnd : (items.map (·.jobId)).Nodup)
    (hev : ∀ item ∈ items, item.evalId = e) (hact : PhaseActs e row p a row' p') :
    p'.Sane items := by
  rcases h with ⟨hwas, hloop, hown, hord⟩ | ⟨hw, hskips⟩
  · cases halive : p'.pc.alive with
    | true =>
      exact Or.inl ⟨halive, hloop.acts hnd hact halive, hloop.owned_acts hown hact halive,
        before hord hact halive⟩
    | false =>
      refine Or.inr ?_
      rcases Looping.dies hact hwas halive with ⟨rfl, -, -, -, rfl⟩ | ⟨rfl, -, rfl⟩
      · refine ⟨.start hloop hnd rfl rfl fun x hx d hd => ?_, fun x hx => ?_⟩
        · obtain ⟨item, -, rfl, -, hfree⟩ := hloop.told_of_abort hnd hown hev hx
          exact hfree d hd
        · obtain ⟨skip, -, rfl⟩ := List.mem_map.mp hx
          exact ⟨skip.jobId, rfl⟩
      · exact ⟨.start hloop hnd rfl rfl (by simp [LoopPc.todo]), by simp [LoopPc.todo]⟩
  · exact Or.inr ⟨hw.acts hact, fun x hx => hskips x (todo_of_winding hw hact x hx)⟩

end Phase.Sane

namespace Closed

/-- Fewer tasks, less to write, and Steps that are closed stay closed. -/
theorem shrink (h : Closed items p j)
    (hflight : ∀ d ∈ p'.session.inFlight, d ∈ p.session.inFlight)
    (htodo : ∀ x ∈ p'.pc.todo, x ∈ p.pc.todo)
    (halive : p'.pc.alive = true → p.pc.alive = true ∧ ∀ item, p.Ended item → p'.Ended item) :
    Closed items p' j := by
  refine ⟨fun d hd => h.free d (hflight d hd), fun x hx => h.todo x (htodo x hx), fun hl => ?_⟩
  obtain ⟨hwas, hstays⟩ := halive hl
  obtain ⟨item, hi, hj, hend⟩ := h.ended hwas
  exact ⟨item, hi, hj, hstays item hend⟩

theorem reorder (h : Closed items p j) {s : DagStrategy} (hs : Shuffle p.session.strategy s) :
    Closed items (p.reorder s) j :=
  h.shrink (fun _ hd => hd) (fun _ hx => hx)
    fun hl => ⟨hl, fun item => (Looping.ended_reorder hs item).mpr⟩

/-- A Job whose Step is closed is not told again. -/
theorem not_told (h : Closed items p j) (hnd : (items.map (·.jobId)).Nodup)
    (halive : p.pc.alive = true) {item : ScheduleItem} (hi : item ∈ items)
    (hopen : ¬ p.Ended item) : item.jobId ≠ j := by
  rintro rfl
  obtain ⟨item', hi', hj, hend⟩ := h.ended halive
  exact hopen (List.inj_on_of_nodup_map hnd hi' hi hj ▸ hend)

theorem acts (h : Closed items p j) (hsane : p.Sane items) (hnd : (items.map (·.jobId)).Nodup)
    (hev : ∀ item ∈ items, item.evalId = e) (hact : PhaseActs e row p a row' p') :
    Closed items p' j := by
  have hwas := fun hl => Looping.alive_of_acts hact hl
  cases hact with
  | @idle s hpc hd =>
    obtain ⟨hloop, -⟩ := hsane.looping (by rw [hpc]; rfl)
    have hended := fun item => hloop.ended_dispatch item (.checking true) p.builds
    simp only [hd] at hended
    exact h.shrink (fun d hd => hd) (by simp [LoopPc.todo])
      fun hl => ⟨hwas hl, fun item => (hended item).mpr⟩
  | @spawned d s hpc hd =>
    have halive : p.pc.alive = true := by rw [hpc]; rfl
    obtain ⟨hloop, -⟩ := hsane.looping halive
    have hended := fun item => hloop.ended_dispatch item p.pc (p.builds.insert d.token .entered)
    simp only [hd] at hended
    obtain ⟨item, hi, hj, hend⟩ := h.ended halive
    refine ⟨fun d' hd' hhead => ?_, h.todo, fun _ => ⟨item, hi, hj, (hended item).mpr hend⟩⟩
    rcases List.mem_append.mp hd' with hd' | hd'
    · exact h.free d' hd' hhead
    · obtain rfl := List.mem_singleton.mp hd'
      exact (hloop.waiting_of_spawned hnd hd hi (hj ▸ hhead)).1 hend
  | @abort drained hpc hc =>
    have halive : p.pc.alive = true := by rw [hpc]; rfl
    obtain ⟨hloop, hown, -⟩ := hsane.looping halive
    refine ⟨h.free, fun x hx hxj => ?_, fun hl => absurd hl (by simp [LoopPc.alive])⟩
    obtain ⟨item, hi, rfl, hopen, -⟩ := hloop.told_of_abort hnd hown hev hx
    exact absurd hxj (h.not_told hnd halive hi hopen)
  | @join drained token jobId spec outcome hpc ht =>
    obtain ⟨d, hd, rfl, hj, -, -⟩ := Phase.task_eq_some ht
    have halive : p.pc.alive = true := by rw [hpc]; rfl
    obtain ⟨hloop, -⟩ := hsane.looping halive
    have hcomp := hloop.completes hnd hd hj outcome.finalStatus
    obtain ⟨item, hi, hij, hend⟩ := h.ended halive
    refine ⟨fun d' hd' => ?_, fun x hx hxj => ?_, fun _ => ⟨item, hi, hij, hcomp.stays item hend⟩⟩
    · exact h.free d' (Looping.inFlight_joined.mp hd').1
    · obtain ⟨item', hi', hj', -, hopen, -⟩ := hcomp.each x hx
      exact absurd (hj'.trans hxj) (h.not_told hnd halive hi' hopen)
  | @drain token jobId spec outcome hpc ht =>
    refine h.shrink (fun d hd => (Looping.inFlight_joined.mp hd).1) (fun x hx => ?_) fun hl => ?_
    · rw [Phase.joined_eq] at hx
      exact hx
    · rw [Phase.joined_eq] at hl
      exact absurd hl (by simp [hpc, LoopPc.alive])
  | look hpc =>
    refine h.shrink (fun _ hd => hd) (fun x hx => ?_) fun hl => ⟨hwas hl, fun _ hend => hend⟩
    split at hx <;> exact absurd hx (by simp [LoopPc.todo])
  | check hpc =>
    refine h.shrink (fun _ hd => hd) (fun x hx => ?_) fun hl => ⟨hwas hl, fun _ hend => hend⟩
    rw [Looping.afterChecks_todo] at hx
    exact absurd hx (by simp)
  | finish hpc =>
    refine h.shrink (fun _ hd => hd) (fun x hx => ?_) fun hl => ⟨hwas hl, fun _ hend => hend⟩
    split at hx <;> exact absurd hx (by simp [LoopPc.todo])
  | settle hpc | skip hpc =>
    refine h.shrink (fun _ hd => hd) (fun x hx => ?_) fun hl => ⟨hwas hl, fun _ hend => hend⟩
    rw [hpc]
    exact List.mem_cons_of_mem _ hx
  | noPermit | wake | polled | permit | sleep | settled | aborted | drained | post =>
    exact h.shrink (fun _ hd => hd) (by simp [LoopPc.todo])
      fun hl => ⟨hwas hl, fun _ hend => hend⟩
  | build | dropGuard | supersede | fire =>
    exact h.shrink (fun _ hd => hd) (fun _ hx => hx) fun hl => ⟨hwas hl, fun _ hend => hend⟩

end Closed

/-- An effect leaves a row alone, or is a guarded write of its own. -/
theorem Effect.jobStatus_apply (x : Effect) (known : Bool) (row : EvalRow) (tally : JobTally)
    (j : JobId) : (x.apply known row tally).1.jobStatus j = row.jobStatus j ∨
      (x.jobId = j ∧ (x.apply known row tally).1.jobStatus j =
        (row.jobStatus j).map (firstVerdict x.status)) := by
  cases x with
  | count j₀ status => exact Or.inl rfl
  | skip j₀ | mirror j₀ status =>
    cases known with
    | false => exact Or.inl rfl
    | true =>
      simp only [Effect.apply, if_true, EvalRow.finishJob, EvalRow.jobStatus_updateJob]
      split
      · rename_i hj
        subst hj
        exact Or.inr ⟨rfl, rfl⟩
      · exact Or.inl rfl

namespace Told

theorem checkState (h : Told items row p j status) :
    (row.jobStatus j).bind jobCheckState = jobCheckState status := by
  rw [h.1]
  rfl

theorem reorder (h : Told items row p j status) {s : DagStrategy}
    (hs : Shuffle p.session.strategy s) : Told items row (p.reorder s) j status :=
  ⟨h.1, h.2.imp_right fun hint => ⟨hint.1, hint.2.reorder hs⟩⟩

/-- A guarded write does not change a row that was told, unless it has something else to say. -/
theorem guarded (h : Told items row p j status) {new : JobStatus}
    (hnew : Closed items p j → new = .interrupted) :
    (row.jobStatus j).map (firstVerdict new) = some status := by
  rw [h.1, Option.map_some]
  rcases h.2 with hterm | ⟨rfl, hclosed⟩
  · rw [firstVerdict_of_terminal hterm]
  · rw [hnew hclosed, firstVerdict_of_open rfl]

theorem ne_running (h : Told items row p j status) : status ≠ .running := by
  rintro rfl
  rcases h.2 with hterm | ⟨hint, -⟩
  · exact absurd hterm (by decide)
  · exact absurd hint (by decide)

theorem apply (h : Told items row p j status) {x : Effect} (hx : x ∈ p.pc.todo) (known : Bool)
    (tally : JobTally) : (x.apply known row tally).1.jobStatus j = some status := by
  rcases x.jobStatus_apply known row tally j with heq | ⟨hxj, heq⟩
  · rw [heq, h.1]
  · rw [heq]
    exact h.guarded fun hclosed => (hclosed.todo x hx hxj).1

/-- A task writes its own row, and it has none that was told. -/
theorem write (h : Told items row p j status) {token : DispatchToken} {jobId : JobId}
    {spec : JobSpec} {state : BuildState} (ht : p.task token = some (jobId, spec, state))
    (write : Option RowWrite) :
    ((write.map (RowWrite.apply jobId row)).getD row).jobStatus j = some status := by
  obtain ⟨d, hd, -, hhead, -, -⟩ := Phase.task_eq_some ht
  have hguard : ∀ new, (row.updateJob jobId (firstVerdict new)).jobStatus j = some status := by
    intro new
    rw [EvalRow.jobStatus_updateJob]
    split
    · rename_i hj
      subst hj
      exact h.guarded fun hclosed => absurd hhead (hclosed.free d hd)
    · exact h.1
  cases write with
  | none => exact h.1
  | some w => cases w <;> exact hguard _

theorem acts (h : Told items row p j status) (hsane : p.Sane items)
    (hnd : (items.map (·.jobId)).Nodup) (hev : ∀ item ∈ items, item.evalId = e)
    (hact : PhaseActs e row p a row' p') : Told items row' p' j status := by
  refine ⟨?_, h.2.imp_right fun hint => ⟨hint.1, hint.2.acts hsane hnd hev hact⟩⟩
  cases hact with
  | settle hpc | skip hpc =>
    exact h.apply (by rw [hpc]; exact List.mem_cons_self) _ _
  | finish | supersede =>
    simp only [EvalRow.jobStatus, EvalRow.finish, EvalRow.jobs_guardedStatus]
    exact h.1
  | build ht hb => exact h.write ht _
  | dropGuard hg =>
    rw [EvalRow.interruptIfRunning, EvalRow.jobStatus_updateJob]
    split
    · rename_i hj
      rw [← hj, h.1, Option.map_some, if_neg h.ne_running]
    · exact h.1
  | look | noPermit | idle | spawned | check | wake | abort | polled | join | permit | sleep
  | settled | aborted | drain | drained | post | fire => exact h.1

/-- **What the loop reports is told**, if the row says it. -/
theorem of_handle (hsane : p.Sane items) (hnd : (items.map (·.jobId)).Nodup) {x : Effect}
    {todo : List Effect} (hpc : p.pc = .settling (x :: todo) ∨ p.pc = .aborting (x :: todo))
    (hp : p'.session = p.session)
    (htodo : p'.pc.todo = todo) {st : CheckState} (hst : jobCheckState x.status = some st)
    (hrow : row'.jobStatus x.jobId = some x.status) : Told items row' p' x.jobId x.status := by
  refine ⟨hrow, ?_⟩
  cases hterm : x.status.isTerminal with
  | true => exact Or.inl rfl
  | false =>
    have hint : x.status = .interrupted := by
      cases hs : x.status <;> simp_all [JobStatus.isTerminal, jobCheckState]
    have hskip : ∀ j, x ≠ .skip j := by
      rintro j rfl
      exact absurd hterm (by simp [Effect.status, JobStatus.isTerminal])
    have hpc : p.pc = .settling (x :: todo) := by
      refine hpc.resolve_right fun hpc => ?_
      obtain ⟨j, hj⟩ := hsane.skips hpc List.mem_cons_self
      exact hskip j hj
    obtain ⟨hloop, -, hord⟩ := hsane.looping (by rw [hpc]; rfl)
    rw [hpc] at hord
    obtain ⟨item, hi, hj, hend⟩ := hloop.owed x (by rw [hpc]; exact List.mem_cons_self)
    refine Or.inr ⟨hint, fun d hd hhead => ?_, fun y hy _ => ?_, fun _ => ⟨item, hi, hj, ?_⟩⟩
    · rw [hp] at hd
      exact hloop.not_ended_of_building hnd hd hi (hj ▸ hhead) hend
    · rw [htodo] at hy
      rcases List.rel_of_pairwise_cons hord hy with ⟨j, hx⟩ | ⟨hsame, hno⟩
      · exact absurd hx (hskip j)
      · exact ⟨hsame.trans hint, hno⟩
    · unfold Phase.Ended at hend ⊢
      rwa [hp]

end Told

/-- Once the final check has been posted the phase is over, and it is posted once. -/
theorem PhaseActs.posted (hact : PhaseActs e row p a row' p')
    (hended : p.posted.isSome = true → p.pc = .ended) :
    (∀ st, p.posted = some st → p'.posted = some st) ∧
      (p'.posted.isSome = true → p'.pc = .ended) := by
  cases hact with
  | post hpc =>
    refine ⟨fun st hst => ?_, fun _ => rfl⟩
    have hpc' := hended (by rw [hst]; rfl)
    exact absurd (hpc.symm.trans hpc') (by simp)
  | build | dropGuard | supersede | fire => exact ⟨fun _ hst => hst, hended⟩
  | join hpc | drain hpc =>
    rw [Phase.joined_eq]
    exact ⟨fun _ hst => hst, fun hsome => absurd (hpc.symm.trans (hended hsome)) (by simp)⟩
  | look hpc | noPermit hpc | idle hpc | spawned hpc | check hpc | wake hpc | abort hpc
  | polled hpc | permit hpc | sleep hpc | settled hpc | settle hpc | aborted hpc | skip hpc
  | drained hpc | finish hpc =>
    exact ⟨fun _ hst => hst, fun hsome => absurd (hpc.symm.trans (hended hsome)) (by simp)⟩

end

/-! ## The invariant -/

/-- The evaluation or the row says so, and will. -/
def Stage.Settles (items : List ScheduleItem) : Stage → Context → CheckState → Prop
  | .failed, .overall, st => st = .failure
  | .building _ p _, .overall, st => p.posted = some st
  | .building row p _, .job j, st => ∃ status, Told items row p j status ∧
      jobCheckState status = some st
  | _, _, _ => False

theorem Stage.Settles.verdict {items : List ScheduleItem} {stage : Stage} {c : Context}
    {st : CheckState} (h : stage.Settles items c st) : stage.verdict c = some st := by
  cases stage with
  | received | evaluating => exact h.elim
  | failed =>
    cases c with
    | overall => exact congrArg some h.symm
    | job j => exact h.elim
  | building row p r =>
    cases c with
    | overall => exact h
    | job j =>
      obtain ⟨status, htold, hst⟩ := h
      exact htold.checkState.trans hst

namespace Board

/-- **What is posted as a verdict is one, and nothing is on its way that could replace it.** -/
structure Inv (items : List ScheduleItem) (b : Board) : Prop where
  sane : ∀ row p r, b.stage = .building row p r →
    p.Sane items ∧ (p.posted.isSome = true → p.pc = .ended)
  said : ∀ q, q ∈ b.inFlight ∨ q ∈ b.accepted → q.state ≠ .pending →
    b.stage.Settles items q.context q.state
  last : ∀ q ∈ b.accepted, q.state ≠ .pending → b.shown q.context = some q.state ∧
    ∀ q' ∈ b.inFlight, q'.context = q.context → q'.state ≠ .pending

theorem inFlight_goto {b : Board} {stage : Stage} {more : List PostTask} {q : CheckPost} :
    q ∈ (b.goto stage more).inFlight ↔ q ∈ b.inFlight ∨ ∃ t ∈ more, t.post = q := by
  simp only [inFlight, goto, List.map_append, List.mem_append, List.mem_map]
  exact or_right_comm

theorem outbox_attempt (b : Board) (i : ℕ) (t : PostTask) (applied : Bool) (answer : Answer) :
    (b.attempt i t applied answer).outbox = b.outbox := by
  cases answer with
  | ok | unauthorised | rejected => cases applied <;> rfl
  | transient =>
    simp only [attempt]
    split <;> cases applied <;> rfl

theorem tasks_attempt {b : Board} {i : ℕ} {t t' : PostTask} {applied : Bool} {answer : Answer}
    (h : t' ∈ (b.attempt i t applied answer).tasks) : t' ∈ b.tasks ∨ t'.post = t.post := by
  cases answer with
  | ok | unauthorised | rejected => exact Or.inl (List.mem_of_mem_eraseIdx h)
  | transient =>
    simp only [attempt] at h
    split at h
    · rcases List.mem_or_eq_of_mem_set h with hin | rfl
      · exact Or.inl hin
      · exact Or.inr rfl
    · exact Or.inl (List.mem_of_mem_eraseIdx h)

theorem stage_attempt (b : Board) (i : ℕ) (t : PostTask) (applied : Bool) (answer : Answer) :
    (b.attempt i t applied answer).stage = b.stage := by
  cases answer with
  | ok | unauthorised | rejected => cases applied <;> rfl
  | transient =>
    simp only [attempt]
    split <;> cases applied <;> rfl

/-- What the forge has after an attempt. -/
theorem forge_attempt (b : Board) (i : ℕ) (t : PostTask) (applied : Bool) (answer : Answer) :
    (b.attempt i t applied answer).shown = (if applied then b.accept t.post else b).shown ∧
      (b.attempt i t applied answer).accepted =
        (if applied then b.accept t.post else b).accepted := by
  cases answer with
  | ok | unauthorised | rejected => exact ⟨rfl, rfl⟩
  | transient =>
    simp only [attempt]
    split <;> exact ⟨rfl, rfl⟩

theorem mem_inFlight {b : Board} {q : CheckPost} :
    q ∈ b.inFlight ↔ (∃ t ∈ b.outbox, t.post = q) ∨ ∃ t ∈ b.tasks, t.post = q := by
  simp only [inFlight, List.map_append, List.mem_append, List.mem_map]

/-- What is on its way after an attempt was on its way before. -/
theorem inFlight_attempt {b : Board} {i : ℕ} {t : PostTask} {applied : Bool} {answer : Answer}
    (ht : b.tasks[i]? = some t) {q : CheckPost} (hq : q ∈ (b.attempt i t applied answer).inFlight) :
    q ∈ b.inFlight := by
  rw [mem_inFlight, outbox_attempt] at hq
  refine mem_inFlight.mpr (hq.imp_right ?_)
  rintro ⟨t', ht', rfl⟩
  rcases tasks_attempt ht' with hin | heq
  · exact ⟨t', hin, rfl⟩
  · exact ⟨t, List.mem_of_getElem? ht, heq.symm⟩

namespace Inv

variable {items : List ScheduleItem} {b : Board}

theorem start (ev : Evaluation) : Inv items (.start ev) := by
  refine ⟨fun row p r hstage => absurd hstage (by simp [Board.start]), fun q hq => ?_, ?_⟩
  · exact absurd hq (by simp [Board.start, inFlight])
  · simp [Board.start]

theorem neverBack (h : Inv items b) : b.NeverBack := by
  intro q hq hne
  obtain ⟨hshown, -⟩ := h.last q hq hne
  rw [hshown, (h.said q (Or.inr hq) hne).verdict]
  exact ⟨fun heq => hne (Option.some.inj heq), rfl⟩

/-- The evaluation goes on. What was settled stays settled, and of what is settled nothing is
    posted as Pending. -/
theorem goto (h : Inv items b) {stage : Stage} (posts : List CheckPost)
    (task : CheckPost → PostTask) (htask : ∀ q, (task q).post = q)
    (hsane : ∀ row p r, stage = .building row p r →
      p.Sane items ∧ (p.posted.isSome = true → p.pc = .ended))
    (hkeeps : ∀ c st, b.stage.Settles items c st → stage.Settles items c st)
    (hpending : ∀ q ∈ posts, q.state = .pending → ∀ st, ¬ b.stage.Settles items q.context st)
    (hverdict : ∀ q ∈ posts, q.state ≠ .pending → stage.Settles items q.context q.state) :
    Inv items (b.goto stage (posts.map task)) := by
  have hflight : ∀ q, q ∈ (b.goto stage (posts.map task)).inFlight ↔
      q ∈ b.inFlight ∨ q ∈ posts := by
    intro q
    rw [inFlight_goto]
    simp [htask]
  refine ⟨hsane, fun q hq hne => ?_, fun q hq hne => ⟨(h.last q hq hne).1, fun q' hq' hc => ?_⟩⟩
  · rw [hflight] at hq
    rcases hq with (hq | hq) | hq
    · exact hkeeps _ _ (h.said q (Or.inl hq) hne)
    · exact hverdict q hq hne
    · exact hkeeps _ _ (h.said q (Or.inr hq) hne)
  · rcases (hflight q').mp hq' with hq' | hq'
    · exact (h.last q hq hne).2 q' hq' hc
    · intro hpend
      exact hpending q' hq' hpend q.state (hc ▸ h.said q (Or.inr hq) hne)

/-- The evaluation stays where it is and nothing new is on its way. -/
theorem fewer (h : Inv items b) {b' : Board} (hstage : b'.stage = b.stage)
    (hflight : ∀ q ∈ b'.inFlight, q ∈ b.inFlight) (hshown : b'.shown = b.shown)
    (haccepted : b'.accepted = b.accepted) : Inv items b' := by
  refine ⟨hstage ▸ h.sane, fun q hq => ?_, fun q hq hne => ?_⟩
  · rw [hstage]
    rw [haccepted] at hq
    exact h.said q (hq.imp_left (hflight q))
  · rw [haccepted] at hq
    rw [hshown]
    exact ⟨(h.last q hq hne).1, fun q' hq' => (h.last q hq hne).2 q' (hflight q' hq')⟩

/-- **The forge takes a post.** A Pending one has no verdict before it, since it is on its way; and
    a verdict has no Pending one after it, by the condition. -/
theorem accept (h : Inv items b) {q : CheckPost} (hq : q ∈ b.inFlight)
    (hok : q.state ≠ .pending → ∀ q' ∈ b.inFlight, q'.context = q.context → q'.state ≠ .pending) :
    Inv items (b.accept q) := by
  refine ⟨h.sane, fun q' hq' => ?_, fun q' hq' hne => ?_⟩
  · have hor : q' ∈ b.inFlight ∨ q' ∈ b.accepted := by
      rcases hq' with hq' | hq'
      · exact Or.inl hq'
      · rcases List.mem_append.mp hq' with hq' | hq'
        · exact Or.inr hq'
        · rw [List.mem_singleton.mp hq']
          exact Or.inl hq
    exact h.said q' hor
  · rcases List.mem_append.mp hq' with hold | hnew
    · obtain ⟨hshown, hclear⟩ := h.last q' hold hne
      refine ⟨?_, hclear⟩
      by_cases hc : q.context = q'.context
      · have hsame : q.state = q'.state := by
          have hq₁ := (h.said q (Or.inl hq) (hclear q hq hc)).verdict
          have hq₂ := (h.said q' (Or.inr hold) hne).verdict
          rw [hc, hq₂] at hq₁
          exact (Option.some.inj hq₁).symm
        simp [Board.accept, hc, hsame]
      · simp only [Board.accept, Function.update_of_ne (Ne.symm hc)]
        exact hshown
    · obtain rfl := List.mem_singleton.mp hnew
      exact ⟨by simp [Board.accept], hok hne⟩

theorem attempt (h : Inv items b) {i : ℕ} {t : PostTask} {applied : Bool} {answer : Answer}
    (ht : b.tasks[i]? = some t) (hok : applied = true → t.post.state ≠ .pending →
      ∀ q ∈ b.inFlight, q.context = t.post.context → q.state ≠ .pending) :
    Inv items (b.attempt i t applied answer) := by
  obtain ⟨hshown, haccepted⟩ := b.forge_attempt i t applied answer
  have hflight : ∀ q ∈ (b.attempt i t applied answer).inFlight, q ∈ b.inFlight :=
    fun q hq => inFlight_attempt ht hq
  cases applied with
  | false => exact h.fewer (stage_attempt ..) hflight hshown haccepted
  | true =>
    have hpost : t.post ∈ b.inFlight := mem_inFlight.mpr (Or.inr ⟨t, List.mem_of_getElem? ht, rfl⟩)
    exact (h.accept hpost (hok rfl)).fewer (stage_attempt ..) hflight hshown haccepted

end Inv

end Board

/-! ## What the worker posts -/

theorem mem_postPerJobCheck {j : JobId} {status : JobStatus} {q : CheckPost} :
    q ∈ postPerJobCheck j status ↔ q.context = .job j ∧ jobCheckState status = some q.state := by
  obtain ⟨c, st⟩ := q
  cases hs : jobCheckState status <;> simp [postPerJobCheck, hs, eq_comm, and_comm]

theorem jobCheckState_ne_pending (status : JobStatus) : jobCheckState status ≠ some .pending := by
  cases status <;> simp [jobCheckState]

theorem not_pending_of_mem {j : JobId} {status : JobStatus} {q : CheckPost}
    (h : q ∈ postPerJobCheck j status) : q.state ≠ .pending := by
  intro hp
  exact jobCheckState_ne_pending status (hp ▸ (mem_postPerJobCheck.mp h).2)

theorem JobTally.overallState_ne_pending (tally : JobTally) : tally.overallState ≠ .pending := by
  unfold JobTally.overallState
  repeat' split
  all_goals simp

/-- What an effect posts is a verdict of its Job, or the rolling summary. -/
theorem Effect.mem_posts {x : Effect} {collapsed elapsed known : Bool} {q : CheckPost}
    (h : q ∈ x.posts collapsed elapsed known) :
    (collapsed = false ∧ x.speaks known = true ∧ q ∈ postPerJobCheck x.jobId x.status) ∨
      q = postOverallCheck .pending := by
  cases x with
  | skip j | mirror j status =>
    simp only [Effect.posts] at h
    split at h
    · rename_i hc
      rw [Bool.and_eq_true, Bool.not_eq_true'] at hc
      exact Or.inl ⟨hc.2, hc.1, h⟩
    · exact absurd h (by simp)
  | count j status =>
    simp only [Effect.posts] at h
    split at h
    · split at h
      · exact Or.inr (List.mem_singleton.mp h)
      · exact absurd h (by simp)
    · rename_i hc
      exact Or.inl ⟨by simpa using hc, rfl, h⟩

namespace Board.Inv

variable {items : List ScheduleItem} {b b' : Board} {ev : Evaluation}

theorem reorder (h : Inv items b) {row : EvalRow} {p : Phase} {r : Bool} {s : DagStrategy}
    (hstage : b.stage = .building row p r) (hs : Shuffle p.session.strategy s) :
    Inv items { b with stage := .building row (p.reorder s) r } := by
  obtain ⟨hsane, hended⟩ := h.sane row p r hstage
  refine ⟨fun row' p' r' heq => ?_, fun q hq hne => ?_, h.last⟩
  · obtain ⟨rfl, rfl, rfl⟩ := Stage.building.inj heq
    exact ⟨hsane.reorder hs, hended⟩
  · have hset := h.said q hq hne
    rw [hstage] at hset
    cases hc : q.context with
    | overall =>
      rw [hc] at hset
      exact hset
    | job j =>
      rw [hc] at hset
      obtain ⟨status, htold, hst⟩ := hset
      exact ⟨status, htold.reorder hs, hst⟩

/-- `handle` posts what the row says. -/
theorem handle_settles {e : EvalId} {row row' : EvalRow} {p p' : Phase} {x : Effect}
    {todo : List Effect} (hsane : p.Sane items) (hnd : (items.map (·.jobId)).Nodup)
    (hact : PhaseActs e row p .handle row' p') (htodo : p.pc.todo = x :: todo)
    (hrow : (x.apply (p.knows x.jobId) row p.tally).1.jobStatus x.jobId = some x.status)
    {q : CheckPost} (hq : q ∈ postPerJobCheck x.jobId x.status) (r : Bool) :
    (Stage.building row' p' r).Settles items q.context q.state := by
  obtain ⟨hc, hst⟩ := mem_postPerJobCheck.mp hq
  rw [hc]
  refine ⟨x.status, ?_, hst⟩
  cases hact with
  | settled hpc | aborted hpc =>
    rw [hpc] at htodo
    exact absurd htodo (by simp [LoopPc.todo])
  | @settle x' todo' hpc =>
    rw [hpc] at htodo
    obtain ⟨rfl, rfl⟩ := List.cons.inj htodo
    exact Told.of_handle hsane hnd (Or.inl hpc) rfl rfl hst hrow
  | @skip x' todo' hpc =>
    rw [hpc] at htodo
    obtain ⟨rfl, rfl⟩ := List.cons.inj htodo
    exact Told.of_handle hsane hnd (Or.inr hpc) rfl rfl hst hrow

/-- An action of the phase, with what it posts. -/
theorem loop (h : Inv items b) (hnd : (items.map (·.jobId)).Nodup)
    (hev : ∀ item ∈ items, item.evalId = ev.id) {row row' : EvalRow} {p p' : Phase} {r : Bool}
    (hstage : b.stage = .building row p r) {a : PhaseAct} {elapsed : Bool}
    (hok : ev.InOrder b (.loop a elapsed)) (hact : PhaseActs ev.id row p a row' p') :
    Inv items (b.goto (.building row' p' r) ((p.posts ev.collapsed elapsed a).map .worker)) := by
  obtain ⟨hsane, hended⟩ := h.sane row p r hstage
  obtain ⟨hposted, hended'⟩ := hact.posted hended
  refine h.goto _ .worker (fun _ => rfl) (fun row₁ p₁ r₁ heq => ?_) (fun c st hset => ?_)
    (fun q hq hpend st hset => ?_) (fun q hq hne => ?_)
  · obtain ⟨rfl, rfl, rfl⟩ := Stage.building.inj heq
    exact ⟨hsane.acts hnd hev hact, hended'⟩
  · rw [hstage] at hset
    cases c with
    | overall => exact hposted st hset
    | job j =>
      obtain ⟨status, htold, hst⟩ := hset
      exact ⟨status, htold.acts hsane hnd hev hact, hst⟩
  · rw [hstage] at hset
    cases a with
    | handle =>
      simp only [Phase.posts] at hq
      split at hq
      · exact absurd hq (by simp)
      · rename_i x todo htodo
        rcases x.mem_posts hq with ⟨-, -, hq⟩ | rfl
        · exact not_pending_of_mem hq hpend
        · have hpc := hended (Option.isSome_iff_exists.mpr ⟨st, hset⟩)
          rw [hpc] at htodo
          exact absurd htodo (by simp [LoopPc.todo])
    | post =>
      obtain rfl := List.mem_singleton.mp hq
      exact JobTally.overallState_ne_pending p.tally hpend
    | look | noPermit | dispatch | check | wake | pollCancel | join | permit | sleep | drain
    | drained | finish | build | dropGuard | supersede | fire =>
      exact absurd hq (by simp [Phase.posts])
  · cases a with
    | handle =>
      simp only [Phase.posts] at hq
      split at hq
      · exact absurd hq (by simp)
      · rename_i x todo htodo
        rcases x.mem_posts hq with ⟨hcoll, hspeaks, hq⟩ | rfl
        · simp only [Evaluation.InOrder, hstage] at hok
          exact handle_settles hsane hnd hact htodo (hok hcoll x (by rw [htodo]; rfl) hspeaks) hq r
        · exact absurd rfl hne
    | post =>
      obtain rfl := List.mem_singleton.mp hq
      cases hact with
      | post hpc => exact rfl
    | look | noPermit | dispatch | check | wake | pollCancel | join | permit | sleep | drain
    | drained | finish | build | dropGuard | supersede | fire =>
      exact absurd hq (by simp [Phase.posts])

/-- The build phase begins. -/
theorem build (h : Inv items b) (hstage : b.stage = .evaluating)
    (hsane : (Phase.start ev.persisted ev.strategy ev.cancel).Sane items)
    (hok : ev.InOrder b .build) :
    Inv items (b.goto (.building ev.row (.start ev.persisted ev.strategy ev.cancel) false)
      (ev.openingPosts.map .worker)) := by
  have hnone : ∀ c st, ¬ b.stage.Settles items c st := by
    rw [hstage]
    exact fun _ _ hset => hset
  refine h.goto _ .worker (fun _ => rfl) (fun row₁ p₁ r₁ heq => ?_)
    (fun c st hset => absurd hset (hnone c st))
    (fun q _ _ st => hnone _ st) (fun q hq hne => ?_)
  · obtain ⟨rfl, rfl, rfl⟩ := Stage.building.inj heq
    exact ⟨hsane, fun hsome => absurd hsome (by simp [Phase.start])⟩
  · simp only [Evaluation.openingPosts, List.cons_append, List.mem_cons, List.mem_append] at hq
    rcases hq with rfl | hq | hq
    · exact absurd rfl hne
    · split at hq
      · obtain ⟨spec, -, rfl⟩ := List.mem_map.mp hq
        exact absurd rfl hne
      · exact absurd hq (by simp)
    · split at hq
      · exact absurd hq (by simp)
      · rename_i hcoll
        obtain ⟨spec, hspec, hq⟩ := List.mem_flatMap.mp hq
        obtain ⟨hmem, hdrv⟩ := List.mem_filter.mp hspec
        obtain ⟨hc, hst⟩ := mem_postPerJobCheck.mp hq
        have hrow := hok (by simpa using hcoll) spec hmem (by simpa using hdrv)
        rw [hc]
        exact ⟨.failure, ⟨hrow, Or.inl rfl⟩, hst⟩

/-- The sweep repeats what the rows say. -/
theorem reconcile (h : Inv items b) {row : EvalRow} {p : Phase}
    (hstage : b.stage = .building row p false) :
    Inv items (b.goto (.building row p true) ((reconcileForgeChecks row).map .worker)) := by
  refine h.goto _ .worker (fun _ => rfl) (fun row₁ p₁ r₁ heq => ?_) (fun c st hset => ?_)
    (fun q hq hpend st _ => ?_) (fun q hq hne => ?_)
  · obtain ⟨rfl, rfl, rfl⟩ := Stage.building.inj heq
    exact h.sane row p false hstage
  · rw [hstage] at hset
    cases c <;> exact hset
  · obtain ⟨x, -, hq⟩ := List.mem_flatMap.mp hq
    split at hq
    · exact not_pending_of_mem hq hpend
    · exact absurd hq (by simp)
  · obtain ⟨x, hx, hq⟩ := List.mem_flatMap.mp hq
    split at hq
    · rename_i hterm
      obtain ⟨hc, hst⟩ := mem_postPerJobCheck.mp hq
      have hrow : row.jobStatus x.1 = some x.2.status := by
        rw [EvalRow.jobStatus, EvalRow.mem_listByEval.mp hx]
        rfl
      rw [hc]
      exact ⟨x.2.status, ⟨hrow, Or.inl hterm⟩, hst⟩
    · exact absurd hq (by simp)

theorem act (h : Inv items b) (hnd : (items.map (·.jobId)).Nodup)
    (hev : ∀ item ∈ items, item.evalId = ev.id)
    (hstart : (Phase.start ev.persisted ev.strategy ev.cancel).Sane items) {a : BoardAct}
    (hok : ev.InOrder b a) (hact : b.act ev a = some b') : Inv items b' := by
  cases a with
  | webhook =>
    simp only [Board.act] at hact
    split at hact
    · rename_i hstage
      obtain rfl := Option.some.inj hact
      have hnone : ∀ c st, ¬ b.stage.Settles items c st := by
        rw [hstage]
        exact fun _ _ hset => hset
      exact h.goto [postOverallCheck .pending] .webhook (fun _ => rfl)
        (fun _ _ _ heq => absurd heq (by simp)) (fun c st hset => absurd hset (hnone c st))
        (fun _ _ _ st => hnone _ st) fun q hq hne => absurd (List.mem_singleton.mp hq ▸ rfl) hne
    · exact absurd hact (by simp)
  | bootScan =>
    simp only [Board.act] at hact
    split at hact
    · rename_i hstage
      obtain rfl := Option.some.inj hact
      refine h.goto [] .worker (fun _ => rfl)
        (fun _ _ _ heq => absurd heq (by simp)) (fun c st hset => ?_) (by simp) (by simp)
      rw [hstage] at hset
      exact hset.elim
    · exact absurd hact (by simp)
  | evalFailed =>
    simp only [Board.act] at hact
    split at hact
    · rename_i hstage _
      split at hact
      · exact absurd hact (by simp)
      · obtain rfl := Option.some.inj hact
        refine h.goto [postOverallCheck .failure] .worker (fun _ => rfl)
          (fun _ _ _ heq => absurd heq (by simp)) (fun c st hset => ?_) (fun q hq hpend => ?_)
          fun q hq _ => ?_
        · rw [hstage] at hset
          exact hset.elim
        · rw [List.mem_singleton.mp hq] at hpend
          exact absurd hpend (by simp [postOverallCheck])
        · rw [List.mem_singleton.mp hq]
          rfl
    · exact absurd hact (by simp)
  | build =>
    simp only [Board.act] at hact
    split at hact
    · rename_i hstage _
      obtain rfl := Option.some.inj hact
      exact h.build hstage hstart hok
    · exact absurd hact (by simp)
  | loop a elapsed =>
    simp only [Board.act] at hact
    split at hact
    · rename_i row p r hstage
      split at hact
      · exact absurd hact (by simp)
      · obtain ⟨⟨row', p'⟩, hphase, rfl⟩ := Option.map_eq_some_iff.mp hact
        exact h.loop hnd hev hstage hok (Phase.act_acts hphase)
    · exact absurd hact (by simp)
  | reconcile =>
    simp only [Board.act] at hact
    split at hact
    · rename_i hstage _
      split at hact
      · obtain rfl := Option.some.inj hact
        exact h.reconcile hstage
      · exact absurd hact (by simp)
    · exact absurd hact (by simp)
  | spawn =>
    simp only [Board.act] at hact
    split at hact
    · exact absurd hact (by simp)
    · rename_i t outbox hout
      obtain rfl := Option.some.inj hact
      refine h.fewer rfl (fun q hq => ?_) rfl rfl
      rw [mem_inFlight] at hq ⊢
      rw [hout]
      rcases hq with ⟨t', ht', rfl⟩ | ⟨t', ht', rfl⟩
      · exact Or.inl ⟨t', List.mem_cons_of_mem _ ht', rfl⟩
      · simp only at ht'
        split at ht'
        · exact Or.inr ⟨t', ht', rfl⟩
        · rcases List.mem_append.mp ht' with ht' | ht'
          · exact Or.inr ⟨t', ht', rfl⟩
          · rw [List.mem_singleton.mp ht']
            exact Or.inl ⟨t, List.mem_cons_self, rfl⟩
  | attempt i applied answer =>
    simp only [Board.act] at hact
    split at hact
    · exact absurd hact (by simp)
    · rename_i t ht
      obtain rfl := Option.some.inj hact
      refine h.attempt ht fun happ => ?_
      subst happ
      exact hok t ht
  | pause | markHealthy =>
    obtain rfl := Option.some.inj hact
    exact h.fewer rfl (fun _ hq => hq) rfl rfl

end Board.Inv

/-- **A forge check never goes back to pending**, and shows the verdict of the evaluation or of its
    row, in every run in which no verdict overtakes a Pending post of its context and every status
    is reported as the row has it. -/
theorem never_back_to_pending (ev : Evaluation) (b : Board)
    (hopening : Opening ev.id ev.persisted ev.strategy) (hrun : BoardRun ev.InOrder ev b) :
    b.NeverBack := by
  obtain ⟨walk, repoId, hk, henq⟩ := hopening.loaded
  have hnd := nodup_scheduleItems walk repoId ev.id hopening.ids
  have hstart := Phase.Sane.start henq (flat_scheduleItems hk repoId ev.id ev.persisted) hnd
    ev.persisted ev.cancel
  suffices h : Board.Inv (scheduleItems walk repoId ev.id ev.persisted) b from h.neverBack
  induction hrun with
  | start => exact .start ev
  | act _ hok hact ih => exact ih.act hnd (fun _ hi => evalId_scheduleItems hi) hstart hok hact
  | reorder _ hstage hs ih => exact ih.reorder hstage hs

instance (ev : Evaluation) (b : Board) (a : BoardAct) : Decidable (ev.InOrder b a) :=
  match a with
  | .attempt i true _ => inferInstanceAs (Decidable (∀ t ∈ b.tasks[i]?, _ → _))
  | .attempt _ false _ => isTrue trivial
  | .build => inferInstanceAs (Decidable (_ → ∀ q ∈ ev.persisted, _ → _))
  | .loop .handle elapsed =>
    match hb : b.stage with
    | .building row p _ =>
      decidable_of_iff (ev.collapsed = false → ∀ x ∈ p.pc.todo.head?,
        x.speaks (p.knows x.jobId) = true →
        (x.apply (p.knows x.jobId) row p.tally).1.jobStatus x.jobId = some x.status) (by
          simp only [Evaluation.InOrder, hb])
    | .received | .evaluating | .failed => isTrue (by simp only [Evaluation.InOrder, hb])
  | .loop .look _ | .loop .noPermit _ | .loop .dispatch _ | .loop .check _ | .loop .wake _
  | .loop .pollCancel _ | .loop (.join _) _ | .loop .permit _ | .loop .sleep _ | .loop (.drain _) _
  | .loop .drained _ | .loop .finish _ | .loop .post _ | .loop (.build _ _) _
  | .loop (.dropGuard _) _ | .loop .supersede _ | .loop .fire _ | .webhook | .bootScan
  | .evalFailed | .reconcile | .spawn | .pause | .markHealthy => isTrue trivial

/-- A script of actions, with every hash map in the order it is stored. -/
def Board.script (ok : Board → BoardAct → Prop) [∀ b a, Decidable (ok b a)] (ev : Evaluation) :
    Board → List BoardAct → Option Board
  | b, [] => some b
  | b, a :: as => if ok b a then (b.act ev a).bind fun b' => script ok ev b' as else none

theorem BoardRun.of_script {ok : Board → BoardAct → Prop} [∀ b a, Decidable (ok b a)]
    {ev : Evaluation} : ∀ {as : List BoardAct} {b b' : Board}, BoardRun ok ev b →
      b.script ok ev as = some b' → BoardRun ok ev b' := by
  intro as
  induction as with
  | nil =>
    intro b b' hrun h
    obtain rfl := Option.some.inj h
    exact hrun
  | cons a as ih =>
    intro b b' hrun h
    simp only [Board.script] at h
    split at h
    · rename_i hok
      obtain ⟨b₁, hact, hrest⟩ := Option.bind_eq_some_iff.mp h
      exact ih (hrun.act hok hact) hrest
    · exact absurd h (by simp)

/-- One Job. -/
def oneJob : Persisted := [(specOf "a", ⟨1⟩)]

/-- An evaluation of one Job on a commit that shows nothing yet. -/
def oneJobEvaluation : Evaluation :=
  { id := ⟨1⟩
    persisted := oneJob
    strategy := load none (scheduleItems noWalk ⟨1⟩ ⟨1⟩ oneJob)
    row := (EvalRow.create ⟨1⟩).createJob ⟨1⟩ "a" (some "a") ""
    cancel := false
    threshold := 50
    resumed := false
    paused := false
    before := fun _ => none }

theorem opening_oneJob :
    Opening oneJobEvaluation.id oneJobEvaluation.persisted oneJobEvaluation.strategy :=
  ⟨by decide, noWalk, ⟨1⟩, fun _ _ hl => absurd hl (by simp [noWalk]), enqueued_load none _⟩

/-- The oldest task sends its post and is answered. -/
def sends (answer : Answer) : BoardAct := .attempt 0 (decide (answer = .ok)) answer

/-- The loop does this. -/
def loops (as : List PhaseAct) : List BoardAct := as.map fun a => .loop a false

/-- The Job is built, counted and posted. -/
def buildsJob : List BoardAct :=
  loops [.look, .dispatch, .dispatch, .check, .build ⟨0⟩ .arm, .build ⟨0⟩ .dispatch,
    .build ⟨0⟩ (.verdict true), .pollCancel, .join ⟨0⟩, .handle]

/-- The last round of the loop. -/
def endsPhase : List BoardAct := loops [.handle, .look, .dispatch, .check, .finish, .post]

/-- Every post arrives before the next one is spawned. -/
def arriveInOrder : List BoardAct :=
  [.webhook, .spawn, sends .ok, .build, .spawn, .spawn, sends .ok, sends .transient, sends .ok] ++
    buildsJob ++ [.spawn, sends .ok] ++ endsPhase ++ [.spawn, sends .ok, .reconcile, .spawn,
      sends .ok]

theorem arriveInOrder_shows :
    ((Board.start oneJobEvaluation).script oneJobEvaluation.InOrder oneJobEvaluation
        arriveInOrder).map (fun b => (decide (⟨.job ⟨1⟩, .success⟩ ∈ b.accepted),
          decide (⟨.overall, .success⟩ ∈ b.accepted), b.inFlight, b.stage.verdict (.job ⟨1⟩),
          b.stage.verdict .overall)) =
      some (true, true, [], some .success, some .success) := by
  decide

theorem never_back_to_pending_in_order : ∃ b, BoardRun oneJobEvaluation.InOrder oneJobEvaluation b ∧
    b.inFlight = [] ∧ b.shown (.job ⟨1⟩) = some .success ∧ b.shown .overall = some .success := by
  obtain ⟨b, hscript, hb⟩ := Option.map_eq_some_iff.mp arriveInOrder_shows
  obtain ⟨hjob, hall, hflight, hone, hover⟩ : ⟨.job ⟨1⟩, .success⟩ ∈ b.accepted ∧
      ⟨.overall, .success⟩ ∈ b.accepted ∧ b.inFlight = [] ∧
      b.stage.verdict (.job ⟨1⟩) = some .success ∧ b.stage.verdict .overall = some .success := by
    simpa using hb
  have hrun := BoardRun.of_script .start hscript
  have hnever := never_back_to_pending oneJobEvaluation b opening_oneJob hrun
  refine ⟨b, hrun, hflight, ?_, ?_⟩
  · exact (hnever _ hjob (by simp)).2.trans hone
  · exact (hnever _ hall (by simp)).2.trans hover

/-! ## A verdict that is overtaken -/

/-- The forge answers the Job's Pending post with a 503. While its task waits to send it again,
    everything else arrives. -/
def pendingComesLast : List BoardAct :=
  [.webhook, .spawn, sends .ok, .build, .spawn, sends .ok, .spawn, sends .transient] ++
    buildsJob ++ [.spawn, .attempt 1 true .ok] ++ endsPhase ++ [.spawn, .attempt 1 true .ok,
      .reconcile, .spawn, .attempt 1 true .ok, sends .ok]

theorem pendingComesLast_shows :
    ((Board.start oneJobEvaluation).script (fun _ _ => True) oneJobEvaluation
        pendingComesLast).map (fun b => (decide (⟨.job ⟨1⟩, .success⟩ ∈ b.accepted), b.inFlight,
          b.stage.verdict (.job ⟨1⟩), b.shown (.job ⟨1⟩))) =
      some (true, [], some .success, some .pending) := by
  decide

theorem not_never_back :
    ¬ ∀ (ev : Evaluation) (b : Board), Opening ev.id ev.persisted ev.strategy →
      BoardRun (fun _ _ => True) ev b → b.inFlight = [] → b.NeverBack := by
  intro h
  obtain ⟨b, hscript, hb⟩ := Option.map_eq_some_iff.mp pendingComesLast_shows
  obtain ⟨hjob, hflight, -, hshown⟩ : ⟨.job ⟨1⟩, .success⟩ ∈ b.accepted ∧ b.inFlight = [] ∧
      b.stage.verdict (.job ⟨1⟩) = some .success ∧ b.shown (.job ⟨1⟩) = some .pending := by
    simpa using hb
  have hnever := h oneJobEvaluation b opening_oneJob (BoardRun.of_script .start hscript) hflight
  exact (hnever _ hjob (by simp)).1 hshown

end Argunix.Daemon
