import Argunix.Lib.HashMap
import Argunix.Lib.Runs

/-!
# `argunix-builder`: the builds of one connection

The agent runs what the coordinator sends. The session loop handles one message after the other: a
`Build` spawns a task and puts the sending end of a oneshot channel into `in_flight`, under the
build's id; an `Abort` takes that sender out and fires it. The task waits for its child and for the
receiving end at once. When it is through it sends `BuildFinished`, removes its gcroot links, and
last of all removes the entry under its id.

The entry is found by the id, and the id may be used again as soon as `BuildFinished` is out. **A
task that comes late removes the sender of the next run.** A sender that is dropped wakes the
receiver as one that fires does, so that run is killed, and nobody asked for it.
`perBuild_of_run` says that this is all that can go wrong: in every run in which no task finds the
sender of a newer run that is still running, every `Build` has one `BuildFinished`, none is killed
without a cause, and every `Abort` reaches its build.
-/

set_option autoImplicit false

namespace Argunix.Builder

open Argunix.Lib

/-! ## One build -/

/-- What an agent says of a build. -/
inductive BuildOutcomeStatus
  | success
  | failure
  | killed
  | spawnFailed
deriving DecidableEq, Repr

/-- The frame `BuildFinished`. -/
structure BuildFinished where
  buildId : ℤ
  status : BuildOutcomeStatus
  exitCode : Option ℤ
  outputPaths : List String
  logTruncated : Bool
deriving DecidableEq, Repr

/-- What `child.wait()` returns. -/
inductive WaitResult
  | exited (success : Bool) (code : Option ℤ)
  | err
deriving DecidableEq, Repr

/-- The frame at the end of `handle_build`. The pumps are not awaited after an abort, so what they
    have captured is not reported. -/
def finished (buildId : ℤ) (aborted : Bool) (exit : WaitResult) (outputPaths : List String)
    (logTruncated : Bool) : BuildFinished :=
  let (status, exitCode) : BuildOutcomeStatus × Option ℤ :=
    match exit with
    | .exited success code =>
      (if aborted then .killed else if success then .success else .failure, code)
    | .err => (.failure, none)
  { buildId := buildId
    status := status
    exitCode := exitCode
    outputPaths := if status = .success then outputPaths else []
    logTruncated := !aborted && logTruncated }

/-- The oneshot channel, as its receiver sees it. -/
inductive Signal
  | waiting
  | sent
  | closed
deriving DecidableEq, Repr

/-- Where a build task stands. -/
inductive RunPc
  /-- Up to the `select!`. -/
  | preparing
  | selecting
  /-- The abort arm was taken. -/
  | killing
  | finishing (frame : BuildFinished)
  /-- `BuildFinished` is out, the entry is not removed. -/
  | reported
  | done
deriving DecidableEq, Repr

namespace RunPc

/-- The abort arm can still be taken. -/
def isRunning : RunPc → Bool
  | preparing | selecting => true
  | _ => false

/-- The frame was sent. -/
def hasReported : RunPc → Bool
  | reported | done => true
  | _ => false

end RunPc

/-- A build task. `signal` is its abort channel. -/
structure BuildRun where
  buildId : ℤ
  signal : Signal
  pc : RunPc
  /-- How much had happened when its `Build` was handled. -/
  born : ℕ
deriving DecidableEq, Repr

/-- The sender was used or dropped. -/
def BuildRun.signalled (run : BuildRun) (signal : Signal) : BuildRun :=
  if run.signal = .waiting then { run with signal := signal } else run

/-! ## The connection -/

/-- What is recorded, in the order in which it happened. -/
inductive Event
  | build (run : ℕ) (buildId : ℤ)
  | abort (buildId : ℤ)
  | finished (run : ℕ) (frame : BuildFinished)
  | teardown
deriving DecidableEq, Repr

/-- The agent of one connection. -/
structure Agent where
  /-- Every `Build` of the connection, in order. -/
  runs : List BuildRun
  /-- `in_flight`, with the run whose sender it holds. -/
  inFlight : HashMap ℤ ℕ
  log : List Event
  torn : Bool

/-- The steps of a build task. -/
inductive TaskAct
  | spawn
  | spawnFail
  | exit (exit : WaitResult) (outputPaths : List String) (logTruncated : Bool)
  | abort
  | report
  | cleanup
deriving DecidableEq, Repr

/-- The steps of the session loop, and those of the tasks. -/
inductive Action
  | build (buildId : ℤ)
  | abort (buildId : ℤ)
  | teardown
  | task (run : ℕ) (act : TaskAct)
deriving DecidableEq, Repr

namespace Agent

/-- A connection that was just accepted. -/
def start : Agent := { runs := [], inFlight := ∅, log := [], torn := false }

/-- One more event. -/
def happen (s : Agent) (e : Event) : Agent := { s with log := s.log ++ [e] }

/-- What becomes of a task. -/
def setRun (s : Agent) (i : ℕ) (f : BuildRun → BuildRun) : Agent :=
  { s with runs := s.runs.modify i f }

/-- Where a task stands now. -/
def setPc (s : Agent) (i : ℕ) (pc : RunPc) : Agent := s.setRun i fun run => { run with pc := pc }

/-- `in_flight.remove(&build_id)`, and what becomes of the sender. -/
def remove (s : Agent) (buildId : ℤ) (signal : Signal) : Agent :=
  match s.inFlight.lookup buildId with
  | none => s
  | some i =>
    { s.setRun i (·.signalled signal) with inFlight := s.inFlight.erase buildId }

/-- `abort_all_in_flight` -/
def abortAllInFlight (s : Agent) : Agent :=
  s.inFlight.keys.foldl (fun s buildId => s.remove buildId .sent) s

/-- The new run, and its sender. -/
def insert (s : Agent) (buildId : ℤ) : Agent :=
  { s with
    runs := s.runs ++ [⟨buildId, .waiting, .preparing, s.log.length⟩]
    inFlight := s.inFlight.insert buildId s.runs.length }

/-- A build task takes a step. -/
def taskAct (s : Agent) (i : ℕ) (run : BuildRun) : TaskAct → Option Agent
  | .spawn => if run.pc = .preparing then some (s.setPc i .selecting) else none
  | .spawnFail =>
    if run.pc = .preparing then
      some (s.setPc i (.finishing ⟨run.buildId, .spawnFailed, none, [], false⟩))
    else none
  | .exit exit outputPaths logTruncated =>
    match run.pc with
    | .selecting =>
      some (s.setPc i (.finishing
        (Builder.finished run.buildId false exit outputPaths logTruncated)))
    | .killing =>
      some (s.setPc i (.finishing
        (Builder.finished run.buildId true exit outputPaths logTruncated)))
    | _ => none
  | .abort =>
    if run.pc = .selecting ∧ run.signal ≠ .waiting then some (s.setPc i .killing) else none
  | .report =>
    match run.pc with
    | .finishing frame => some ((s.setPc i .reported).happen (.finished i frame))
    | _ => none
  | .cleanup =>
    if run.pc = .reported then some ((s.remove run.buildId .closed).setPc i .done) else none

/-- One step of the session loop or of a task. The coordinator sends an id again only when
    `BuildFinished` of its earlier runs is out. -/
def act (s : Agent) : Action → Option Agent
  | .build buildId =>
    if s.torn = false ∧ ∀ run ∈ s.runs, run.buildId = buildId → run.pc.hasReported = true then
      -- the sender that `insert` finds under the id is dropped
      some (((s.remove buildId .closed).insert buildId).happen (.build s.runs.length buildId))
    else none
  | .abort buildId =>
    if s.torn = false then some ((s.remove buildId .sent).happen (.abort buildId)) else none
  | .teardown =>
    if s.torn = false then some { s.abortAllInFlight.happen .teardown with torn := true } else none
  | .task i a =>
    match s.runs[i]? with
    | some run => s.taskAct i run a
    | none => none

end Agent

/-! ## What is wanted -/

/-- The `BuildFinished` of a run. -/
def Event.isFinishedOf (i : ℕ) (buildId : ℤ) : Event → Bool
  | finished j frame => j = i && frame.buildId = buildId
  | _ => false

/-- An `Abort` for its id was handled after the `Build`, or the connection was torn down. -/
def Agent.Caused (s : Agent) (run : BuildRun) : Prop :=
  .abort run.buildId ∈ s.log.drop run.born ∨ .teardown ∈ s.log

/-- **The bookkeeping is per build.** -/
structure Agent.PerBuild (s : Agent) : Prop where
  /-- One `BuildFinished` for each `Build` whose task has got that far, and none before. -/
  finishes : ∀ i run, s.runs[i]? = some run →
    s.log.countP (Event.isFinishedOf i run.buildId) = if run.pc.hasReported then 1 else 0
  killed : ∀ i frame, .finished i frame ∈ s.log → frame.status = .killed →
    ∃ run, s.runs[i]? = some run ∧ s.Caused run
  /-- An `Abort` that is handled while the build is running reaches it. -/
  delivered : ∀ (i : ℕ) (run : BuildRun), s.runs[i]? = some run → run.pc.isRunning = true →
    .abort run.buildId ∈ s.log.drop run.born → run.signal = .sent

/-- No task finds the sender of another run that is still running. -/
def LeavesNewer (s : Agent) : Action → Prop
  | .task i .cleanup => ∀ run ∈ s.runs[i]?, ∀ j ∈ s.inFlight.lookup run.buildId, j ≠ i →
      ∀ newer ∈ s.runs[j]?, newer.pc.isRunning = false
  | _ => True

/-! ## The steps, read off the state -/

namespace Agent

variable {s s' : Agent} {i j : ℕ} {b : ℤ} {run : BuildRun}

theorem getElem?_setRun (s : Agent) (i j : ℕ) (f : BuildRun → BuildRun) :
    (s.setRun i f).runs[j]? = s.runs[j]?.map fun run => if i = j then f run else run :=
  List.getElem?_modify f i s.runs j

theorem getElem?_remove (s : Agent) (b : ℤ) (signal : Signal) (j : ℕ) :
    (s.remove b signal).runs[j]? = s.runs[j]?.map fun run =>
      if s.inFlight.lookup b = some j then run.signalled signal else run := by
  unfold remove
  cases hl : s.inFlight.lookup b with
  | none => simp
  | some i =>
    show (s.setRun i (·.signalled signal)).runs[j]? = _
    rw [getElem?_setRun]
    simp only [Option.some.injEq]

theorem lookup_remove (s : Agent) (b b' : ℤ) (signal : Signal) :
    (s.remove b signal).inFlight.lookup b' = if b' = b then none else s.inFlight.lookup b' := by
  unfold remove
  cases hl : s.inFlight.lookup b with
  | none =>
    by_cases hb : b' = b
    · rw [if_pos hb, hb]
      exact hl
    · rw [if_neg hb]
  | some i => exact HashMap.lookup_erase_eq b b' s.inFlight

theorem log_remove (s : Agent) (b : ℤ) (signal : Signal) : (s.remove b signal).log = s.log := by
  unfold remove
  split <;> rfl

theorem length_remove (s : Agent) (b : ℤ) (signal : Signal) :
    (s.remove b signal).runs.length = s.runs.length := by
  unfold remove
  split
  · rfl
  · exact List.length_modify ..

end Agent

theorem BuildRun.signalled_cases (run : BuildRun) (signal : Signal) :
    (run.signal = .waiting ∧ run.signalled signal = { run with signal := signal }) ∨
      (run.signal ≠ .waiting ∧ run.signalled signal = run) := by
  unfold signalled
  by_cases h : run.signal = .waiting
  · exact .inl ⟨h, if_pos h⟩
  · exact .inr ⟨h, if_neg h⟩

/-! ## The books -/

/-- The task is on its way to report `Killed`. -/
def RunPc.isKilled : RunPc → Bool
  | killing => true
  | finishing frame => frame.status = .killed
  | _ => false

/-- What holds of one run: `held` says that its sender is in the map. -/
structure RunOk (log : List Event) (held : Prop) (i : ℕ) (run : BuildRun) : Prop where
  live : run.pc.isRunning = true → run.signal = .waiting → held
  kept : run.pc.isRunning = true → run.signal ≠ .closed
  caused : run.signal = .sent ∨ run.pc.isKilled = true →
    .abort run.buildId ∈ log.drop run.born ∨ .teardown ∈ log
  frame : ∀ frame, run.pc = .finishing frame → frame.buildId = run.buildId
  delivered : run.pc.isRunning = true → .abort run.buildId ∈ log.drop run.born →
    run.signal = .sent
  counted : log.countP (Event.isFinishedOf i run.buildId) = if run.pc.hasReported then 1 else 0
  born : run.born ≤ log.length

/-- What holds of the agent between two steps. -/
structure Agent.Books (s : Agent) : Prop where
  ok : ∀ i run, s.runs[i]? = some run →
    RunOk s.log (s.inFlight.lookup run.buildId = some i) i run
  held : ∀ b i, s.inFlight.lookup b = some i → ∃ run, s.runs[i]? = some run ∧ run.buildId = b
  killed : ∀ i frame, .finished i frame ∈ s.log → frame.status = .killed →
    ∃ run, s.runs[i]? = some run ∧ s.Caused run
  known : ∀ i frame, .finished i frame ∈ s.log → i < s.runs.length

theorem mem_drop_append {α : Type} {l : List α} {n : ℕ} {x e : α} (hn : n ≤ l.length) :
    x ∈ (l ++ [e]).drop n ↔ x ∈ l.drop n ∨ x = e := by
  rw [List.drop_append_of_le_length hn, List.mem_append, List.mem_singleton]

/-- A cause stays a cause. -/
theorem Agent.Caused.happen {s : Agent} {run : BuildRun} {e : Event} (h : s.Caused run)
    (hborn : run.born ≤ s.log.length) : (s.happen e).Caused run := by
  rcases h with h | h
  · exact .inl ((mem_drop_append hborn).mpr (.inl h))
  · exact .inr (List.mem_append_left _ h)

/-- Something happens that is not about this run, except that its sender may have been used. -/
theorem RunOk.happen {log : List Event} {held held' : Prop} {i : ℕ} {run run' : BuildRun}
    {e : Event} (h : RunOk log held i run)
    (hrun : run' = run ∨ run' = run.signalled .sent ∧
      (.abort run.buildId ∈ (log ++ [e]).drop run.born ∨ .teardown ∈ log ++ [e]))
    (hheld : run'.pc.isRunning = true → run'.signal = .waiting → held → held')
    (habort : e = .abort run.buildId → run'.pc.isRunning = true → run'.signal = .sent)
    (hfin : e.isFinishedOf i run.buildId = false) : RunOk (log ++ [e]) held' i run' := by
  have hcaused : run.signal = .sent ∨ run.pc.isKilled = true →
      .abort run.buildId ∈ (log ++ [e]).drop run.born ∨ .teardown ∈ log ++ [e] := by
    intro hs
    rcases h.caused hs with hc | hc
    · exact .inl ((mem_drop_append h.born).mpr (.inl hc))
    · exact .inr (List.mem_append_left _ hc)
  have hcount : (log ++ [e]).countP (Event.isFinishedOf i run.buildId) =
      if run.pc.hasReported then 1 else 0 := by
    rw [List.countP_append, h.counted, List.countP_singleton, hfin]
    rfl
  have hborn : run.born ≤ (log ++ [e]).length := by
    rw [List.length_append]
    exact Nat.le_add_right_of_le h.born
  have hsent : ∀ run'' : BuildRun, run''.buildId = run.buildId → run''.born = run.born →
      run''.pc = run.pc → (run.signal = .sent → run''.signal = .sent) →
      (e = .abort run.buildId → run''.pc.isRunning = true → run''.signal = .sent) →
      run''.pc.isRunning = true → .abort run''.buildId ∈ (log ++ [e]).drop run''.born →
        run''.signal = .sent := by
    intro run'' hid hb hpc hsig hab hr hm
    rw [hid, hb, mem_drop_append h.born] at hm
    rcases hm with hm | hm
    · exact hsig (h.delivered (hpc ▸ hr) hm)
    · exact hab hm.symm hr
  rcases hrun with rfl | ⟨rfl, hcause⟩
  · exact ⟨fun hr hw => hheld hr hw (h.live hr hw), h.kept, hcaused, h.frame,
      hsent _ rfl rfl rfl (fun hs => hs) habort, hcount, hborn⟩
  · rcases run.signalled_cases .sent with ⟨hw, heq⟩ | ⟨hw, heq⟩
    · rw [heq] at hheld habort ⊢
      exact ⟨fun _ hw' => absurd hw' (by simp), fun _ => by simp, fun _ => hcause, h.frame,
        hsent _ rfl rfl rfl (fun _ => rfl) habort, hcount, hborn⟩
    · rw [heq] at hheld habort ⊢
      exact ⟨fun _ hw' => absurd hw' hw, h.kept, hcaused, h.frame,
        hsent _ rfl rfl rfl (fun hs => hs) habort, hcount, hborn⟩

/-- Every run is still there, with its id. -/
def Agent.Renews (s s' : Agent) : Prop :=
  ∀ (i : ℕ) (run : BuildRun), s.runs[i]? = some run →
    ∃ run', s'.runs[i]? = some run' ∧ run'.buildId = run.buildId ∧ run'.born = run.born

namespace Agent.Books

variable {s s' : Agent} {i : ℕ} {b : ℤ} {run : BuildRun}

/-- The parts of the books that are about single runs, and the event that is new, if there is
    one. -/
theorem step (h : s.Books) (hruns : s.Renews s')
    (hlog : s'.log = s.log ∨ ∃ e, s'.log = s.log ++ [e] ∧
      ∀ i frame, e = .finished i frame → ∃ run, s.runs[i]? = some run ∧
        (frame.status = .killed → s.Caused run))
    (hheld : ∀ b i, s'.inFlight.lookup b = some i → s.inFlight.lookup b = some i ∨
      ∃ run, s'.runs[i]? = some run ∧ run.buildId = b)
    (hok : ∀ i run, s'.runs[i]? = some run →
      RunOk s'.log (s'.inFlight.lookup run.buildId = some i) i run) : s'.Books := by
  have hfinished : ∀ i frame, .finished i frame ∈ s'.log → ∃ run, s.runs[i]? = some run ∧
      (frame.status = .killed → s.Caused run) := by
    intro i frame hmem
    have hold : .finished i frame ∈ s.log → ∃ run, s.runs[i]? = some run ∧
        (frame.status = .killed → s.Caused run) := by
      intro hm
      have hlt := h.known i frame hm
      refine ⟨s.runs[i], List.getElem?_eq_getElem hlt, fun hk => ?_⟩
      obtain ⟨run, hrun, hc⟩ := h.killed i frame hm hk
      rw [List.getElem?_eq_getElem hlt, Option.some.injEq] at hrun
      rwa [hrun]
    rcases hlog with hlog | ⟨e, hlog, hnew⟩
    · exact hold (hlog ▸ hmem)
    · rw [hlog, List.mem_append, List.mem_singleton] at hmem
      rcases hmem with hm | hm
      · exact hold hm
      · exact hnew i frame hm.symm
  have hcaused : ∀ {run run' : BuildRun}, run.born ≤ s.log.length → run'.buildId = run.buildId →
      run'.born = run.born → s.Caused run → s'.Caused run' := by
    intro run run' hle hid hborn hc
    unfold Agent.Caused at hc ⊢
    rw [hid, hborn]
    rcases hlog with hlog | ⟨e, hlog, -⟩
    · rwa [hlog]
    · rw [hlog]
      exact Agent.Caused.happen (e := e) hc hle
  refine ⟨hok, ?_, ?_, ?_⟩
  · intro b i hl
    rcases hheld b i hl with hl | hl
    · obtain ⟨run, hrun, hid⟩ := h.held b i hl
      obtain ⟨run', hrun', hid', -⟩ := hruns i run hrun
      exact ⟨run', hrun', hid'.trans hid⟩
    · exact hl
  · intro i frame hmem hk
    obtain ⟨run, hrun, hc⟩ := hfinished i frame hmem
    obtain ⟨run', hrun', hid, hborn⟩ := hruns i run hrun
    exact ⟨run', hrun', hcaused (h.ok i run hrun).born hid hborn (hc hk)⟩
  · intro i frame hmem
    obtain ⟨run, hrun, -⟩ := hfinished i frame hmem
    obtain ⟨run', hrun', -⟩ := hruns i run hrun
    exact (List.getElem?_eq_some_iff.mp hrun').1

theorem renews_map {f : ℕ → BuildRun → BuildRun}
    (h : ∀ j, s'.runs[j]? = s.runs[j]?.map (f j))
    (hf : ∀ j run, (f j run).buildId = run.buildId ∧ (f j run).born = run.born) : s.Renews s' := by
  intro j run hrun
  refine ⟨f j run, ?_, hf j run⟩
  rw [h, hrun]
  rfl

theorem signalled_same (run : BuildRun) (signal : Signal) :
    (run.signalled signal).buildId = run.buildId ∧ (run.signalled signal).born = run.born := by
  rcases run.signalled_cases signal with ⟨-, h⟩ | ⟨-, h⟩
  · rw [h]
    exact ⟨rfl, rfl⟩
  · rw [h]
    exact ⟨rfl, rfl⟩

/-- A task goes on. -/
theorem setPc {pc : RunPc} (h : s.Books) (hrun : s.runs[i]? = some run)
    (hrunning : pc.isRunning = true → run.pc.isRunning = true)
    (hkilled : pc.isKilled = true → s.Caused run)
    (hframe : ∀ frame, pc = .finishing frame → frame.buildId = run.buildId)
    (hreported : pc.hasReported = run.pc.hasReported) : (s.setPc i pc).Books := by
  have hget : ∀ j, (s.setPc i pc).runs[j]? = s.runs[j]?.map fun run =>
      if i = j then { run with pc := pc } else run := fun j => getElem?_setRun s i j _
  refine h.step (renews_map hget fun j run => ?_) (.inl rfl) (fun b' j hl => .inl hl) ?_
  · split <;> exact ⟨rfl, rfl⟩
  · intro j run' hj
    rw [hget] at hj
    obtain ⟨old, hold, rfl⟩ := Option.map_eq_some_iff.mp hj
    have hok := h.ok j old hold
    by_cases hij : i = j
    · subst hij
      obtain rfl := Option.some.inj (hrun.symm.trans hold)
      rw [if_pos rfl]
      refine ⟨fun hr => hok.live (hrunning hr), fun hr => hok.kept (hrunning hr), ?_, hframe,
        fun hr => hok.delivered (hrunning hr), ?_, hok.born⟩
      · intro hc
        rcases hc with hs | hk
        · exact hok.caused (.inl hs)
        · exact hkilled hk
      · rw [show (if pc.hasReported = true then 1 else 0) =
          if run.pc.hasReported = true then 1 else 0 by rw [hreported]]
        exact hok.counted
    · rw [if_neg hij]
      exact hok

/-- `BuildFinished` goes out. -/
theorem report {frame : BuildFinished} (h : s.Books) (hrun : s.runs[i]? = some run)
    (hpc : run.pc = .finishing frame) :
    ((s.setPc i .reported).happen (.finished i frame)).Books := by
  have hget : ∀ j, ((s.setPc i .reported).happen (.finished i frame)).runs[j]? =
      s.runs[j]?.map fun run => if i = j then { run with pc := .reported } else run :=
    fun j => getElem?_setRun s i j _
  have hrunOk := h.ok i run hrun
  refine h.step (renews_map hget fun j run => ?_) (.inr ⟨_, rfl, ?_⟩) (fun b' j hl => .inl hl) ?_
  · split <;> exact ⟨rfl, rfl⟩
  · intro j frame' he
    obtain ⟨rfl, rfl⟩ := Event.finished.inj he
    exact ⟨run, hrun, fun hk => hrunOk.caused (.inr (by rw [hpc]; exact decide_eq_true hk))⟩
  · intro j run' hj
    rw [hget] at hj
    obtain ⟨old, hold, rfl⟩ := Option.map_eq_some_iff.mp hj
    have hok := h.ok j old hold
    by_cases hij : i = j
    · subst hij
      obtain rfl := Option.some.inj (hrun.symm.trans hold)
      rw [if_pos rfl]
      refine ⟨fun hr => absurd hr (by simp [RunPc.isRunning]),
        fun hr => absurd hr (by simp [RunPc.isRunning]), ?_, fun _ hf => absurd hf (by simp),
        fun hr => absurd hr (by simp [RunPc.isRunning]), ?_, ?_⟩
      · intro hc
        rcases hc with hs | hk
        · exact Agent.Caused.happen (s := s) (hok.caused (.inl hs)) hok.born
        · exact absurd hk (by simp [RunPc.isKilled])
      · have hcount := hok.counted
        rw [hpc] at hcount
        show (s.log ++ [_]).countP _ = 1
        rw [List.countP_append, hcount, List.countP_singleton]
        simp [Event.isFinishedOf, hok.frame frame hpc, RunPc.hasReported]
      · show run.born ≤ (s.log ++ [_]).length
        rw [List.length_append]
        exact Nat.le_add_right_of_le hok.born
    · rw [if_neg hij]
      refine hok.happen (.inl rfl) (fun _ _ hl => hl) (fun he => absurd he (by simp)) ?_
      simp [Event.isFinishedOf, hij]

/-- The sender under `b` belongs to a run of `b`. -/
theorem buildId_of_held (h : s.Books) (hrun : s.runs[i]? = some run)
    (hl : s.inFlight.lookup b = some i) : run.buildId = b := by
  obtain ⟨run', hrun', hid⟩ := h.held b i hl
  rw [Option.some.inj (hrun.symm.trans hrun')]
  exact hid

theorem abort (h : s.Books) (b : ℤ) : ((s.remove b .sent).happen (.abort b)).Books := by
  refine h.step (renews_map (getElem?_remove s b .sent) fun j run => ?_)
    (.inr ⟨.abort b, by rw [Agent.happen, log_remove], fun i frame he => absurd he (by simp)⟩)
    ?_ ?_
  · split
    · exact signalled_same run .sent
    · exact ⟨rfl, rfl⟩
  · intro b' j hl
    rw [show ((s.remove b .sent).happen (.abort b)).inFlight = (s.remove b .sent).inFlight from rfl,
      lookup_remove] at hl
    split at hl
    · exact absurd hl (by simp)
    · exact .inl hl
  · intro j run' hj
    rw [show ((s.remove b .sent).happen (.abort b)).runs = (s.remove b .sent).runs from rfl,
      getElem?_remove] at hj
    obtain ⟨old, hold, rfl⟩ := Option.map_eq_some_iff.mp hj
    have hok := h.ok j old hold
    rw [Agent.happen, log_remove]
    dsimp only
    by_cases hheld : s.inFlight.lookup b = some j
    · have hid := h.buildId_of_held hold hheld
      rw [if_pos hheld]
      refine hok.happen (.inr ⟨rfl, ?_⟩) (fun _ hw _ => ?_) (fun _ hr => ?_) rfl
      · rw [hid]
        exact .inl ((mem_drop_append hok.born).mpr (.inr rfl))
      · rcases old.signalled_cases .sent with ⟨-, heq⟩ | ⟨hne, heq⟩
        · exact absurd (heq ▸ hw) (by simp)
        · exact absurd (heq ▸ hw) hne
      · rcases old.signalled_cases .sent with ⟨-, heq⟩ | ⟨hne, heq⟩
        · rw [heq]
        · -- it was not waiting, and a running build has not lost its sender
          rw [heq] at hr ⊢
          cases hs : old.signal with
          | waiting => exact absurd hs hne
          | sent => rfl
          | closed => exact absurd hs (hok.kept hr)
    · rw [if_neg hheld]
      refine hok.happen (.inl rfl) (fun _ _ hl => ?_) (fun he hr => ?_) rfl
      · rw [lookup_remove, if_neg, hl]
        rintro rfl
        exact hheld hl
      · have hid : b = old.buildId := Event.abort.inj he
        cases hs : old.signal with
        | waiting => exact absurd (hid ▸ hok.live hr hs) hheld
        | sent => rfl
        | closed => exact absurd hs (hok.kept hr)

/-- The draining of the map: every run is as it was or has been signalled, and a sender that is
    not used is still in the map. -/
structure Draining (s s' : Agent) : Prop where
  log : s'.log = s.log
  runs : ∀ j : ℕ, ∃ f : BuildRun → BuildRun, (∀ run, f run = run ∨ f run = run.signalled .sent) ∧
    s'.runs[j]? = s.runs[j]?.map f
  map : ∀ (b : ℤ) (j : ℕ), s'.inFlight.lookup b = some j → s.inFlight.lookup b = some j
  live : ∀ (j : ℕ) (run : BuildRun), s'.runs[j]? = some run → run.pc.isRunning = true →
    run.signal = .waiting → s'.inFlight.lookup run.buildId = some j

theorem signalled_signalled (run : BuildRun) :
    (run.signalled .sent).signalled .sent = run.signalled .sent := by
  rcases run.signalled_cases .sent with ⟨-, h⟩ | ⟨hne, h⟩
  · rw [h]
    exact if_neg (by simp)
  · rw [h, h]

theorem Draining.remove (h : Draining s s') (b : ℤ) : Draining s (s'.remove b .sent) := by
  refine ⟨by rw [log_remove, h.log], fun j => ?_, fun b' j hl => ?_, ?_⟩
  · obtain ⟨f, hf, hruns⟩ := h.runs j
    refine ⟨fun run => if s'.inFlight.lookup b = some j then (f run).signalled .sent else f run,
      fun run => ?_, ?_⟩
    · dsimp only
      split
      · rcases hf run with hr | hr
        · exact .inr (by rw [hr])
        · exact .inr (by rw [hr, signalled_signalled])
      · exact hf run
    · rw [getElem?_remove, hruns, Option.map_map]
      rfl
  · rw [lookup_remove] at hl
    split at hl
    · exact absurd hl (by simp)
    · exact h.map b' j hl
  · intro j run hj hr hw
    rw [getElem?_remove] at hj
    obtain ⟨old, hold, rfl⟩ := Option.map_eq_some_iff.mp hj
    by_cases hheld : s'.inFlight.lookup b = some j
    · rw [if_pos hheld] at hw
      rcases old.signalled_cases .sent with ⟨-, heq⟩ | ⟨hne, heq⟩
      · exact absurd (heq ▸ hw) (by simp)
      · exact absurd (heq ▸ hw) hne
    · rw [if_neg hheld] at hr hw ⊢
      have hl := h.live j old hold hr hw
      rw [lookup_remove, if_neg, hl]
      rintro rfl
      exact hheld hl

theorem draining_abortAllInFlight (h : s.Books) : Draining s s.abortAllInFlight := by
  unfold abortAllInFlight
  refine List.foldlRecOn (motive := Draining s) _ _ ?_ fun s' hs b _ => hs.remove b
  refine ⟨rfl, fun j => ⟨id, fun run => .inl rfl, (Option.map_id_apply).symm⟩, fun b j hl => hl, ?_⟩
  exact fun j run hj => (h.ok j run hj).live

theorem teardown (h : s.Books) :
    ({ s.abortAllInFlight.happen .teardown with torn := true } : Agent).Books := by
  have hd := draining_abortAllInFlight h
  refine h.step (fun j run hrun => ?_)
    (.inr ⟨.teardown, by rw [← hd.log]; rfl, fun i frame he => absurd he (by simp)⟩)
    (fun b j hl => .inl (hd.map b j hl)) ?_
  · obtain ⟨f, hf, hruns⟩ := hd.runs j
    refine ⟨f run, by rw [hrun] at hruns; exact hruns, ?_⟩
    rcases hf run with hr | hr
    · rw [hr]
      exact ⟨rfl, rfl⟩
    · rw [hr]
      exact signalled_same run .sent
  · intro j run' hj
    obtain ⟨f, hf, hruns⟩ := hd.runs j
    obtain ⟨old, hold, rfl⟩ := Option.map_eq_some_iff.mp (hruns.symm.trans hj)
    have hok := h.ok j old hold
    show RunOk (s.abortAllInFlight.log ++ [.teardown]) _ _ _
    rw [hd.log]
    refine hok.happen ?_ (fun hr hw _ => hd.live j _ hj hr hw) (fun he => absurd he (by simp)) rfl
    rcases hf old with hr | hr
    · exact .inl hr
    · exact .inr ⟨hr, .inr (List.mem_append_right _ (List.mem_singleton.mpr rfl))⟩

/-- A sender is dropped whose run does not listen any more. -/
theorem remove_closed (h : s.Books) (hidle : ∀ (j : ℕ) (run : BuildRun),
    s.inFlight.lookup b = some j → s.runs[j]? = some run → run.pc.isRunning = false) :
    (s.remove b .closed).Books := by
  refine h.step (renews_map (getElem?_remove s b .closed) fun j run => ?_)
    (.inl (log_remove s b .closed)) ?_ ?_
  · split
    · exact signalled_same run .closed
    · exact ⟨rfl, rfl⟩
  · intro b' j hl
    rw [lookup_remove] at hl
    split at hl
    · exact absurd hl (by simp)
    · exact .inl hl
  · intro j run' hj
    rw [getElem?_remove] at hj
    obtain ⟨old, hold, rfl⟩ := Option.map_eq_some_iff.mp hj
    have hok := h.ok j old hold
    rw [log_remove]
    by_cases hheld : s.inFlight.lookup b = some j
    · rw [if_pos hheld]
      have hstopped := hidle j old hheld hold
      rcases old.signalled_cases .closed with ⟨-, heq⟩ | ⟨-, heq⟩
      · rw [heq]
        refine ⟨fun hr => absurd hr (by simp [hstopped]), fun hr => absurd hr (by simp [hstopped]),
          fun hc => ?_, hok.frame, fun hr => absurd hr (by simp [hstopped]), hok.counted, hok.born⟩
        rcases hc with hs | hk
        · exact absurd hs (by simp)
        · exact hok.caused (.inr hk)
      · rw [heq]
        exact ⟨fun hr => absurd hr (by simp [hstopped]), hok.kept, hok.caused, hok.frame,
          hok.delivered, hok.counted, hok.born⟩
    · rw [if_neg hheld]
      refine ⟨fun hr hw => ?_, hok.kept, hok.caused, hok.frame, hok.delivered, hok.counted,
        hok.born⟩
      have hl := hok.live hr hw
      rw [lookup_remove, if_neg, hl]
      rintro rfl
      exact hheld hl

/-- A new run. -/
theorem insert (h : s.Books)
    (hidle : ∀ run ∈ s.runs, run.buildId = b → run.pc.isRunning = false) :
    ((s.insert b).happen (.build s.runs.length b)).Books := by
  have hget : ∀ (j : ℕ) (run : BuildRun),
      ((s.insert b).happen (.build s.runs.length b)).runs[j]? = some run →
      s.runs[j]? = some run ∨
        (j = s.runs.length ∧ run = ⟨b, .waiting, .preparing, s.log.length⟩) := by
    intro j run hj
    rw [show ((s.insert b).happen (.build s.runs.length b)).runs =
      s.runs ++ [⟨b, .waiting, .preparing, s.log.length⟩] from rfl, List.getElem?_append] at hj
    split at hj
    · exact .inl hj
    · rename_i hlt
      refine .inr ?_
      obtain ⟨hlt', heq⟩ := List.getElem?_eq_some_iff.mp hj
      simp only [List.length_singleton] at hlt'
      have hj' : j = s.runs.length := by omega
      subst hj'
      simpa using heq.symm
  have hlookup : ∀ b', ((s.insert b).happen (.build s.runs.length b)).inFlight.lookup b' =
      if b' = b then some s.runs.length else s.inFlight.lookup b' :=
    fun b' => HashMap.lookup_insert_eq b b' _ s.inFlight
  refine h.step (fun j run hrun => ⟨run, ?_, rfl, rfl⟩)
    (.inr ⟨_, rfl, fun i frame he => absurd he (by simp)⟩) ?_ ?_
  · show (s.runs ++ [_])[j]? = some run
    rw [List.getElem?_append_left (List.getElem?_eq_some_iff.mp hrun).1, hrun]
  · intro b' j hl
    rw [hlookup] at hl
    split at hl
    · rename_i hb
      refine .inr ⟨⟨b, .waiting, .preparing, s.log.length⟩, ?_, hb.symm⟩
      rw [← Option.some.inj hl]
      exact List.getElem?_concat_length ..
    · exact .inl hl
  · intro j run hj
    rcases hget j run hj with hold | ⟨rfl, rfl⟩
    · refine (h.ok j run hold).happen (.inl rfl) (fun hr _ hl => ?_)
        (fun he => absurd he (by simp)) rfl
      rw [hlookup, if_neg, hl]
      intro hb
      exact absurd hr (by simp [hidle run (List.mem_of_getElem? hold) hb])
    · refine ⟨fun _ _ => by rw [hlookup, if_pos rfl], fun _ => by simp, fun hc => ?_,
        fun _ hf => absurd hf (by simp), fun _ hm => ?_, ?_, ?_⟩
      · rcases hc with hs | hk
        · exact absurd hs (by simp)
        · exact absurd hk (by simp [RunPc.isKilled])
      · -- nothing has happened after its `Build`
        rw [show ((s.insert b).happen (.build s.runs.length b)).log =
          s.log ++ [.build s.runs.length b] from rfl, mem_drop_append (Nat.le_refl _),
          List.drop_length] at hm
        rcases hm with hm | hm
        · exact absurd hm (by simp)
        · exact absurd hm (by simp)
      · show (s.log ++ [_]).countP _ = 0
        rw [List.countP_eq_zero]
        intro e he hfin
        rcases List.mem_append.mp he with he | he
        · cases e with
          | finished i frame =>
            simp only [Event.isFinishedOf, Bool.and_eq_true, decide_eq_true_eq] at hfin
            exact absurd (h.known i frame he) (by omega)
          | build | abort | teardown => exact absurd hfin (by simp [Event.isFinishedOf])
        · rw [List.mem_singleton.mp he] at hfin
          exact absurd hfin (by simp [Event.isFinishedOf])
      · show s.log.length ≤ (s.log ++ [_]).length
        rw [List.length_append]
        exact Nat.le_add_right _ _

theorem isRunning_of_reported {pc : RunPc} (h : pc.hasReported = true) : pc.isRunning = false := by
  cases pc with
  | reported | done => rfl
  | preparing | selecting | killing | finishing => exact absurd h (by simp [RunPc.hasReported])

/-- A step of a build task. -/
theorem taskAct {t : TaskAct} (h : s.Books) (hok : LeavesNewer s (.task i t))
    (hrun : s.runs[i]? = some run) (hact : s.taskAct i run t = some s') : s'.Books := by
  have hrunOk := h.ok i run hrun
  cases t with
  | spawn =>
    rw [Agent.taskAct] at hact
    split at hact
    · rename_i hpc
      obtain rfl := Option.some.inj hact
      exact h.setPc hrun (fun _ => by rw [hpc]; rfl)
        (fun hk => absurd hk (by simp [RunPc.isKilled])) (fun _ hf => absurd hf (by simp))
        (by rw [hpc]; rfl)
    · exact absurd hact (by simp)
  | spawnFail =>
    rw [Agent.taskAct] at hact
    split at hact
    · rename_i hpc
      obtain rfl := Option.some.inj hact
      refine h.setPc hrun (fun _ => by rw [hpc]; rfl)
        (fun hk => absurd hk (by simp [RunPc.isKilled])) (fun frame hf => ?_) (by rw [hpc]; rfl)
      rw [← RunPc.finishing.inj hf]
    · exact absurd hact (by simp)
  | exit exit outputPaths logTruncated =>
    rw [Agent.taskAct] at hact
    split at hact
    · rename_i hpc
      obtain rfl := Option.some.inj hact
      refine h.setPc hrun (fun hr => absurd hr (by simp [RunPc.isRunning])) (fun hk => ?_)
        (fun frame hf => ?_) (by rw [hpc]; rfl)
      · cases exit with
        | exited success code =>
          cases success <;> exact absurd hk (by simp [RunPc.isKilled, finished])
        | err => exact absurd hk (by simp [RunPc.isKilled, finished])
      · rw [← RunPc.finishing.inj hf]
        rfl
    · rename_i hpc
      obtain rfl := Option.some.inj hact
      refine h.setPc hrun (fun hr => absurd hr (by simp [RunPc.isRunning]))
        (fun _ => hrunOk.caused (.inr (by rw [hpc]; rfl))) (fun frame hf => ?_) (by rw [hpc]; rfl)
      rw [← RunPc.finishing.inj hf]
      rfl
    · exact absurd hact (by simp)
  | abort =>
    rw [Agent.taskAct] at hact
    split at hact
    · rename_i hpc
      obtain rfl := Option.some.inj hact
      refine h.setPc hrun (fun hr => absurd hr (by simp [RunPc.isRunning])) (fun _ => ?_)
        (fun _ hf => absurd hf (by simp)) (by rw [hpc.1]; rfl)
      -- the receiver was woken by a sender that fired, not by one that was dropped
      refine hrunOk.caused (.inl ?_)
      cases hs : run.signal with
      | waiting => exact absurd hs hpc.2
      | sent => rfl
      | closed => exact absurd hs (hrunOk.kept (by rw [hpc.1]; rfl))
    · exact absurd hact (by simp)
  | report =>
    rw [Agent.taskAct] at hact
    split at hact
    · rename_i frame hpc
      obtain rfl := Option.some.inj hact
      exact h.report hrun hpc
    · exact absurd hact (by simp)
  | cleanup =>
    rw [Agent.taskAct] at hact
    split at hact
    · rename_i hpc
      obtain rfl := Option.some.inj hact
      have hremove : (s.remove run.buildId .closed).Books := by
        refine h.remove_closed fun j newer hl hj => ?_
        by_cases hij : j = i
        · subst hij
          rw [Option.some.inj (hj.symm.trans hrun), hpc]
          rfl
        · exact hok run hrun j hl hij newer hj
      have hget : ((s.remove run.buildId .closed).runs[i]?) = some
          (if s.inFlight.lookup run.buildId = some i then run.signalled .closed else run) := by
        rw [getElem?_remove, hrun]
        rfl
      refine hremove.setPc hget (fun hr => absurd hr (by simp [RunPc.isRunning]))
        (fun hk => absurd hk (by simp [RunPc.isKilled])) (fun _ hf => absurd hf (by simp)) ?_
      split
      · rcases run.signalled_cases .closed with ⟨-, heq⟩ | ⟨-, heq⟩ <;> rw [heq] <;>
          simp [hpc, RunPc.hasReported]
      · rw [hpc]
        rfl
    · exact absurd hact (by simp)

/-- **Every step keeps the books**, if no task finds the sender of a newer run. -/
theorem act {a : Action} (h : s.Books) (hok : LeavesNewer s a) (hact : s.act a = some s') :
    s'.Books := by
  cases a with
  | build b =>
    rw [Agent.act] at hact
    split at hact
    · rename_i hguard
      obtain rfl := Option.some.inj hact
      have hremove : (s.remove b .closed).Books := h.remove_closed fun j run hl hj =>
        isRunning_of_reported (hguard.2 run (List.mem_of_getElem? hj) (h.buildId_of_held hj hl))
      have hnew := hremove.insert (b := b) fun run hrun hid => ?_
      · rwa [length_remove] at hnew
      · obtain ⟨j, hj⟩ := List.mem_iff_getElem?.mp hrun
        rw [getElem?_remove] at hj
        obtain ⟨old, hold, rfl⟩ := Option.map_eq_some_iff.mp hj
        have hsame : ∀ run' : BuildRun, (if s.inFlight.lookup b = some j then
            run'.signalled .closed else run').pc = run'.pc := by
          intro run'
          split
          · rcases run'.signalled_cases .closed with ⟨-, heq⟩ | ⟨-, heq⟩ <;> rw [heq]
          · rfl
        rw [hsame]
        refine isRunning_of_reported (hguard.2 old (List.mem_of_getElem? hold) ?_)
        split at hid
        · rwa [(signalled_same old .closed).1] at hid
        · exact hid
    · exact absurd hact (by simp)
  | abort b =>
    rw [Agent.act] at hact
    split at hact
    · obtain rfl := Option.some.inj hact
      exact h.abort b
    · exact absurd hact (by simp)
  | teardown =>
    rw [Agent.act] at hact
    split at hact
    · obtain rfl := Option.some.inj hact
      exact h.teardown
    · exact absurd hact (by simp)
  | task i t =>
    rw [Agent.act] at hact
    split at hact
    · rename_i run hrun
      exact h.taskAct hok hrun hact
    · exact absurd hact (by simp)

theorem start : Agent.start.Books := by
  refine ⟨?_, ?_, ?_, ?_⟩
  · intro i run hi
    exact absurd hi (by simp [Agent.start])
  · intro b i hl
    exact absurd hl (by simp [Agent.start])
  · intro i frame hmem
    exact absurd hmem (by simp [Agent.start])
  · intro i frame hmem
    exact absurd hmem (by simp [Agent.start])

theorem perBuild (h : s.Books) : s.PerBuild :=
  ⟨fun i run hi => (h.ok i run hi).counted, h.killed, fun i run hi => (h.ok i run hi).delivered⟩

end Agent.Books

/-! ## Every build comes to an end -/

/-- The run has reported. -/
def Agent.Reported (s : Agent) (i : ℕ) : Prop :=
  ∃ run, s.runs[i]? = some run ∧ run.pc.hasReported = true

/-- A task goes on by itself, and the others stay where they are. -/
structure Agent.Alone (s s' : Agent) (i : ℕ) : Prop where
  runs : Runs Agent.act LeavesNewer s s'
  length : s'.runs.length = s.runs.length
  others : ∀ j, j ≠ i → s'.runs[j]? = s.runs[j]?

theorem Agent.Alone.trans {s s₁ s₂ : Agent} {i : ℕ} (h : s.Alone s₁ i) (h' : s₁.Alone s₂ i) :
    s.Alone s₂ i :=
  ⟨h.runs.trans h'.runs, h'.length.trans h.length,
    fun j hj => (h'.others j hj).trans (h.others j hj)⟩

/-- One step of a task that sets its place and may log something. -/
theorem Agent.Alone.single {s s' : Agent} {i : ℕ} {t : TaskAct} {run : BuildRun} {pc : RunPc}
    (hrun : s.runs[i]? = some run) (ht : t ≠ .cleanup) (hact : s.taskAct i run t = some s')
    (hruns : s'.runs = (s.setPc i pc).runs) : s.Alone s' i ∧ ∃ run', s'.runs[i]? = some run' ∧
      run'.pc = pc := by
  have hstep : s.act (.task i t) = some s' := by
    rw [Agent.act, hrun]
    exact hact
  have hok : LeavesNewer s (.task i t) := by
    cases t with
    | cleanup => exact absurd rfl ht
    | spawn | spawnFail | exit | abort | report => trivial
  refine ⟨⟨.step .refl hok hstep, ?_, fun j hj => ?_⟩, { run with pc := pc }, ?_, rfl⟩
  · rw [hruns]
    exact List.length_modify ..
  · rw [hruns, Agent.setPc, Agent.getElem?_setRun]
    cases s.runs[j]? with
    | none => rfl
    | some old => exact congrArg some (if_neg (Ne.symm hj))
  · rw [hruns, Agent.setPc, Agent.getElem?_setRun, hrun]
    exact congrArg some (if_pos rfl)

theorem Agent.alone_of_finishing {s : Agent} {i : ℕ} {run : BuildRun} {frame : BuildFinished}
    (hrun : s.runs[i]? = some run) (hpc : run.pc = .finishing frame) :
    ∃ s', s.Alone s' i ∧ s'.Reported i := by
  have hact : s.taskAct i run .report =
      some ((s.setPc i .reported).happen (.finished i frame)) := by
    rw [Agent.taskAct, hpc]
  have hruns : ((s.setPc i .reported).happen (.finished i frame)).runs =
      (s.setPc i .reported).runs := rfl
  obtain ⟨halone, run', hrun', hpc'⟩ := Alone.single hrun (by simp) hact hruns
  exact ⟨_, halone, run', hrun', by rw [hpc']; rfl⟩

theorem Agent.alone_of_exiting {s : Agent} {i : ℕ} {run : BuildRun}
    (hrun : s.runs[i]? = some run) (hpc : run.pc = .selecting ∨ run.pc = .killing) :
    ∃ s', s.Alone s' i ∧ s'.Reported i := by
  have hact : ∃ frame, s.taskAct i run (.exit .err [] false) =
      some (s.setPc i (.finishing frame)) := by
    rcases hpc with hpc | hpc
    · exact ⟨_, by rw [Agent.taskAct, hpc]⟩
    · exact ⟨_, by rw [Agent.taskAct, hpc]⟩
  obtain ⟨frame, hact⟩ := hact
  obtain ⟨halone, run', hrun', hpc'⟩ := Alone.single hrun (by simp) hact rfl
  obtain ⟨s', halone', hrep⟩ := Agent.alone_of_finishing hrun' hpc'
  exact ⟨s', halone.trans halone', hrep⟩

/-- **A build whose child exits reports**, whatever else goes on. -/
theorem Agent.exists_alone {s : Agent} {i : ℕ} (hi : i < s.runs.length) :
    ∃ s', s.Alone s' i ∧ s'.Reported i := by
  have hrun : s.runs[i]? = some s.runs[i] := List.getElem?_eq_getElem hi
  cases hpc : s.runs[i].pc with
  | preparing =>
    have hact : s.taskAct i s.runs[i] .spawn = some (s.setPc i .selecting) := by
      rw [Agent.taskAct, if_pos hpc]
    obtain ⟨halone, run', hrun', hpc'⟩ := Alone.single hrun (by simp) hact rfl
    obtain ⟨s', halone', hrep⟩ := Agent.alone_of_exiting hrun' (.inl hpc')
    exact ⟨s', halone.trans halone', hrep⟩
  | selecting => exact Agent.alone_of_exiting hrun (.inl hpc)
  | killing => exact Agent.alone_of_exiting hrun (.inr hpc)
  | finishing frame => exact Agent.alone_of_finishing hrun hpc
  | reported | done =>
    exact ⟨s, ⟨.refl, rfl, fun _ _ => rfl⟩, s.runs[i], hrun, by rw [hpc]; rfl⟩

/-- The builds up to `n` report, one after the other. -/
theorem Agent.exists_all_reported (s : Agent) (n : ℕ) (hn : n ≤ s.runs.length) :
    ∃ s', Runs Agent.act LeavesNewer s s' ∧ s'.runs.length = s.runs.length ∧
      ∀ i < n, s'.Reported i := by
  induction n with
  | zero => exact ⟨s, .refl, rfl, fun i hi => absurd hi (by omega)⟩
  | succ n ih =>
    obtain ⟨s₁, hruns, hlen, hrep⟩ := ih (by omega)
    obtain ⟨s₂, halone, hlast⟩ := Agent.exists_alone (s := s₁) (i := n) (by omega)
    refine ⟨s₂, hruns.trans halone.runs, halone.length.trans hlen, fun i hi => ?_⟩
    by_cases hin : i = n
    · subst hin
      exact hlast
    · obtain ⟨run, hrun, hr⟩ := hrep i (by omega)
      exact ⟨run, (halone.others i hin).trans hrun, hr⟩

/-- **The bookkeeping is per build in every run in which no task finds the sender of a newer run
    that is still running.** And every such run can go on until each `Build` has its one
    `BuildFinished`. -/
theorem Agent.perBuild_of_run {s : Agent} (h : Runs Agent.act LeavesNewer Agent.start s) :
    s.PerBuild ∧ ∃ s', Runs Agent.act LeavesNewer s s' ∧ s'.runs.length = s.runs.length ∧
      ∀ i run, s'.runs[i]? = some run →
        s'.log.countP (Event.isFinishedOf i run.buildId) = 1 := by
  have hbooks : s.Books := h.invariant Books.start fun hb hok hact => hb.act hok hact
  refine ⟨hbooks.perBuild, ?_⟩
  obtain ⟨s', hruns, hlen, hrep⟩ := s.exists_all_reported s.runs.length (Nat.le_refl _)
  have hbooks' : s'.Books := hruns.invariant hbooks fun hb hok hact => hb.act hok hact
  refine ⟨s', hruns, hlen, fun i run hrun => ?_⟩
  obtain ⟨run', hrun', hr⟩ := hrep i (hlen ▸ (List.getElem?_eq_some_iff.mp hrun).1)
  obtain rfl := Option.some.inj (hrun.symm.trans hrun')
  rw [(hbooks'.ok i run hrun).counted, if_pos hr]

/-! ## Two runs of one id -/

instance (s : Agent) (a : Action) : Decidable (LeavesNewer s a) :=
  match a with
  | .task i .cleanup => inferInstanceAs (Decidable (∀ run ∈ s.runs[i]?,
      ∀ j ∈ s.inFlight.lookup run.buildId, j ≠ i → ∀ newer ∈ s.runs[j]?,
        newer.pc.isRunning = false))
  | .task _ .spawn | .task _ .spawnFail | .task _ (.exit ..) | .task _ .abort | .task _ .report
  | .build _ | .abort _ | .teardown => isTrue trivial

/-- The child of run `i` exits with success and the task reports it. -/
def buildsOk (i : ℕ) : List Action :=
  [.task i .spawn, .task i (.exit (.exited true (some 0)) [] false), .task i .report]

/-- Build 7 runs, is cleaned up, runs again and is aborted. -/
def againAndAborted : List Action :=
  Action.build 7 :: buildsOk 0 ++ [Action.task 0 .cleanup, .build 7, .task 1 .spawn, .abort 7, .task 1 .abort,
    .task 1 (.exit (.exited false none) [] false), .task 1 .report]

theorem Agent.perBuild_of_run_aborted : ∃ s,
    script Agent.act LeavesNewer Agent.start againAndAborted = some s ∧
      .finished 1 ⟨7, .killed, none, [], false⟩ ∈ s.log ∧ s.PerBuild := by
  have hscript : (script Agent.act LeavesNewer Agent.start againAndAborted).any (fun s =>
      decide (.finished 1 ⟨7, .killed, none, [], false⟩ ∈ s.log)) = true := by decide
  obtain ⟨s, hs, hmem⟩ := (Option.any_eq_true _ _).mp hscript
  exact ⟨s, hs, of_decide_eq_true hmem, (Agent.perBuild_of_run (.of_script hs)).1⟩

/-- Build 7 runs again before its first task has removed the entry. Then it does. -/
def againAndLate : List Action :=
  Action.build 7 :: buildsOk 0 ++ [Action.build 7, .task 1 .spawn, .task 0 .cleanup, .task 1 .abort,
    .task 1 (.exit (.exited false none) [] false), .task 1 .report]

theorem Agent.not_perBuild_late :
    ¬ ∀ s, Runs Agent.act Always Agent.start s → s.PerBuild := by
  intro h
  have hscript : (script Agent.act Always Agent.start againAndLate).any (fun s =>
      decide (.finished 1 ⟨7, .killed, none, [], false⟩ ∈ s.log ∧
        (s.runs[1]?.map fun run => run.buildId) = some 7 ∧ .abort 7 ∉ s.log ∧
        .teardown ∉ s.log)) = true := by decide
  obtain ⟨s, hs, hall⟩ := (Option.any_eq_true _ _).mp hscript
  obtain ⟨hmem, hid, habort, hteardown⟩ := of_decide_eq_true hall
  obtain ⟨run, hrun, hcaused⟩ := (h s (.of_script hs)).killed 1 _ hmem rfl
  rw [hrun] at hid
  have hseven : run.buildId = 7 := Option.some.inj hid
  rcases hcaused with hc | hc
  · exact habort (hseven ▸ List.mem_of_mem_drop hc)
  · exact hteardown hc

end Argunix.Builder
