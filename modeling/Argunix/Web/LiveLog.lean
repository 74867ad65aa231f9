import Mathlib.Data.List.Induction
import Argunix.Lib.Broadcast
import Argunix.Lib.Runs
import Argunix.Nom.Parser

/-!
# `argunix-web::live_log`: watching a build

The worker of a build opens a `LiveLog` under the build's id, pushes the events of the log into it
and closes it. Someone who opens the page meanwhile is shown the last events so far and then every
new one. There may be many builds and many viewers, a build may be tried again under the same id,
and all of this runs at once: `LogWorld.step` is one lock-protected call, or one turn of the task
that serves a viewer.

The entry of the registry, the worker and the request that has just looked the log up hold the log
between them; the senders are gone when the last of them lets go. Nobody can pick it up again then
(`LogWorld.released_step`), and this is why `end` is final.

**A viewer is told the truth** (`faithful_of_run`): the catch-up is the end of what had been pushed
when it subscribed, what follows is an account of everything after that, and once it has been sent
`end` the account is of the whole rest. A viewer that came in time and kept up has seen every event
of the build, once and in order (`shown_whole`).
-/

set_option autoImplicit false

namespace Argunix.Web

open Argunix.Lib Argunix.Nom

/-- How many events a viewer may be behind. -/
def BROADCAST_CAPACITY : ℕ := 256

/-- Cap on the catch-up buffer that a late subscriber replays. -/
def MAX_BUFFERED_EVENTS : ℕ := 2000

/-- The senders are gone when nobody holds the log any more, which is not written here but
    follows from the world (`LogWorld.released`). -/
structure LiveLog where
  buf : List NomEvent
  tx : Broadcast NomEvent
deriving DecidableEq

namespace LiveLog

/-- `LiveLog::new` -/
def new : LiveLog := ⟨[], Broadcast.new⟩

/-- A `send` without subscribers is not kept by the channel. No cursor can tell: the next
    subscriber starts behind it. -/
def push (log : LiveLog) (event : NomEvent) : LiveLog :=
  ⟨pushRing MAX_BUFFERED_EVENTS log.buf event, log.tx.send event⟩

/-- The buffered tail, and a cursor. -/
def subscribe (log : LiveLog) : List NomEvent × ℕ := (log.buf, log.tx.sent.length)

end LiveLog

/-- What goes out on the stream of `job_log_stream`. -/
inductive SseEvent
  | nom (event : NomEvent)
  /-- `dropped {n} events` -/
  | lag (n : ℕ)
  | done
deriving DecidableEq

/-- What a viewer is sent for what it receives. -/
def SseEvent.of : Broadcast.Told NomEvent → SseEvent
  | .value event => nom event
  | .missed n => lag n

/-! ## Workers and viewers -/

/-- `dispatch_pool_build`, as far as it holds the log. -/
structure LogWorker where
  buildId : ℤ
  log : ℕ
  /-- `live_log` has not been dropped. -/
  holds : Bool
  /-- `LiveLogGuard` has not been dropped. -/
  guarded : Bool
deriving DecidableEq

/-- Where a viewer stands. -/
inductive ViewerPc
  /-- `get` has answered. -/
  | found
  /-- These events of the catch-up are still to be sent. -/
  | replaying (rest : List NomEvent)
  | streaming
  | ended
  /-- The client has hung up. -/
  | gone
deriving DecidableEq

/-- A viewer of one log. `initial` and `start` are what `subscribe` gave it. -/
structure Viewer where
  log : ℕ
  /-- The handler has not returned: it still holds the log. -/
  holds : Bool
  pc : ViewerPc
  initial : List NomEvent
  start : ℕ
  next : ℕ
  out : List SseEvent
deriving DecidableEq

/-- The logs by address, and who uses them. -/
structure LogWorld where
  logs : List LiveLog
  entries : HashMap ℤ ℕ
  workers : List LogWorker
  viewers : List Viewer

namespace LogWorld

/-- Nobody builds and nobody looks. -/
def new : LogWorld := ⟨[], ∅, [], []⟩

/-- The last `Arc` of the log is gone, and its sender with it. -/
def released (w : LogWorld) (log : ℕ) : Bool :=
  w.entries.entries.all (fun e => decide (e.2 ≠ log)) &&
    w.workers.all (fun k => !(k.holds && k.log = log)) &&
    w.viewers.all fun v => !(v.holds && v.log = log)

/-- What can happen to the live logs. -/
inductive Act
  /-- `LiveLogRegistry::open` -/
  | openLog (buildId : ℤ)
  | push (worker : ℕ) (event : NomEvent)
  | drop (worker : ℕ)
  /-- The guard is dropped: `LiveLogRegistry::close`. -/
  | close (worker : ℕ)
  /-- `LiveLogRegistry::get` for a new viewer. -/
  | get (buildId : ℤ)
  | subscribe (viewer : ℕ)
  /-- The handler returns. -/
  | respond (viewer : ℕ)
  /-- A turn of the viewer's task. -/
  | turn (viewer : ℕ)
  | hangUp (viewer : ℕ)

/-- What becomes of a worker. -/
def setWorker (w : LogWorld) (i : ℕ) (k : LogWorker) : LogWorld :=
  { w with workers := w.workers.set i k }

/-- What becomes of a viewer. -/
def setViewer (w : LogWorld) (i : ℕ) (v : Viewer) : LogWorld :=
  { w with viewers := w.viewers.set i v }

/-- The viewer's task sends one event of the catch-up, or receives from the channel. -/
def serve (tx : Broadcast NomEvent) (v : Viewer) : Option Viewer :=
  match v.pc with
  | .replaying (event :: rest) =>
    some { v with pc := .replaying rest, out := v.out ++ [.nom event] }
  | .replaying [] => some { v with pc := .streaming }
  | .streaming =>
    match tx.recv BROADCAST_CAPACITY v.next with
    | (.told t, next) => some { v with next := next, out := v.out ++ [.of t] }
    | (.closed, _) => some { v with pc := .ended, out := v.out ++ [.done] }
    | (.pending, _) => none
  | .found | .ended | .gone => none

/-- `none` when the step is not there to be taken. -/
def step (w : LogWorld) : Act → Option LogWorld
  | .openLog buildId =>
    match w.entries.lookup buildId with
    | some log => some { w with workers := w.workers ++ [⟨buildId, log, true, true⟩] }
    | none => some { w with
        logs := w.logs ++ [.new]
        entries := w.entries.insert buildId w.logs.length
        workers := w.workers ++ [⟨buildId, w.logs.length, true, true⟩] }
  | .push i event => do
    let k ← w.workers[i]?
    if k.holds then some { w with logs := w.logs.modify k.log (·.push event) } else none
  | .drop i => do
    let k ← w.workers[i]?
    if k.holds then some (w.setWorker i { k with holds := false }) else none
  | .close i => do
    let k ← w.workers[i]?
    if k.guarded then
      some { w.setWorker i { k with guarded := false } with entries := w.entries.erase k.buildId }
    else none
  | .get buildId => do
    let log ← w.entries.lookup buildId
    some { w with viewers := w.viewers ++ [⟨log, true, .found, [], 0, 0, []⟩] }
  | .subscribe i => do
    let v ← w.viewers[i]?
    let log ← w.logs[v.log]?
    if v.pc = .found then
      let (initial, next) := log.subscribe
      some (w.setViewer i
        { v with pc := .replaying initial, initial := initial, start := next, next := next })
    else none
  | .respond i => do
    let v ← w.viewers[i]?
    if v.holds ∧ v.pc ≠ .found then some (w.setViewer i { v with holds := false }) else none
  | .turn i => do
    let v ← w.viewers[i]?
    let log ← w.logs[v.log]?
    let v' ← serve { log.tx with closed := w.released v.log } v
    some (w.setViewer i v')
  | .hangUp i => do
    let v ← w.viewers[i]?
    if v.pc ≠ .found ∧ v.pc ≠ .ended then some (w.setViewer i { v with pc := .gone }) else none

/-! ## What a step can do -/

/-- **Inversion of `step`.** -/
inductive Moves (w : LogWorld) : LogWorld → Prop
  | reopened {b : ℤ} {log : ℕ} : w.entries.lookup b = some log →
      Moves w { w with workers := w.workers ++ [⟨b, log, true, true⟩] }
  | opened {b : ℤ} : w.entries.lookup b = none →
      Moves w { w with
        logs := w.logs ++ [.new]
        entries := w.entries.insert b w.logs.length
        workers := w.workers ++ [⟨b, w.logs.length, true, true⟩] }
  | pushed {i : ℕ} {k : LogWorker} (event : NomEvent) : w.workers[i]? = some k →
      k.holds = true → Moves w { w with logs := w.logs.modify k.log (·.push event) }
  | dropped {i : ℕ} {k : LogWorker} : w.workers[i]? = some k →
      Moves w (w.setWorker i { k with holds := false })
  | closed {i : ℕ} {k : LogWorker} : w.workers[i]? = some k →
      Moves w { w.setWorker i { k with guarded := false } with
        entries := w.entries.erase k.buildId }
  | got {b : ℤ} {log : ℕ} : w.entries.lookup b = some log →
      Moves w { w with viewers := w.viewers ++ [⟨log, true, .found, [], 0, 0, []⟩] }
  | subscribed {i : ℕ} {v : Viewer} {log : LiveLog} : w.viewers[i]? = some v →
      w.logs[v.log]? = some log → v.pc = .found →
      Moves w (w.setViewer i { v with
        pc := .replaying log.buf, initial := log.buf, start := log.tx.sent.length,
        next := log.tx.sent.length })
  | responded {i : ℕ} {v : Viewer} : w.viewers[i]? = some v → v.pc ≠ .found →
      Moves w (w.setViewer i { v with holds := false })
  | turned {i : ℕ} {v v' : Viewer} {log : LiveLog} : w.viewers[i]? = some v →
      w.logs[v.log]? = some log →
      serve { log.tx with closed := w.released v.log } v = some v' →
      Moves w (w.setViewer i v')
  | hungUp {i : ℕ} {v : Viewer} : w.viewers[i]? = some v → v.pc ≠ .found → v.pc ≠ .ended →
      Moves w (w.setViewer i { v with pc := .gone })

theorem step_moves {w w' : LogWorld} {a : Act} (h : w.step a = some w') : w.Moves w' := by
  cases a with
  | openLog b =>
    simp only [step] at h
    split at h
    · rename_i log hlog
      obtain rfl := Option.some.inj h
      exact .reopened hlog
    · rename_i hnone
      obtain rfl := Option.some.inj h
      exact .opened hnone
  | push i event =>
    simp only [step, Option.bind_eq_bind, Option.bind_eq_some_iff] at h
    obtain ⟨k, hk, h⟩ := h
    split at h
    · rename_i hholds
      obtain rfl := Option.some.inj h
      exact .pushed event hk hholds
    · cases h
  | drop i =>
    simp only [step, Option.bind_eq_bind, Option.bind_eq_some_iff] at h
    obtain ⟨k, hk, h⟩ := h
    split at h
    · obtain rfl := Option.some.inj h
      exact .dropped hk
    · cases h
  | close i =>
    simp only [step, Option.bind_eq_bind, Option.bind_eq_some_iff] at h
    obtain ⟨k, hk, h⟩ := h
    split at h
    · obtain rfl := Option.some.inj h
      exact .closed hk
    · cases h
  | get b =>
    simp only [step, Option.bind_eq_bind, Option.bind_eq_some_iff, Option.some.injEq] at h
    obtain ⟨log, hlog, rfl⟩ := h
    exact .got hlog
  | subscribe i =>
    simp only [step, Option.bind_eq_bind, Option.bind_eq_some_iff] at h
    obtain ⟨v, hv, log, hlog, h⟩ := h
    split at h
    · rename_i hpc
      obtain rfl := Option.some.inj h
      exact .subscribed hv hlog hpc
    · cases h
  | respond i =>
    simp only [step, Option.bind_eq_bind, Option.bind_eq_some_iff] at h
    obtain ⟨v, hv, h⟩ := h
    split at h
    · rename_i hpc
      obtain rfl := Option.some.inj h
      exact .responded hv hpc.2
    · cases h
  | turn i =>
    simp only [step, Option.bind_eq_bind, Option.bind_eq_some_iff, Option.some.injEq] at h
    obtain ⟨v, hv, log, hlog, v', hserve, rfl⟩ := h
    exact .turned hv hlog hserve
  | hangUp i =>
    simp only [step, Option.bind_eq_bind, Option.bind_eq_some_iff] at h
    obtain ⟨v, hv, h⟩ := h
    split at h
    · rename_i hpc
      obtain rfl := Option.some.inj h
      exact .hungUp hv hpc.1 hpc.2
    · cases h

/-- What a turn of the task does. -/
theorem serve_cases {tx : Broadcast NomEvent} {v v' : Viewer} (h : serve tx v = some v') :
    (∃ event rest, v.pc = .replaying (event :: rest) ∧
      v' = { v with pc := .replaying rest, out := v.out ++ [.nom event] }) ∨
    (v.pc = .replaying [] ∧ v' = { v with pc := .streaming }) ∨
    (v.pc = .streaming ∧
      ((∃ t next, tx.recv BROADCAST_CAPACITY v.next = (.told t, next) ∧
        v' = { v with next := next, out := v.out ++ [.of t] }) ∨
      ∃ next, tx.recv BROADCAST_CAPACITY v.next = (.closed, next) ∧
        v' = { v with pc := .ended, out := v.out ++ [.done] })) := by
  unfold serve at h
  split at h
  · rename_i event rest hpc
    exact Or.inl ⟨event, rest, hpc, (Option.some.inj h).symm⟩
  · rename_i hpc
    exact Or.inr (Or.inl ⟨hpc, (Option.some.inj h).symm⟩)
  · rename_i hpc
    refine Or.inr (Or.inr ⟨hpc, ?_⟩)
    split at h
    · rename_i t next hrecv
      exact Or.inl ⟨t, next, hrecv, (Option.some.inj h).symm⟩
    · rename_i next hrecv
      exact Or.inr ⟨next, hrecv, (Option.some.inj h).symm⟩
    · cases h
  all_goals cases h

theorem serve_same {tx : Broadcast NomEvent} {v v' : Viewer} (h : serve tx v = some v') :
    v'.log = v.log ∧ v'.holds = v.holds := by
  rcases serve_cases h with ⟨_, _, -, rfl⟩ | ⟨-, rfl⟩ | ⟨-, ⟨_, _, -, rfl⟩ | ⟨_, -, rfl⟩⟩ <;>
    exact ⟨rfl, rfl⟩

/-! ## Who holds a log -/

/-- Somebody can still push into the log or look it up. -/
def Held (w : LogWorld) (log : ℕ) : Prop :=
  (∃ b, w.entries.lookup b = some log) ∨ (∃ k ∈ w.workers, k.holds = true ∧ k.log = log) ∨
    ∃ v ∈ w.viewers, v.holds = true ∧ v.log = log

theorem released_iff {w : LogWorld} {log : ℕ} : w.released log = true ↔ ¬ w.Held log := by
  unfold released Held
  simp only [Bool.and_eq_true, List.all_eq_true, decide_eq_true_eq, Bool.not_eq_true',
    Bool.and_eq_false_iff, decide_eq_false_iff_not, not_or, not_exists, not_and]
  constructor
  · rintro ⟨⟨he, hk⟩, hv⟩
    refine ⟨fun b hb => he ⟨b, log⟩ (HashMap.mem_entries_iff.mpr hb) rfl, fun k hmem hh => ?_,
      fun v hmem hh => ?_⟩
    · exact (hk k hmem).resolve_left (by rw [hh]; simp)
    · exact (hv v hmem).resolve_left (by rw [hh]; simp)
  · rintro ⟨he, hk, hv⟩
    refine ⟨⟨?_, fun k hmem => ?_⟩, fun v hmem => ?_⟩
    · rintro ⟨b, l⟩ hmem hl
      exact he b (hl ▸ HashMap.mem_entries_iff.mp hmem)
    · cases hh : k.holds with
      | false => exact Or.inl rfl
      | true => exact Or.inr (hk k hmem hh)
    · cases hh : v.holds with
      | false => exact Or.inl rfl
      | true => exact Or.inr (hv v hmem hh)

/-- A worker that is replaced by one that holds no more. -/
theorem held_setWorker {w : LogWorld} {i : ℕ} {k k' : LogWorker} {log : ℕ}
    (hk : w.workers[i]? = some k) (h : (w.setWorker i k').Held log)
    (hholds : k'.holds = true → k.holds = true) (hlog : k'.log = k.log) : w.Held log := by
  rcases h with he | ⟨k'', hmem, hh, hl⟩ | hv
  · exact Or.inl he
  · rcases List.mem_or_eq_of_mem_set hmem with hold | rfl
    · exact Or.inr (Or.inl ⟨k'', hold, hh, hl⟩)
    · exact Or.inr (Or.inl ⟨k, List.mem_of_getElem? hk, hholds hh, hlog ▸ hl⟩)
  · exact Or.inr (Or.inr hv)

theorem held_setViewer {w : LogWorld} {i : ℕ} {v v' : Viewer} {log : ℕ}
    (hv : w.viewers[i]? = some v) (h : (w.setViewer i v').Held log)
    (hholds : v'.holds = true → v.holds = true) (hlog : v'.log = v.log) : w.Held log := by
  rcases h with he | hk | ⟨v'', hmem, hh, hl⟩
  · exact Or.inl he
  · exact Or.inr (Or.inl hk)
  · rcases List.mem_or_eq_of_mem_set hmem with hold | rfl
    · exact Or.inr (Or.inr ⟨v'', hold, hh, hl⟩)
    · exact Or.inr (Or.inr ⟨v, List.mem_of_getElem? hv, hholds hh, hlog ▸ hl⟩)

/-- **Nobody picks a log up again.** Whoever holds a log after a step got it from someone who
    held it before. -/
theorem Moves.held {w w' : LogWorld} (h : w.Moves w') {log : ℕ} (hlog : log < w.logs.length)
    (hheld : w'.Held log) : w.Held log := by
  cases h with
  | @reopened b old hold =>
    rcases hheld with he | ⟨k, hmem, hh, hl⟩ | hv
    · exact Or.inl he
    · rcases List.mem_append.mp hmem with hmem | hnew
      · exact Or.inr (Or.inl ⟨k, hmem, hh, hl⟩)
      · obtain rfl := List.mem_singleton.mp hnew
        have heq : old = log := hl
        exact Or.inl ⟨b, heq ▸ hold⟩
    · exact Or.inr (Or.inr hv)
  | opened hnone =>
    have hne : w.logs.length ≠ log := by omega
    rcases hheld with ⟨b', he⟩ | ⟨k, hmem, hh, hl⟩ | hv
    · rw [HashMap.lookup_insert_eq] at he
      split at he
      · exact absurd (Option.some.inj he) hne
      · exact Or.inl ⟨b', he⟩
    · rcases List.mem_append.mp hmem with hmem | hnew
      · exact Or.inr (Or.inl ⟨k, hmem, hh, hl⟩)
      · obtain rfl := List.mem_singleton.mp hnew
        exact absurd hl hne
    · exact Or.inr (Or.inr hv)
  | pushed event hk hholds => exact hheld
  | @dropped i k hk =>
    have hnot : false = true → k.holds = true := fun hfalse => Bool.noConfusion hfalse
    exact held_setWorker hk hheld hnot rfl
  | @closed i k hk =>
    have hpart : (w.setWorker i { k with guarded := false }).Held log := by
      rcases hheld with ⟨b', he⟩ | hrest
      · rw [HashMap.lookup_erase_eq] at he
        split at he
        · cases he
        · exact Or.inl ⟨b', he⟩
      · exact Or.inr hrest
    exact held_setWorker hk hpart (fun hh => hh) rfl
  | @got b l hl =>
    rcases hheld with he | hk | ⟨v, hmem, hh, hv⟩
    · exact Or.inl he
    · exact Or.inr (Or.inl hk)
    · rcases List.mem_append.mp hmem with hmem | hnew
      · exact Or.inr (Or.inr ⟨v, hmem, hh, hv⟩)
      · obtain rfl := List.mem_singleton.mp hnew
        have heq : l = log := hv
        exact Or.inl ⟨b, heq ▸ hl⟩
  | @subscribed i v l hv hl hpc => exact held_setViewer hv hheld (fun hh => hh) rfl
  | @responded i v hv hpc =>
    have hnot : false = true → v.holds = true := fun hfalse => Bool.noConfusion hfalse
    exact held_setViewer hv hheld hnot rfl
  | turned hv hl hserve =>
    obtain ⟨hsame, hholds⟩ := serve_same hserve
    exact held_setViewer hv hheld (fun hh => hholds ▸ hh) hsame
  | hungUp hv hpc hend => exact held_setViewer hv hheld (fun hh => hh) rfl

/-- **A log only grows**, and only while somebody holds it. -/
theorem Moves.grown {w w' : LogWorld} (h : w.Moves w') {l : ℕ} {log : LiveLog}
    (hl : w.logs[l]? = some log) :
    w'.logs[l]? = some log ∨
      ∃ event, w'.logs[l]? = some (log.push event) ∧ w.Held l := by
  cases h with
  | opened hnone =>
    have hlt : l < w.logs.length := (List.getElem?_eq_some_iff.mp hl).1
    exact Or.inl (by rw [List.getElem?_append_left hlt]; exact hl)
  | @pushed i k event hk hholds =>
    by_cases hkl : k.log = l
    · refine Or.inr ⟨event, ?_, Or.inr (Or.inl ⟨k, List.mem_of_getElem? hk, hholds, hkl⟩)⟩
      show (w.logs.modify k.log (·.push event))[l]? = _
      rw [List.getElem?_modify, hl]
      simp only [if_pos hkl]
      rfl
    · refine Or.inl ?_
      show (w.logs.modify k.log (·.push event))[l]? = _
      rw [List.getElem?_modify, hl]
      simp only [if_neg hkl]
      rfl
  | reopened _ | dropped _ | closed _ | got _ | subscribed _ _ _ | responded _ _ | turned _ _ _
  | hungUp _ _ _ => exact Or.inl hl

end LogWorld

/-! ## What a viewer has been shown -/

/-- The last frame of a stream that has ended. -/
def Viewer.farewell (v : Viewer) : List SseEvent := if v.pc = .ended then [.done] else []

/-- The viewer has been sent `shown` of the catch-up, with `rest` still to come, and then the
    account `ts` of the channel. -/
structure Viewer.Shown (v : Viewer) (tx : Broadcast NomEvent) (shown rest : List NomEvent)
    (ts : List (Broadcast.Told NomEvent)) : Prop where
  out : v.out = shown.map .nom ++ ts.map .of ++ v.farewell
  initial : v.initial = shown ++ rest
  caughtUp : v.pc ≠ .found → v.initial = (tx.sent.take v.start).rtake MAX_BUFFERED_EVENTS
  inOrder : rest = [] ∨ ts = []
  accounts : tx.Accounts v.start v.next ts
  found : v.pc = .found → v.out = []
  replaying : ∀ r, v.pc = .replaying r → r = rest ∧ ts = []
  replayed : v.pc = .streaming ∨ v.pc = .ended → rest = []
  whole : v.pc = .ended → v.next = tx.sent.length

namespace Viewer.Shown

variable {v v' : Viewer} {tx : Broadcast NomEvent} {shown rest : List NomEvent}
  {ts : List (Broadcast.Told NomEvent)}

/-- A viewer whose log has been looked up. -/
theorem new (tx : Broadcast NomEvent) (log : ℕ) :
    Shown ⟨log, true, .found, [], 0, 0, []⟩ tx [] [] [] where
  out := rfl
  initial := rfl
  caughtUp hne := absurd rfl hne
  inOrder := Or.inl rfl
  accounts := ⟨le_rfl, Nat.zero_le _, rfl⟩
  found _ := rfl
  replaying r hfalse := by cases hfalse
  replayed _ := rfl
  whole hfalse := by cases hfalse

/-- The worker pushes while the viewer is still being served. -/
theorem send (h : v.Shown tx shown rest ts) (hopen : v.pc ≠ .ended) (event : NomEvent) :
    v.Shown (tx.send event) shown rest ts where
  out := h.out
  initial := h.initial
  caughtUp hpc := by
    have hle : v.start ≤ tx.sent.length := le_trans h.accounts.start_le h.accounts.next_le
    show v.initial = ((tx.sent ++ [event]).take v.start).rtake _
    rw [List.take_append_of_le_length hle]
    exact h.caughtUp hpc
  inOrder := h.inOrder
  accounts := h.accounts.send event
  found := h.found
  replaying := h.replaying
  replayed := h.replayed
  whole hpc := absurd hpc hopen

/-- Subscribing to a log whose buffer is the end of its history. -/
theorem subscribe {log : LiveLog} (h : v.Shown log.tx shown rest ts) (hpc : v.pc = .found)
    (hbuf : log.buf = log.tx.sent.rtake MAX_BUFFERED_EVENTS) :
    Shown { v with
      pc := .replaying log.buf, initial := log.buf, start := log.tx.sent.length,
      next := log.tx.sent.length } log.tx [] log.buf [] where
  out := h.found hpc
  initial := rfl
  caughtUp _ := by
    show log.buf = (log.tx.sent.take log.tx.sent.length).rtake _
    rw [List.take_length, hbuf]
  inOrder := Or.inr rfl
  accounts := .subscribe log.tx
  found hfalse := by cases hfalse
  replaying r hr := by
    injection hr with hr
    exact ⟨hr.symm, rfl⟩
  replayed hor := by rcases hor with hfalse | hfalse <;> cases hfalse
  whole hfalse := by cases hfalse

theorem hangUp (h : v.Shown tx shown rest ts) (hend : v.pc ≠ .ended) (hpc : v.pc ≠ .found) :
    Shown { v with pc := .gone } tx shown rest ts where
  out := by
    have hnone : v.farewell = [] := if_neg hend
    show v.out = _ ++ []
    rw [← hnone]
    exact h.out
  initial := h.initial
  caughtUp _ := h.caughtUp hpc
  inOrder := h.inOrder
  accounts := h.accounts
  found hfalse := by cases hfalse
  replaying r hfalse := by cases hfalse
  replayed hor := by rcases hor with hfalse | hfalse <;> cases hfalse
  whole hfalse := by cases hfalse

/-- **A turn of the task keeps the account.** The channel is closed for the viewer if nobody
    holds the log. -/
theorem serve {closed : Bool} (h : v.Shown tx shown rest ts)
    (hs : LogWorld.serve { tx with closed := closed } v = some v') :
    (∃ shown' rest' ts', v'.Shown tx shown' rest' ts') ∧ (v'.pc = .ended → closed = true) := by
  rcases LogWorld.serve_cases hs with ⟨event, r, hpc, rfl⟩ | ⟨hpc, rfl⟩ |
    ⟨hpc, ⟨t, next, hrecv, rfl⟩ | ⟨next, hrecv, rfl⟩⟩
  · obtain ⟨hr, hts⟩ := h.replaying _ hpc
    have hfound : v.pc ≠ .found := by rw [hpc]; intro hfalse; cases hfalse
    have hnone : v.farewell = [] := if_neg (by rw [hpc]; intro hfalse; cases hfalse)
    subst hts
    refine ⟨⟨shown ++ [event], r, [], ?_, ?_, fun _ => h.caughtUp hfound, Or.inr rfl, h.accounts,
      ?_, ?_, ?_, ?_⟩, ?_⟩
    · show v.out ++ [.nom event] = _ ++ Viewer.farewell _
      rw [h.out, hnone]
      simp [Viewer.farewell]
    · show v.initial = _
      rw [h.initial, ← hr]
      simp
    · intro hfalse; cases hfalse
    · intro r' hr'
      injection hr' with hr'
      exact ⟨hr'.symm, rfl⟩
    · intro hor; rcases hor with hfalse | hfalse <;> cases hfalse
    · intro hfalse; cases hfalse
    · intro hfalse; cases hfalse
  · obtain ⟨hr, hts⟩ := h.replaying _ hpc
    have hfound : v.pc ≠ .found := by rw [hpc]; intro hfalse; cases hfalse
    have hnone : v.farewell = [] := if_neg (by rw [hpc]; intro hfalse; cases hfalse)
    refine ⟨⟨shown, rest, ts, ?_, h.initial, fun _ => h.caughtUp hfound, h.inOrder, h.accounts,
      ?_, ?_, fun _ => hr.symm, ?_⟩, ?_⟩
    · show v.out = _ ++ []
      rw [← hnone]
      exact h.out
    · intro hfalse; cases hfalse
    · intro r' hfalse; cases hfalse
    · intro hfalse; cases hfalse
    · intro hfalse; cases hfalse
  · have hrest : rest = [] := h.replayed (Or.inl hpc)
    have hfound : v.pc ≠ .found := by rw [hpc]; intro hfalse; cases hfalse
    have hend : v.pc ≠ .ended := by rw [hpc]; intro hfalse; cases hfalse
    have hnone : v.farewell = [] := if_neg hend
    -- whether the channel is closed makes no difference to the account
    have hclosed : ({ tx with closed := closed } : Broadcast _).Accounts _ _ ts :=
      h.accounts.of_sent_eq rfl
    have hacc := hclosed.recv BROADCAST_CAPACITY
    rw [hrecv] at hacc
    refine ⟨⟨shown, rest, ts ++ [t], ?_, h.initial, fun _ => h.caughtUp hfound, Or.inl hrest,
      hacc.of_sent_eq rfl, ?_, ?_, fun _ => hrest, ?_⟩, ?_⟩
    · have hnone' : Viewer.farewell { v with next := next, out := v.out ++ [.of t] } = [] :=
        if_neg hend
      rw [hnone']
      show v.out ++ [.of t] = _
      rw [h.out, hnone]
      simp
    · intro hfalse; exact absurd hfalse hfound
    · intro r' hfalse
      rw [show v.pc = _ from hfalse] at hpc
      cases hpc
    · intro hfalse; exact absurd hfalse hend
    · intro hfalse; exact absurd hfalse hend
  · have hrest : rest = [] := h.replayed (Or.inl hpc)
    have hfound : v.pc ≠ .found := by rw [hpc]; intro hfalse; cases hfalse
    have hnone : v.farewell = [] := if_neg (by rw [hpc]; intro hfalse; cases hfalse)
    obtain ⟨hclosed, -, hle⟩ := Broadcast.recv_eq_closed hrecv
    refine ⟨⟨shown, rest, ts, ?_, h.initial, fun _ => h.caughtUp hfound, h.inOrder, h.accounts,
      ?_, ?_, fun _ => hrest, fun _ => le_antisymm h.accounts.next_le hle⟩, fun _ => hclosed⟩
    · show v.out ++ [.done] = _ ++ [.done]
      rw [h.out, hnone, List.append_nil]
    · intro hfalse; cases hfalse
    · intro r' hfalse; cases hfalse

end Viewer.Shown

/-! ## Every state of a run -/

namespace LogWorld

/-- A viewer and the log it watches. -/
structure Watches (w : LogWorld) (v : Viewer) (log : LiveLog) : Prop where
  there : w.logs[v.log]? = some log
  shown : ∃ shown rest ts, v.Shown log.tx shown rest ts
  final : v.pc = .ended → ¬ w.Held v.log

/-- What holds between two steps. -/
structure Sound (w : LogWorld) : Prop where
  entries : ∀ b l, w.entries.lookup b = some l → l < w.logs.length
  buffers : ∀ (l : ℕ) (log : LiveLog), w.logs[l]? = some log →
    log.buf = log.tx.sent.rtake MAX_BUFFERED_EVENTS
  viewers : ∀ v ∈ w.viewers, ∃ log, w.Watches v log

theorem sound_new : Sound new where
  entries b l hl := absurd hl (by simp [new])
  buffers l log hl := absurd hl (by simp [new])
  viewers v hv := absurd hv (by simp [new])

/-- A viewer that the step leaves alone. -/
theorem Watches.moves {w w' : LogWorld} {v : Viewer} {log : LiveLog} (h : w.Watches v log)
    (hm : w.Moves w') : ∃ log', w'.Watches v log' := by
  have hlt : v.log < w.logs.length := (List.getElem?_eq_some_iff.mp h.there).1
  have hfinal : v.pc = .ended → ¬ w'.Held v.log := fun hpc hheld =>
    h.final hpc (hm.held hlt hheld)
  rcases hm.grown h.there with hlog | ⟨event, hlog, hheld⟩
  · exact ⟨log, hlog, h.shown, hfinal⟩
  · obtain ⟨shown, rest, ts, hshown⟩ := h.shown
    have hopen : v.pc ≠ .ended := fun hpc => h.final hpc hheld
    exact ⟨log.push event, hlog, ⟨shown, rest, ts, hshown.send hopen event⟩, hfinal⟩

/-- A viewer that the step has moved on, in a world whose logs it has not touched. -/
theorem Sound.setViewer {w : LogWorld} (h : Sound w) {i : ℕ} {v v' : Viewer} {log : LiveLog}
    (hm : w.Moves (w.setViewer i v')) (hlog : w.logs[v.log]? = some log) (hsame : v'.log = v.log)
    (hshown : ∃ shown rest ts, v'.Shown log.tx shown rest ts)
    (hfinal : v'.pc = .ended → ¬ (w.setViewer i v').Held v'.log) : Sound (w.setViewer i v') where
  entries := h.entries
  buffers := h.buffers
  viewers u hu := by
    rcases List.mem_or_eq_of_mem_set hu with hold | rfl
    · obtain ⟨log', hw⟩ := h.viewers u hold
      exact hw.moves hm
    · exact ⟨log, by rw [hsame]; exact hlog, hshown, hfinal⟩

theorem Sound.buffers_of_grown {w w' : LogWorld} (h : Sound w) (hm : w.Moves w')
    (hlen : w'.logs.length = w.logs.length) (l : ℕ) (log : LiveLog)
    (hl : w'.logs[l]? = some log) : log.buf = log.tx.sent.rtake MAX_BUFFERED_EVENTS := by
  have hlt : l < w.logs.length := hlen ▸ (List.getElem?_eq_some_iff.mp hl).1
  have hold : w.logs[l]? = some w.logs[l] := List.getElem?_eq_getElem hlt
  rcases hm.grown hold with hsame | ⟨event, hnew, -⟩
  · obtain rfl := Option.some.inj (hsame.symm.trans hl)
    exact h.buffers l _ hold
  · obtain rfl := Option.some.inj (hnew.symm.trans hl)
    show pushRing _ (w.logs[l]).buf event = ((w.logs[l]).tx.sent ++ [event]).rtake _
    rw [h.buffers l _ hold]
    exact pushRing_rtake (by decide) _ _

theorem Sound.moves {w w' : LogWorld} (h : Sound w) (hm : w.Moves w') : Sound w' := by
  have hviewers : ∀ v ∈ w.viewers, ∃ log, w'.Watches v log := fun v hv => by
    obtain ⟨log, hw⟩ := h.viewers v hv
    exact hw.moves hm
  cases hm with
  | reopened hold => exact ⟨h.entries, h.buffers, hviewers⟩
  | @opened b hnone =>
    refine ⟨fun b' l hl => ?_, fun l log hl => ?_, hviewers⟩
    · rw [List.length_append, List.length_singleton]
      rw [HashMap.lookup_insert_eq] at hl
      split at hl
      · obtain rfl := Option.some.inj hl
        exact Nat.lt_succ_self _
      · exact Nat.lt_succ_of_lt (h.entries b' l hl)
    · rcases lt_or_ge l w.logs.length with hlt | hge
      · rw [List.getElem?_append_left hlt] at hl
        exact h.buffers l log hl
      · rw [List.getElem?_append_right hge, List.getElem?_singleton] at hl
        split at hl
        · obtain rfl := Option.some.inj hl
          rfl
        · cases hl
  | @pushed i k event hk hholds =>
    have hm : w.Moves { w with logs := w.logs.modify k.log (·.push event) } :=
      .pushed event hk hholds
    have hlen : (w.logs.modify k.log (·.push event)).length = w.logs.length :=
      List.length_modify _ _ _
    refine ⟨fun b l hl => ?_, fun l log hl => h.buffers_of_grown hm hlen l log hl, hviewers⟩
    show l < (w.logs.modify k.log (·.push event)).length
    rw [hlen]
    exact h.entries b l hl
  | dropped hk => exact ⟨h.entries, h.buffers, hviewers⟩
  | closed hk =>
    refine ⟨fun b' l hl => ?_, h.buffers, hviewers⟩
    rw [HashMap.lookup_erase_eq] at hl
    split at hl
    · cases hl
    · exact h.entries b' l hl
  | @got b l hl =>
    refine ⟨h.entries, h.buffers, fun v hv => ?_⟩
    rcases List.mem_append.mp hv with hold | hnew
    · exact hviewers v hold
    · obtain rfl := List.mem_singleton.mp hnew
      have hlt := h.entries b l hl
      exact ⟨w.logs[l], List.getElem?_eq_getElem hlt, ⟨[], [], [], .new _ _⟩,
        fun hfalse => by cases hfalse⟩
  | @subscribed i v log hv hlog hpc =>
    obtain ⟨log', hw⟩ := h.viewers v (List.mem_of_getElem? hv)
    obtain rfl := Option.some.inj (hw.there.symm.trans hlog)
    obtain ⟨shown, rest, ts, hshown⟩ := hw.shown
    have hnew := hshown.subscribe hpc (h.buffers _ _ hlog)
    exact h.setViewer (.subscribed hv hlog hpc) hlog rfl ⟨_, _, _, hnew⟩
      fun hfalse => by cases hfalse
  | @responded i v hv hpc =>
    have hm : w.Moves (w.setViewer i { v with holds := false }) := .responded hv hpc
    obtain ⟨log, hw⟩ := h.viewers v (List.mem_of_getElem? hv)
    have hlt : v.log < w.logs.length := (List.getElem?_eq_some_iff.mp hw.there).1
    obtain ⟨shown, rest, ts, hs⟩ := hw.shown
    refine h.setViewer hm hw.there rfl ⟨shown, rest, ts, ?_⟩ fun hend hheld =>
      hw.final hend (hm.held hlt hheld)
    exact ⟨hs.out, hs.initial, hs.caughtUp, hs.inOrder, hs.accounts, hs.found, hs.replaying,
      hs.replayed, hs.whole⟩
  | @turned i v v' log hv hlog hserve =>
    have hm : w.Moves (w.setViewer i v') := .turned hv hlog hserve
    obtain ⟨log', hw⟩ := h.viewers v (List.mem_of_getElem? hv)
    obtain rfl := Option.some.inj (hw.there.symm.trans hlog)
    have hlt : v.log < w.logs.length := (List.getElem?_eq_some_iff.mp hw.there).1
    obtain ⟨shown, rest, ts, hs⟩ := hw.shown
    obtain ⟨hshown, hclosed⟩ := hs.serve hserve
    have hsame := (serve_same hserve).1
    refine h.setViewer hm hlog hsame hshown fun hend hheld => ?_
    rw [hsame] at hheld
    exact released_iff.mp (hclosed hend) (hm.held hlt hheld)
  | @hungUp i v hv hpc hend =>
    obtain ⟨log, hw⟩ := h.viewers v (List.mem_of_getElem? hv)
    obtain ⟨shown, rest, ts, hs⟩ := hw.shown
    exact h.setViewer (.hungUp hv hpc hend) hw.there rfl ⟨shown, rest, ts, hs.hangUp hend hpc⟩
      fun hfalse => by cases hfalse

theorem allSound_of_run {w : LogWorld} (h : Runs step Always new w) : Sound w :=
  h.invariant sound_new fun hs _ hstep => hs.moves (step_moves hstep)

end LogWorld

/-- **What a viewer has been sent is true of the history of the log**: a beginning of the
    catch-up, which is the end of what had been pushed when the viewer subscribed; then an account
    of what was pushed from there on; and `done` only when the account is of everything. -/
def Viewer.Faithful (v : Viewer) (history : List NomEvent) : Prop :=
  ∃ shown ts, shown <+: (history.take v.start).rtake MAX_BUFFERED_EVENTS ∧
    (shown = (history.take v.start).rtake MAX_BUFFERED_EVENTS ∨ ts = []) ∧
    (v.out = shown.map .nom ++ ts.map .of ∧
        Broadcast.covers ts ((history.take v.next).drop v.start) ∨
      v.out = ((history.take v.start).rtake MAX_BUFFERED_EVENTS).map .nom ++ ts.map .of ++ [.done] ∧
        Broadcast.covers ts (history.drop v.start))

theorem LogWorld.Watches.faithful {w : LogWorld} {v : Viewer} {log : LiveLog}
    (h : w.Watches v log) : v.Faithful log.tx.sent := by
  obtain ⟨shown, rest, ts, hs⟩ := h.shown
  by_cases hfound : v.pc = .found
  · refine ⟨[], [], List.nil_prefix, Or.inr rfl, Or.inl ⟨hs.found hfound, ?_⟩⟩
    have hcovers := hs.accounts.covers
    have hnil : ts = [] := by
      have hout := hs.found hfound
      rw [hs.out] at hout
      simp only [List.append_eq_nil_iff, List.map_eq_nil_iff] at hout
      exact hout.1.2
    rw [hnil] at hcovers
    exact hcovers
  · have hinitial := hs.caughtUp hfound
    rw [hs.initial] at hinitial
    refine ⟨shown, ts, ⟨rest, hinitial⟩, ?_, ?_⟩
    · refine hs.inOrder.imp (fun hrest => ?_) id
      rw [← hinitial, hrest, List.append_nil]
    · by_cases hend : v.pc = .ended
      · have hrest := hs.replayed (Or.inr hend)
        refine Or.inr ⟨?_, ?_⟩
        · rw [← hinitial, hrest, List.append_nil, hs.out, Viewer.farewell, if_pos hend]
        · have hcovers := hs.accounts.covers
          rw [hs.whole hend, List.take_length] at hcovers
          exact hcovers
      · refine Or.inl ⟨?_, hs.accounts.covers⟩
        rw [hs.out, Viewer.farewell, if_neg hend, List.append_nil]

theorem faithful_of_run {w : LogWorld} (h : Runs LogWorld.step Always .new w) {v : Viewer}
    (hv : v ∈ w.viewers) : ∃ log, w.logs[v.log]? = some log ∧ v.Faithful log.tx.sent := by
  obtain ⟨log, hw⟩ := (LogWorld.allSound_of_run h).viewers v hv
  exact ⟨log, hw.there, hw.faithful⟩

/-- A build with two lines of log. One viewer comes between them and stays to the end. -/
def twoLines : List LogWorld.Act :=
  [.openLog 7, .push 0 (.raw "one"), .get 7, .subscribe 0, .push 0 (.raw "two"), .respond 0,
    .turn 0, .turn 0, .turn 0, .drop 0, .close 0, .turn 0]

/-- A viewer that was there from the first line to the end. -/
def stayed : Viewer :=
  { log := 0, holds := false, pc := .ended, initial := [.raw "one"], start := 1, next := 2,
    out := [.nom (.raw "one"), .nom (.raw "two"), .done] }

/-- The build of two lines is over. -/
def twoLinesEnd : LogWorld :=
  { logs := [⟨[.raw "one", .raw "two"], ⟨[.raw "one", .raw "two"], false⟩⟩]
    entries := ∅
    workers := [⟨7, 0, false, false⟩]
    viewers := [stayed] }

theorem script_twoLines :
    script LogWorld.step (Always (A := LogWorld.Act)) .new twoLines = some twoLinesEnd := rfl

theorem faithful_of_run_twoLines :
    ∃ log, twoLinesEnd.logs[0]? = some log ∧ stayed.Faithful log.tx.sent :=
  faithful_of_run (.of_script script_twoLines) (List.mem_singleton.mpr rfl)

/-! ## A viewer that sees it all -/

theorem missedCount_eq_zero {ts : List (Broadcast.Told NomEvent)} (h : ∀ n, .missed n ∉ ts) :
    Broadcast.missedCount ts = 0 ∧ ts.map SseEvent.of = (Broadcast.named ts).map .nom := by
  induction ts with
  | nil => exact ⟨rfl, rfl⟩
  | cons t ts ih =>
    obtain ⟨hcount, hmap⟩ := ih fun n hn => h n (List.mem_cons_of_mem _ hn)
    cases t with
    | value event =>
      refine ⟨hcount, ?_⟩
      show SseEvent.nom event :: ts.map SseEvent.of = .nom event :: (Broadcast.named ts).map .nom
      rw [hmap]
    | missed n => exact absurd List.mem_cons_self (h n)

theorem rtake_of_length_le {α : Type} {n : ℕ} {l : List α} (h : l.length ≤ n) : l.rtake n = l := by
  unfold List.rtake
  rw [Nat.sub_eq_zero_of_le h]
  rfl

/-- **In time and never behind, a viewer sees every event of the build, once and in order**, before
    it is told that the build is over. -/
theorem shown_whole {w : LogWorld} (h : Runs LogWorld.step Always .new w) {v : Viewer}
    (hv : v ∈ w.viewers) (hended : .done ∈ v.out) (hlag : ∀ n, .lag n ∉ v.out)
    (hearly : v.start ≤ MAX_BUFFERED_EVENTS) :
    ∃ log, w.logs[v.log]? = some log ∧ v.out = log.tx.sent.map .nom ++ [.done] := by
  obtain ⟨log, hw⟩ := (LogWorld.allSound_of_run h).viewers v hv
  obtain ⟨shown, ts, -, -, ⟨hout, -⟩ | ⟨hout, hcovers⟩⟩ := hw.faithful
  · -- only an ended stream has the last frame
    rw [hout] at hended
    rcases List.mem_append.mp hended with hmem | hmem
    · obtain ⟨event, -, hfalse⟩ := List.mem_map.mp hmem
      cases hfalse
    · obtain ⟨t, -, hfalse⟩ := List.mem_map.mp hmem
      cases t <;> cases hfalse
  · refine ⟨log, hw.there, ?_⟩
    have hmissed : ∀ n, .missed n ∉ ts := by
      intro n hn
      refine hlag n ?_
      rw [hout]
      exact List.mem_append_left _ (List.mem_append_right _ (List.mem_map.mpr ⟨_, hn, rfl⟩))
    obtain ⟨hcount, hmap⟩ := missedCount_eq_zero hmissed
    have hall : (log.tx.sent.take v.start).rtake MAX_BUFFERED_EVENTS = log.tx.sent.take v.start :=
      rtake_of_length_le (le_trans (List.length_take_le _ _) hearly)
    rw [hout, hall, hmap, hcovers.eq_of_not_missed hcount, ← List.map_append,
      List.take_append_drop]

theorem shown_whole_twoLines :
    ∃ log, twoLinesEnd.logs[0]? = some log ∧ stayed.out = log.tx.sent.map .nom ++ [.done] :=
  shown_whole (.of_script script_twoLines) (List.mem_singleton.mpr rfl) (by decide)
    (fun n hn => by simp [stayed] at hn) (by decide)

end Argunix.Web
