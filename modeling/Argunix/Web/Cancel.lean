import Argunix.Lib.HashMap
import Argunix.Store

/-!
# `argunix-web`: cancel tokens, and a pickup that races a supersede

A push that supersedes evaluation `p` does two things, in this order: it writes `cancelled` to the
row, and it fires the token registered for `p`, if there is one. The worker that picks `p` up does
the opposite: it registers a token, then reads the row. Whichever comes first, one of the two sees
the other — `caught`.

The one way around is not a pickup but an end. The handler's two steps may enclose the worker's
last ones: the row is written while `process` is at work, `process` returns and drops its token,
and the handler then finds nobody to tell (`not_caught_left`). Nothing is lost by it, since every
statement on the row is guarded and the first verdict stays.
-/

set_option autoImplicit false

namespace Argunix.Web

open Argunix.Lib Argunix.Store

/-! ## Tokens -/

/-- `CancelToken`: clones share one flag, so a token is its identity. -/
structure CancelToken where
  id : ℕ
deriving DecidableEq, Repr

/-- The process-global map. `fired` are the tokens whose flag is set, `next` numbers new ones. -/
structure CancelRegistry where
  inner : HashMap EvalId CancelToken
  fired : List CancelToken
  next : ℕ

namespace CancelRegistry

/-- Nothing is registered. -/
def new : CancelRegistry := { inner := ∅, fired := [], next := 0 }

/-- A token that is registered already is replaced. -/
def register (reg : CancelRegistry) (e : EvalId) : CancelToken × CancelRegistry :=
  (⟨reg.next⟩, { reg with inner := reg.inner.insert e ⟨reg.next⟩, next := reg.next + 1 })

/-- `deregister` -/
def deregister (reg : CancelRegistry) (e : EvalId) : CancelRegistry :=
  { reg with inner := reg.inner.erase e }

/-- Nothing happens if the evaluation is not registered. -/
def cancel (reg : CancelRegistry) (e : EvalId) : CancelRegistry :=
  match reg.inner.lookup e with
  | some t => { reg with fired := t :: reg.fired }
  | none => reg

/-- `is_cancelled` -/
def isCancelled (reg : CancelRegistry) (t : CancelToken) : Bool := t ∈ reg.fired

variable {reg : CancelRegistry} {e e' : EvalId} {t : CancelToken}

@[simp]
theorem inner_cancel : (reg.cancel e).inner = reg.inner := by
  unfold cancel
  split <;> rfl

theorem isCancelled_cancel_self (h : reg.inner.lookup e = some t) :
    (reg.cancel e).isCancelled t = true := by
  simp [cancel, h, isCancelled]

theorem isCancelled_cancel (h : reg.isCancelled t = true) :
    (reg.cancel e).isCancelled t = true := by
  unfold cancel
  split
  · simpa [isCancelled] using Or.inr (by simpa [isCancelled] using h)
  · exact h

theorem lookup_register_self : (reg.register e).2.inner.lookup e = some (reg.register e).1 := by
  rw [register, HashMap.lookup_insert_eq, if_pos rfl]

theorem lookup_register_ne (h : e ≠ e') :
    (reg.register e').2.inner.lookup e = reg.inner.lookup e := by
  rw [register, HashMap.lookup_insert_eq, if_neg h]

theorem lookup_deregister_ne (h : e ≠ e') :
    (reg.deregister e').inner.lookup e = reg.inner.lookup e := by
  rw [deregister, HashMap.lookup_erase_eq, if_neg h]

end CancelRegistry

/-! ## The two parties -/

/-- Who writes to the row. -/
inductive Party
  | worker
  | webhook
deriving DecidableEq, Repr

/-- Where `process(p)` and the build phase it spawns stand. `read` holds the status the row had,
    `leaving` is a return with the token still registered, `failing` an error that has reached the
    trap around the call. -/
inductive ProcessPc
  | queued
  | registered (t : CancelToken)
  | read (t : CancelToken) (status : EvalStatus)
  | starting (t : CancelToken)
  | cloning (t : CancelToken)
  | cloned (t : CancelToken)
  | evaluating (t : CancelToken)
  | marking (t : CancelToken)
  | building (t : CancelToken)
  | finishing (t : CancelToken) (status : EvalStatus)
  | leaving (t : CancelToken) (err : Bool)
  | failing (t : CancelToken)
  | ended (t : CancelToken)
deriving DecidableEq, Repr

namespace ProcessPc

/-- The token the call holds, or held. -/
def token : ProcessPc → Option CancelToken
  | queued => none
  | registered t | read t _ | starting t | cloning t | cloned t | evaluating t | marking t
  | building t | finishing t _ | leaving t _ | failing t | ended t => some t

/-- The `CancelGuard` has been dropped. -/
def left : ProcessPc → Bool
  | failing _ | ended _ => true
  | _ => false

/-- From here the call returns without cloning, if the row has `status`. -/
def Bails (status : EvalStatus) (reg : CancelRegistry) :
    ProcessPc → Prop
  | .queued | .registered _ => status = .cancelled
  | .read t status => status = .cancelled ∨ reg.isCancelled t = true
  | .leaving .. | .failing _ | .ended _ => True
  | _ => False

theorem exists_token {pc : ProcessPc} (h : pc ≠ .queued) : ∃ t, pc.token = some t := by
  cases pc with
  | queued => exact absurd rfl h
  | _ => exact ⟨_, rfl⟩

theorem Bails.mono {status : EvalStatus} {reg reg' : CancelRegistry} {pc : ProcessPc}
    (hfired : ∀ t, reg.isCancelled t = true → reg'.isCancelled t = true)
    (h : pc.Bails status reg) : pc.Bails status reg' := by
  cases pc with
  | read t status => exact h.imp_right (hfired t)
  | _ => exact h

end ProcessPc

/-- Where the handler stands with `p`. It notes what it found: a verdict of the worker when it
    wrote (`late`), a worker that had left when it fired the token (`gone`). -/
inductive WebhookPc
  | idle
  | listed
  | wrote (late : Bool)
  | done (late gone : Bool)
deriving DecidableEq, Repr

/-- An evaluation between its worker and a webhook that supersedes it. -/
structure Race where
  row : EvalRow
  reg : CancelRegistry
  worker : ProcessPc
  webhook : WebhookPc
  /-- `process` has begun to clone, or has resumed the build phase. -/
  pastPickup : Bool
  /-- Who brought the row to its terminal status. -/
  verdict : Option Party

/-- `step` is the worker's next statement, `stop` the cancel arm of a `select!`, `fail` an error
    that propagates. The last three are other evaluations' calls of the registry. -/
inductive RaceAct
  | step
  | stop
  | fail
  | list
  | supersede
  | signal
  | register (e : EvalId)
  | deregister (e : EvalId)
  | cancel (e : EvalId)

namespace Race

/-- Neither has begun. -/
def start (row : EvalRow) : Race :=
  { row := row, reg := .new, worker := .queued, webhook := .idle, pastPickup := false,
    verdict := none }

/-- One statement on the row of `p`. -/
def write (s : Race) (party : Party) (f : EvalRow → EvalRow) : Race :=
  { s with
    row := f s.row
    verdict := if s.row.status.isTerminal = false ∧ (f s.row).status.isTerminal = true
      then some party else s.verdict }

/-- The worker's next statement. -/
def step (p : EvalId) (s : Race) : Race :=
  match s.worker with
  | .queued =>
    { s with reg := (s.reg.register p).2, worker := .registered (s.reg.register p).1 }
  | .registered t => { s with worker := .read t s.row.status }
  | .read t status =>
    if status = .cancelled ∨ s.reg.isCancelled t = true then { s with worker := .leaving t false }
    else if status = .building then { s with worker := .building t, pastPickup := true }
    else { s with worker := .starting t }
  | .starting t =>
    { s.write .worker (·.start .evaluating) with worker := .cloning t, pastPickup := true }
  | .cloning t => { s with worker := .cloned t }
  | .cloned t =>
    if s.reg.isCancelled t then { s with worker := .finishing t .cancelled }
    else { s with worker := .evaluating t }
  | .evaluating t => { s with worker := .marking t }
  | .marking t => { s.write .worker (·.markBuilding) with worker := .building t }
  | .building t => { s with worker := .finishing t .done }
  | .finishing t status => { s.write .worker (·.finish status) with worker := .leaving t false }
  | .leaving t err =>
    { s with reg := s.reg.deregister p, worker := if err then .failing t else .ended t }
  | .failing t => { s.write .worker (·.failWithReason) with worker := .ended t }
  | .ended _ => s

/-- A `select!` sees the token fired and the call turns to `finish(Cancelled)`. -/
def stop (s : Race) : Race :=
  match s.worker with
  | .cloning t | .evaluating t | .building t =>
    if s.reg.isCancelled t then { s with worker := .finishing t .cancelled } else s
  | _ => s

/-- A `?`. -/
def fail (s : Race) : Race :=
  match s.worker with
  | .registered t | .read t _ | .starting t | .cloning t | .cloned t | .evaluating t | .marking t
  | .building t | .finishing t _ => { s with worker := .leaving t true }
  | _ => s

/-- One step of either. -/
def act (p : EvalId) (s : Race) : RaceAct → Race
  | .step => s.step p
  | .stop => s.stop
  | .fail => s.fail
  | .list =>
    if s.webhook = .idle ∧ s.row.status.isTerminal = false then { s with webhook := .listed } else s
  | .supersede =>
    match s.webhook with
    | .listed =>
      { s.write .webhook (·.finish .cancelled) with
        webhook := .wrote (decide (s.verdict = some .worker)) }
    | _ => s
  | .signal =>
    match s.webhook with
    | .wrote late => { s with reg := s.reg.cancel p, webhook := .done late s.worker.left }
    | _ => s
  | .register e => if e = p then s else { s with reg := (s.reg.register e).2 }
  | .deregister e => if e = p then s else { s with reg := s.reg.deregister e }
  | .cancel e => if e = p then s else { s with reg := s.reg.cancel e }

/-- One after the other. -/
def run (p : EvalId) (s : Race) (as : List RaceAct) : Race := as.foldl (act p) s

/-! ## What a turn of the worker can do -/

variable {p : EvalId} {s s' : Race} {t : CancelToken}

/-- The call returns before it clones. -/
def Bails (s : Race) : Prop := s.pastPickup = false ∧ s.worker.Bails s.row.status s.reg

/-- The token of a call that has not left is the registered one. -/
def Held (p : EvalId) (s : Race) : Prop :=
  ∀ t, s.worker.token = some t → s.worker.left = false → s.reg.inner.lookup p = some t

/-- At most one guarded statement on the row, and a verdict that is noted. -/
def Writes (party : Party) (s s' : Race) : Prop :=
  (s'.row = s.row ∧ s'.verdict = s.verdict) ∨
    ∃ status, s'.row = s.row.guardedStatus status ∧
      s'.verdict = if s.row.status.isTerminal = false ∧
        (s.row.guardedStatus status).status.isTerminal = true then some party else s.verdict

/-- What a step of the worker leaves as it is, and what it may write. -/
structure Turn (p : EvalId) (s s' : Race) : Prop where
  webhook : s'.webhook = s.webhook
  writes : Writes .worker s s'
  fired : s'.reg.fired = s.reg.fired
  token : ∀ t, s.worker.token = some t → s'.worker.token = some t
  fresh : s'.worker = .queued → s' = s
  held : Held p s → Held p s'
  bails : Bails s → Bails s'

namespace Turn

theorem refl (p : EvalId) (s : Race) : Turn p s s :=
  ⟨rfl, Or.inl ⟨rfl, rfl⟩, rfl, fun _ h => h, fun _ => rfl, fun h => h, fun h => h⟩

/-- A move of the call that writes nothing. -/
theorem move {pc : ProcessPc} {past : Bool} (htok : pc.token = s.worker.token)
    (hleft : s.worker.left = false) (hne : pc ≠ .queued)
    (hb : Bails s → Bails { s with worker := pc, pastPickup := past }) :
    Turn p s { s with worker := pc, pastPickup := past } :=
  ⟨rfl, Or.inl ⟨rfl, rfl⟩, rfl, fun _ h => htok.trans h, fun h => absurd h hne,
    fun hheld t ht _ => hheld t (htok.symm.trans ht) hleft, hb⟩

/-- A move with a statement on the row. -/
theorem moveWrite {pc : ProcessPc} {past : Bool} (status : EvalStatus)
    (htok : pc.token = s.worker.token) (hleft : pc.left = true ∨ s.worker.left = false)
    (hne : pc ≠ .queued) (hb : Bails s → Bails { s.write .worker (·.guardedStatus status) with
      worker := pc, pastPickup := past }) :
    Turn p s { s.write .worker (·.guardedStatus status) with worker := pc, pastPickup := past } :=
  ⟨rfl, Or.inr ⟨status, rfl, rfl⟩, rfl, fun _ h => htok.trans h, fun h => absurd h hne,
    fun hheld t ht hl => hheld t (htok.symm.trans ht)
      (hleft.resolve_left fun h => absurd (h.symm.trans hl) (by simp)), hb⟩

end Turn

theorem turn_step (p : EvalId) (s : Race) : Turn p s (s.step p) := by
  have hno : ∀ {P : Prop}, (Bails s → False) → Bails s → P := fun h hb => (h hb).elim
  unfold step
  cases hw : s.worker with
  | queued =>
    refine ⟨rfl, Or.inl ⟨rfl, rfl⟩, rfl, fun t ht => ?_, fun h => absurd h (by simp),
      fun _ t ht _ => ?_, fun hb => ?_⟩
    · rw [hw] at ht
      exact absurd ht (by simp [ProcessPc.token])
    · rw [← ht]
      exact CancelRegistry.lookup_register_self
    · exact ⟨hb.1, by simpa [hw, ProcessPc.Bails] using hb.2⟩
  | registered t =>
    refine .move (by rw [hw]; rfl) (by rw [hw]; rfl) (by simp) fun hb => ⟨hb.1, Or.inl ?_⟩
    simpa [hw, ProcessPc.Bails] using hb.2
  | read t status =>
    simp only
    split
    · exact .move (by rw [hw]; rfl) (by rw [hw]; rfl) (by simp) fun hb => ⟨hb.1, trivial⟩
    · rename_i hneg
      have hnb : Bails s → False := fun hb => hneg (by simpa [hw, ProcessPc.Bails] using hb.2)
      split
      · exact .move (by rw [hw]; rfl) (by rw [hw]; rfl) (by simp) (hno hnb)
      · exact .move (by rw [hw]; rfl) (by rw [hw]; rfl) (by simp) (hno hnb)
  | starting t =>
    exact .moveWrite .evaluating (by rw [hw]; rfl) (Or.inr (by rw [hw]; rfl)) (by simp)
      (hno fun hb => by simpa [hw, ProcessPc.Bails] using hb.2)
  | cloning t | evaluating t | building t =>
    exact .move (by rw [hw]; rfl) (by rw [hw]; rfl) (by simp)
      (hno fun hb => by simpa [hw, ProcessPc.Bails] using hb.2)
  | cloned t =>
    simp only
    split <;>
    exact .move (by rw [hw]; rfl) (by rw [hw]; rfl) (by simp)
      (hno fun hb => by simpa [hw, ProcessPc.Bails] using hb.2)
  | marking t =>
    exact .moveWrite .building (by rw [hw]; rfl) (Or.inr (by rw [hw]; rfl)) (by simp)
      (hno fun hb => by simpa [hw, ProcessPc.Bails] using hb.2)
  | finishing t status =>
    exact .moveWrite status (by rw [hw]; rfl) (Or.inr (by rw [hw]; rfl)) (by simp)
      (hno fun hb => by simpa [hw, ProcessPc.Bails] using hb.2)
  | leaving t err =>
    refine ⟨rfl, Or.inl ⟨rfl, rfl⟩, rfl, fun t' ht => ?_, fun h => ?_, fun _ t' _ hl => ?_,
      fun hb => ?_⟩
    · rw [hw] at ht
      cases err <;> exact ht
    · cases err <;> exact absurd h (by simp)
    · cases err <;> exact absurd hl (by simp [ProcessPc.left])
    · refine ⟨hb.1, ?_⟩
      cases err <;> trivial
  | failing t =>
    exact .moveWrite .evaluationFailed (by rw [hw]; rfl) (Or.inl rfl) (by simp)
      fun hb => ⟨hb.1, trivial⟩
  | ended t =>
    exact Turn.refl p s

theorem turn_stop (p : EvalId) (s : Race) : Turn p s s.stop := by
  unfold stop
  split
  case h_4 => exact .refl p s
  all_goals
    rename_i hw
    split
    · refine .move (by rw [hw]; rfl) (by rw [hw]; rfl) (by simp) fun hb => ?_
      exact absurd hb.2 (by simp [hw, ProcessPc.Bails])
    · exact .refl p s

theorem turn_fail (p : EvalId) (s : Race) : Turn p s s.fail := by
  unfold fail
  split
  case h_10 => exact .refl p s
  all_goals
    rename_i hw
    exact .move (by rw [hw]; rfl) (by rw [hw]; rfl) (by simp) fun hb => ⟨hb.1, trivial⟩

/-! ## The invariant -/

/-- What the handler relies on while it is at work, and what it has achieved when it is done. -/
structure Sound (p : EvalId) (s : Race) : Prop where
  held : Held p s
  fresh : s.worker = .queued → s.pastPickup = false
  closed : s.webhook ≠ .idle → s.webhook ≠ .listed → s.row.status.isTerminal = true
  listed : s.webhook = .listed → s.row.status.isTerminal = false ∨ s.verdict = some .worker
  wrote : s.webhook = .wrote false → s.row.status = .cancelled
  done : s.webhook = .done false false →
    Bails s ∨ ∃ t, s.worker.token = some t ∧ s.reg.isCancelled t = true

theorem guardedStatus_of_terminal {row : EvalRow} (h : row.status.isTerminal = true)
    (status : EvalStatus) : row.guardedStatus status = row := if_pos h

theorem terminal_guardedStatus {row : EvalRow} {status : EvalStatus}
    (h : status.isTerminal = true) : (row.guardedStatus status).status.isTerminal = true := by
  unfold EvalRow.guardedStatus
  split
  · assumption
  · exact h

theorem Writes.row_of_terminal {party : Party} (h : Writes party s s')
    (hterm : s.row.status.isTerminal = true) : s'.row = s.row := by
  rcases h with ⟨heq, -⟩ | ⟨status, heq, -⟩
  · exact heq
  · exact heq.trans (guardedStatus_of_terminal hterm status)

/-- An open row that a party closes is its verdict. -/
theorem Writes.open_or_verdict {party : Party} (h : Writes party s s')
    (hs : s.row.status.isTerminal = false ∨ s.verdict = some party) :
    s'.row.status.isTerminal = false ∨ s'.verdict = some party := by
  rcases h with ⟨hrow, hv⟩ | ⟨status, hrow, hv⟩
  · rw [hrow, hv]
    exact hs
  · rw [hrow, hv]
    split
    · exact Or.inr rfl
    · rename_i hn
      rcases hs with hopen | hverdict
      · left
        simpa [hopen] using hn
      · exact Or.inr hverdict

theorem Sound.turn (h : Sound p s) (ht : Turn p s s') : Sound p s' := by
  refine ⟨ht.held h.held, fun hq => ?_, fun hi hl => ?_, fun hw => ?_, fun hw => ?_, fun hw => ?_⟩
  · obtain rfl := ht.fresh hq
    exact h.fresh hq
  · have hterm := h.closed (ht.webhook ▸ hi) (ht.webhook ▸ hl)
    rw [ht.writes.row_of_terminal hterm]
    exact hterm
  · exact ht.writes.open_or_verdict (h.listed (ht.webhook ▸ hw))
  · have hc := h.wrote (ht.webhook ▸ hw)
    rw [ht.writes.row_of_terminal (by rw [hc]; rfl)]
    exact hc
  · refine (h.done (ht.webhook ▸ hw)).imp ht.bails fun ⟨t, htok, hf⟩ => ⟨t, ht.token t htok, ?_⟩
    simpa [CancelRegistry.isCancelled, ht.fired] using hf

/-- Calls of the registry for other evaluations: the entry of `p` stays, tokens stay fired. -/
theorem Sound.registry (h : Sound p s) {reg : CancelRegistry}
    (hlook : reg.inner.lookup p = s.reg.inner.lookup p)
    (hfired : ∀ t, s.reg.isCancelled t = true → reg.isCancelled t = true) :
    Sound p { s with reg := reg } := by
  refine ⟨fun t ht hl => hlook.trans (h.held t ht hl), h.fresh, h.closed, h.listed, h.wrote,
    fun hw => ?_⟩
  exact (h.done hw).imp (fun hb => ⟨hb.1, hb.2.mono hfired⟩)
    fun ⟨t, htok, hf⟩ => ⟨t, htok, hfired t hf⟩

/-- The handler's write: the row is cancelled unless the worker had been first. -/
theorem Sound.supersede (h : Sound p s) (hw : s.webhook = .listed) :
    Sound p { s.write .webhook (·.finish .cancelled) with
      webhook := .wrote (decide (s.verdict = some .worker)) } := by
  refine ⟨h.held, h.fresh, fun _ _ => ?_, fun hw' => absurd hw' (by simp), fun hw' => ?_,
    fun hw' => absurd hw' (by simp)⟩
  · exact terminal_guardedStatus rfl
  have hnot : s.verdict ≠ some .worker := by simpa using hw'
  have hopen := (h.listed hw).resolve_right hnot
  simp [write, EvalRow.finish, EvalRow.guardedStatus, hopen]

/-- The handler's signal: a call that has not left and may have read the row before the write
    holds the token that fires. -/
theorem Sound.signal (h : Sound p s) {late : Bool} (hw : s.webhook = .wrote late) :
    Sound p { s with reg := s.reg.cancel p, webhook := .done late s.worker.left } := by
  refine ⟨?_, h.fresh, fun _ _ => h.closed (by simp [hw]) (by simp [hw]),
    fun hw' => absurd hw' (by simp), fun hw' => absurd hw' (by simp), fun hw' => ?_⟩
  · intro t ht hl
    rw [CancelRegistry.inner_cancel]
    exact h.held t ht hl
  · obtain ⟨rfl, hleft⟩ : late = false ∧ s.worker.left = false := by simpa using hw'
    by_cases hq : s.worker = .queued
    · refine Or.inl ⟨h.fresh hq, ?_⟩
      simpa [hq, ProcessPc.Bails] using h.wrote hw
    · obtain ⟨t, htok⟩ := ProcessPc.exists_token hq
      exact Or.inr ⟨t, htok, CancelRegistry.isCancelled_cancel_self (h.held t htok hleft)⟩

theorem Sound.act (h : Sound p s) (a : RaceAct) : Sound p (s.act p a) := by
  cases a with
  | step => exact h.turn (turn_step p s)
  | stop => exact h.turn (turn_stop p s)
  | fail => exact h.turn (turn_fail p s)
  | list =>
    simp only [Race.act]
    split
    · rename_i hl
      exact ⟨h.held, h.fresh, fun _ hne => absurd rfl hne, fun _ => Or.inl hl.2,
        fun hw => absurd hw (by simp),
        fun hw => absurd hw (by simp)⟩
    · exact h
  | supersede =>
    simp only [Race.act]
    split
    · rename_i hw
      exact h.supersede hw
    · exact h
  | signal =>
    simp only [Race.act]
    split
    · rename_i hw
      exact h.signal hw
    · exact h
  | register e =>
    simp only [Race.act]
    split
    · exact h
    · rename_i hne
      exact h.registry (CancelRegistry.lookup_register_ne (Ne.symm hne)) fun _ hf => hf
  | deregister e =>
    simp only [Race.act]
    split
    · exact h
    · rename_i hne
      exact h.registry (CancelRegistry.lookup_deregister_ne (Ne.symm hne)) fun _ hf => hf
  | cancel e =>
    simp only [Race.act]
    split
    · exact h
    · exact h.registry (by rw [CancelRegistry.inner_cancel]) fun _ =>
        CancelRegistry.isCancelled_cancel

theorem Sound.run (as : List RaceAct) (h : Sound p s) : Sound p (s.run p as) := by
  induction as generalizing s with
  | nil => exact h
  | cons a as ih => exact ih (h.act a)

theorem sound_start (p : EvalId) (row : EvalRow) : Sound p (start row) :=
  ⟨fun t ht => absurd ht (by simp [start, ProcessPc.token]), fun _ => rfl,
    fun hne => absurd rfl hne, fun hw => absurd hw (by simp [start]),
    fun hw => absurd hw (by simp [start]),
    fun hw => absurd hw (by simp [start])⟩

/-! ## Whole runs -/

/-- The handler writes at most `cancelled`, and only once it has listed the row. -/
theorem row_act_of_terminal (h : s.row.status.isTerminal = true) (a : RaceAct) :
    (s.act p a).row = s.row := by
  cases a with
  | step => exact (turn_step p s).writes.row_of_terminal h
  | stop => exact (turn_stop p s).writes.row_of_terminal h
  | fail => exact (turn_fail p s).writes.row_of_terminal h
  | supersede =>
    simp only [act]
    split
    · exact guardedStatus_of_terminal h .cancelled
    · rfl
  | list | signal | register | deregister | cancel =>
    simp only [act]
    split <;> rfl

/-- **The first verdict stays.** -/
theorem row_run_of_terminal (as : List RaceAct) (h : s.row.status.isTerminal = true) :
    (s.run p as).row = s.row := by
  induction as generalizing s with
  | nil => rfl
  | cons a as ih =>
    have hrow := row_act_of_terminal (p := p) h a
    exact (ih (by rw [hrow]; exact h)).trans hrow

theorem Bails.act (h : Bails s) (hterm : s.row.status.isTerminal = true) (a : RaceAct) :
    Bails (s.act p a) := by
  have hregistry : ∀ {reg : CancelRegistry} {webhook : WebhookPc},
      (∀ t, s.reg.isCancelled t = true → reg.isCancelled t = true) →
      Bails { s with reg := reg, webhook := webhook } := fun hf => ⟨h.1, h.2.mono hf⟩
  cases a with
  | step => exact (turn_step p s).bails h
  | stop => exact (turn_stop p s).bails h
  | fail => exact (turn_fail p s).bails h
  | list =>
    simp only [Race.act]
    split
    · exact hregistry fun _ hf => hf
    · exact h
  | supersede =>
    simp only [Race.act]
    split
    · refine ⟨h.1, ?_⟩
      rw [show (s.write .webhook (·.finish .cancelled)).row = s.row from
        guardedStatus_of_terminal hterm .cancelled]
      exact h.2
    · exact h
  | signal =>
    simp only [Race.act]
    split
    · exact hregistry fun _ => CancelRegistry.isCancelled_cancel
    · exact h
  | register e | deregister e =>
    simp only [Race.act]
    split
    · exact h
    · exact hregistry fun _ hf => hf
  | cancel e =>
    simp only [Race.act]
    split
    · exact h
    · exact hregistry fun _ => CancelRegistry.isCancelled_cancel

theorem Bails.run (as : List RaceAct) (h : Bails s) (hterm : s.row.status.isTerminal = true) :
    Bails (s.run p as) := by
  induction as generalizing s with
  | nil => exact h
  | cons a as ih =>
    refine ih (h.act hterm a) ?_
    rw [row_act_of_terminal hterm a]
    exact hterm

/-- **A supersede never misses a pickup.** When the handler is through with `p`, the worker returns
    before it clones, or the token it holds has fired, or its verdict was there before the
    handler's write, or it had dropped its token before the handler looked. And a cancelled row
    stays cancelled. -/
theorem caught (p : EvalId) (row : EvalRow) (as : List RaceAct) (s : Race)
    (hs : (start row).run p as = s) :
    (∀ late gone, s.webhook = .done late gone →
      (∀ bs, (s.run p bs).pastPickup = false) ∨
      (∃ t, s.worker.token = some t ∧ s.reg.isCancelled t = true) ∨ late = true ∨ gone = true) ∧
    (s.row.status = .cancelled → ∀ bs, (s.run p bs).row.status = .cancelled) := by
  have hsound : Sound p s := hs ▸ (sound_start p row).run as
  refine ⟨fun late gone hdone => ?_, fun hc bs => ?_⟩
  · cases late with
    | true => exact Or.inr (Or.inr (Or.inl rfl))
    | false =>
      cases gone with
      | true => exact Or.inr (Or.inr (Or.inr rfl))
      | false =>
        have hterm := hsound.closed (by simp [hdone]) (by simp [hdone])
        rcases hsound.done hdone with hb | hf
        · exact Or.inl fun bs => (hb.run bs hterm).1
        · exact Or.inr (Or.inl hf)
  · rw [row_run_of_terminal bs (by rw [hc]; rfl)]
    exact hc

/-- The worker registers, the handler does both its steps, and the token has fired. -/
theorem caught_registered :
    ((start (.create ⟨1⟩)).run ⟨1⟩ [.step, .list, .step, .supersede, .signal]).webhook =
      .done false false ∧
    ∀ bs, (((start (.create ⟨1⟩)).run ⟨1⟩ [.step, .list, .step, .supersede, .signal]).run
      ⟨1⟩ bs).row.status = .cancelled :=
  ⟨by decide, (caught ⟨1⟩ (.create ⟨1⟩) _ _ rfl).2 (by decide)⟩

/-- The worker clones, the handler writes, the worker runs to its end and leaves, and the handler
    finds no token. -/
theorem not_caught_left : ¬ ∀ (p : EvalId) (row : EvalRow) (as : List RaceAct) (s : Race),
    (start row).run p as = s → ∀ late gone, s.webhook = .done late gone →
      (∀ bs, (s.run p bs).pastPickup = false) ∨
      (∃ t, s.worker.token = some t ∧ s.reg.isCancelled t = true) ∨ late = true := by
  intro h
  let as : List RaceAct := [.step, .step, .step, .step, .list, .supersede, .step, .step, .step,
    .step, .step, .step, .step, .signal]
  rcases h ⟨1⟩ (.create ⟨1⟩) as _ rfl false true (by decide) with hbail | ⟨t, htok, hf⟩ | hlate
  · exact absurd (hbail []) (by decide)
  · have ht : ((start (.create ⟨1⟩)).run ⟨1⟩ as).worker.token = some ⟨0⟩ := by decide
    rw [ht, Option.some.injEq] at htok
    subst htok
    exact absurd hf (by decide)
  · exact absurd hlate (by decide)

end Race

end Argunix.Web
