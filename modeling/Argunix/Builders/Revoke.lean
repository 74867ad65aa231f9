import Argunix.Lib.Trace
import Argunix.Builders.Enroll

/-!
# Revocation

Connections authenticate and say `hello` while an operator revokes, removes and renames rows. A
`hello` takes two looks at the table: the upsert, and the read-back of the row it returned. Between
the authentication and the upsert, and between the upsert and the read-back, any command may land.

A fresh enrollment that meets a revoked row is rejected by the upsert's guard. An established
connection is not: its `hello` takes the conflict for a failed refresh of the capabilities and
registers it with the record it authenticated with. So a builder that is revoked between its
authentication and its `hello` is back, and so is one whose row was removed or renamed in between:
the upsert then inserts the row anew. And a row that is renamed before it is read back puts the
connection under a name that was not upserted at all.

`never_back_by_itself`: these are the only ways. As long as no command has landed on the row of an
established connection when it says `hello`, and no row is renamed under a `hello`, every
registration is vouched for by the table its upsert met: an established connection's row is there,
active and has its key, and a fresh enrollment finds no row, or such a one, of the name it takes.
-/

set_option autoImplicit false

namespace Argunix.Builders

open Argunix.Lib

/-- A `hello` between its upsert and its registration: the row it has upserted, whether the
    connection was established, and the table before and after. -/
structure PendingHello where
  row : NewBuilder
  established : Bool
  met : BuilderTable
  upserted : Upserted
  left : BuilderTable

/-- A connection: what it has shown, and the `hello` it is in. -/
structure EnrollConn where
  auth : Auth := {}
  hello : Option PendingHello := none

/-- A connection that was registered: under which name, with which key, as what, and the table
    its `hello`'s upsert met and the one it left. -/
structure Registration where
  conn : ℕ
  name : BuilderName
  key : BuilderPubkey
  established : Bool
  met : BuilderTable
  left : BuilderTable

/-- What has happened to the table, as far as it matters to a connection: it has settled what it is
    by a look at the table, or a command has landed on the row of a name. -/
inductive TableEvent
  | settled (conn : ℕ)
  | commanded (name : BuilderName)
deriving DecidableEq, Repr

/-- The table of builders with its connections. -/
structure Enrolling where
  table : BuilderTable
  conns : ℕ → EnrollConn
  log : List Registration
  /-- newest first, for the statements: no handler reads it -/
  history : List TableEvent

/-- What the connections and the operator do. Each is one statement or one lock. -/
inductive EnrollAct
  | auth (conn : ℕ) (cb : Callback)
  | upsert (conn : ℕ) (name : BuilderName) (capabilities : BuilderCapabilities)
  /-- the row is read back and the connection registered -/
  | finish (conn : ℕ)
  | revoke (name : BuilderName) (now : ℕ)
  | remove (name : BuilderName)
  | rename (old new : BuilderName)

/-- It is that of a row. -/
def AuthState.isEstablished : AuthState → Bool
  | .established _ => true
  | _ => false

namespace Enrolling

/-- Nobody is connected. -/
def start (t : BuilderTable) : Enrolling :=
  { table := t, conns := fun _ => {}, log := [], history := [] }

/-- What becomes of a connection. -/
def setConn (e : Enrolling) (conn : ℕ) (c : EnrollConn) : Enrolling :=
  { e with conns := Function.update e.conns conn c }

/-- The connection has looked at the table. -/
def settle (e : Enrolling) (conn : ℕ) : Enrolling :=
  { e with history := .settled conn :: e.history }

/-- A command of the operator on the row of a name, with what the statement answers: the table,
    and whether there was such a row. -/
def command (e : Enrolling) (name : BuilderName) (answer : BuilderTable × Bool) : Enrolling :=
  { e with
    table := answer.1
    history := if answer.2 then .commanded name :: e.history else e.history }

/-- A handler does one thing at a time: nothing else of the connection falls into its `hello`. -/
def act (token : List UInt8) (e : Enrolling) : EnrollAct → Enrolling
  | .auth conn cb =>
    match (e.conns conn).hello with
    | none =>
      let e' := e.setConn conn { auth := (e.conns conn).auth.step e.table token cb }
      if Settles e.table token cb then e'.settle conn else e'
    | some _ => e
  | .upsert conn name capabilities =>
    match (e.conns conn).hello, helloRow (e.conns conn).auth.state name capabilities with
    | none, some row =>
      let state := (e.conns conn).auth.state
      let r := helloUpsert e.table state name capabilities
      { (e.setConn conn { e.conns conn with
          hello := some ⟨row, state.isEstablished, e.table, r.2, r.1⟩ }).settle conn with
        table := r.1 }
    | _, _ => e
  | .finish conn =>
    match (e.conns conn).hello with
    | none => e
    | some h =>
      match helloGet e.table h.upserted with
      | some record =>
        { e.setConn conn { auth := { (e.conns conn).auth with state := .established record } } with
          log := e.log ++ [⟨conn, record.name, h.row.pubkey, h.established, h.met, h.left⟩] }
      | none => e.setConn conn { e.conns conn with hello := none }
  | .revoke name now => e.command name (e.table.revoke name now)
  | .remove name => e.command name (e.table.remove name)
  | .rename old new => e.command old (e.table.rename old new)

/-- One after the other. -/
def run (token : List UInt8) (e : Enrolling) (as : List EnrollAct) : Enrolling :=
  as.foldl (act token) e

/-- No command has landed on the row of that name since the connection last looked at the table:
    when it authenticated, or when its last `hello` upserted. -/
def Untouched (e : Enrolling) (conn : ℕ) (name : BuilderName) : Prop :=
  .commanded name ∉ e.history.takeWhile fun ev => ev ≠ .settled conn

instance (e : Enrolling) (conn : ℕ) (name : BuilderName) : Decidable (e.Untouched conn name) :=
  inferInstanceAs (Decidable (¬ _))

/-- An established connection says `hello` while its row is untouched, and a row that is read back
    has kept its name. -/
def Orderly (e : Enrolling) : EnrollAct → Prop
  | .upsert conn _ _ =>
    match (e.conns conn).auth.state with
    | .established record => e.Untouched conn record.name
    | _ => True
  | .finish conn =>
    ∀ h ∈ (e.conns conn).hello, match h.upserted with
      | .readBack id _ => ∀ row ∈ e.table.rows, row.id = id → row.name = h.row.name
      | .outcome _ => True
  | _ => True

instance (e : Enrolling) (a : EnrollAct) : Decidable (e.Orderly a) := by
  unfold Orderly
  split
  · split <;> infer_instance
  · have : ∀ h : PendingHello, Decidable (match h.upserted with
        | .readBack id _ => ∀ row ∈ e.table.rows, row.id = id → row.name = h.row.name
        | .outcome _ => True) := fun h => by split <;> infer_instance
    infer_instance
  · infer_instance

/-- The table has an active row of that name with that key. -/
def Binds (t : BuilderTable) (name : BuilderName) (key : BuilderPubkey) : Prop :=
  ∃ row ∈ t.rows, row.name = name ∧ row.revokedAt = none ∧ row.pubkey = key

/-- **The table vouches for a registration.** The row of its name is there, active and has the
    connection's key: for an established connection when the upsert runs, for a fresh enrollment,
    whose upsert may have to insert it, once it has run. In neither case did the upsert meet a row
    of that name that was revoked or had another key. -/
structure Vouched (r : Registration) : Prop where
  met : r.established = true → Binds r.met r.name r.key
  guarded : ∀ row ∈ r.met.rows, row.name = r.name → row.revokedAt = none ∧ row.pubkey = r.key
  left : Binds r.left r.name r.key

/-! ## What the statements do to a row -/

section Binds

variable {t : BuilderTable} {name n : BuilderName} {key : BuilderPubkey}

theorem Binds.isSome (h : Binds t n key) : (t.findByName n).isSome = true := by
  obtain ⟨row, hm, hname, -⟩ := h
  rw [BuilderTable.findByName_eq_some.mpr ⟨hm, hname⟩]
  rfl

theorem Binds.writable (h : Binds t n key) {new : NewBuilder} (hname : new.name = n)
    (hkey : new.pubkey = key) : t.Writable new := by
  obtain ⟨row, hm, hrow, hactive, hpubkey⟩ := h
  intro r hr hr'
  rw [BuilderTable.eq_of_name hr hm (hr'.trans (hname.trans hrow.symm))]
  exact ⟨hpubkey.trans hkey.symm, hactive⟩

/-- An upsert writes capabilities, or a row of a name that was free. -/
theorem Binds.upsert (h : Binds t n key) (new : NewBuilder) : Binds (t.upsert new).1 n key := by
  obtain ⟨row, hm, hrow⟩ := h
  unfold BuilderTable.upsert
  split
  · exact ⟨row, List.mem_append_left _ hm, hrow⟩
  · split
    · refine ⟨_, List.mem_map_of_mem hm, ?_⟩
      split <;> exact hrow
    · exact ⟨row, hm, hrow⟩

theorem Binds.helloUpsert (h : Binds t n key) (state : AuthState) (name : BuilderName)
    (capabilities : BuilderCapabilities) :
    Binds (helloUpsert t state name capabilities).1 n key := by
  have hup := h.upsert
  unfold Builders.helloUpsert
  split
  · have := hup ⟨name, ‹_›, capabilities⟩
    split <;> simp_all
  · rename_i record
    have := hup ⟨record.name, record.pubkey, capabilities⟩
    split <;> simp_all
  · exact h

/-- A revocation leaves the rows of other names alone, -/
theorem Binds.revoke (h : Binds t n key) {now : ℕ}
    (hne : (t.revoke name now).2 = true → n ≠ name) : Binds (t.revoke name now).1 n key := by
  have hn : n ≠ name := fun heq => hne (heq ▸ h.isSome) heq
  obtain ⟨row, hm, hrow, hbound⟩ := h
  refine ⟨_, List.mem_map_of_mem hm, ?_⟩
  rw [if_neg (hrow ▸ hn)]
  exact ⟨hrow, hbound⟩

/-- ... and so does a removal, -/
theorem Binds.remove (h : Binds t n key) (hne : (t.remove name).2 = true → n ≠ name) :
    Binds (t.remove name).1 n key := by
  have hn : n ≠ name := fun heq => hne (heq ▸ h.isSome) heq
  obtain ⟨row, hm, hrow, hbound⟩ := h
  exact ⟨row, List.mem_filter.mpr ⟨hm, decide_eq_true (hrow ▸ hn)⟩, hrow, hbound⟩

/-- ... and a rename. -/
theorem Binds.rename (h : Binds t n key) {new : BuilderName}
    (hne : (t.rename name new).2 = true → n ≠ name) : Binds (t.rename name new).1 n key := by
  obtain ⟨row, hm, hrow, hbound⟩ := h
  unfold BuilderTable.rename at hne ⊢
  split at hne <;> rename_i hfree
  · rw [dif_pos hfree]
    refine ⟨_, List.mem_map_of_mem hm, ?_⟩
    rw [if_neg (hrow ▸ hne rfl)]
    exact ⟨hrow, hbound⟩
  · rw [dif_neg hfree]
    exact ⟨row, hm, hrow, hbound⟩

end Binds

/-! ## The invariant -/

section Invariant

variable {e : Enrolling} {token : List UInt8} {conn conn' : ℕ} {name n : BuilderName}

theorem untouched_settle (hne : conn' ≠ conn) :
    (e.settle conn).Untouched conn' n ↔ e.Untouched conn' n := by
  simp [Untouched, settle, Ne.symm hne]

theorem untouched_command {answer : BuilderTable × Bool} :
    (e.command name answer).Untouched conn n ↔
      e.Untouched conn n ∧ (answer.2 = true → n ≠ name) := by
  unfold Untouched command
  cases answer.2 <;> simp [and_comm, not_or]

/-- A pending `hello` has written its row, vouched for by the table, and what it falls back on has
    the row's name and key. -/
def Wrote (h : PendingHello) : Prop :=
  match h.upserted with
  | .readBack _ fallback =>
    (∀ conn, Vouched ⟨conn, h.row.name, h.row.pubkey, h.established, h.met, h.left⟩) ∧
      ∀ record ∈ fallback, record.name = h.row.name ∧ record.pubkey = h.row.pubkey
  | .outcome record => record = none

theorem Wrote.vouched {h : PendingHello} (hw : Wrote h) {id : ℕ}
    {fallback : Option BuilderRecord} (hup : h.upserted = .readBack id fallback) (conn : ℕ) :
    Vouched ⟨conn, h.row.name, h.row.pubkey, h.established, h.met, h.left⟩ := by
  rw [Wrote, hup] at hw
  exact hw.1 conn

/-- `written` and `bound`: the row a connection has looked at is there, active and has its key for
    as long as no command lands on it. -/
structure Sound (e : Enrolling) : Prop where
  pending : ∀ conn h, (e.conns conn).hello = some h → Wrote h
  written : ∀ conn h id fallback, (e.conns conn).hello = some h →
    h.upserted = .readBack id fallback → e.Untouched conn h.row.name →
      Binds e.table h.row.name h.row.pubkey
  bound : ∀ conn record, (e.conns conn).auth.state = .established record →
    e.Untouched conn record.name → Binds e.table record.name record.pubkey
  log : ∀ r ∈ e.log, Vouched r

/-- What the upsert of a `hello` leaves behind. -/
theorem wrote_upsert (t : BuilderTable) (state : AuthState) (name : BuilderName)
    (capabilities : BuilderCapabilities) {row : NewBuilder}
    (hrow : helloRow state name capabilities = some row)
    (hbound : ∀ record, state = .established record → Binds t record.name record.pubkey) :
    Wrote ⟨row, state.isEstablished, t, (helloUpsert t state name capabilities).2,
      (helloUpsert t state name capabilities).1⟩ := by
  have hbinds : ∀ {id : ℕ} {r : BuilderRecord}, (t.upsert row).1.get id = some r →
      r.name = row.name → r.pubkey = row.pubkey → r.revokedAt = none →
      Binds (t.upsert row).1 row.name row.pubkey := by
    intro id r hget hname hkey hactive
    exact ⟨r, (BuilderTable.get_eq_some.mp hget).1, hname, hactive, hkey⟩
  cases state with
  | unauthenticated => exact absurd hrow (by simp [helloRow])
  | freshEnrollment key =>
    obtain rfl : ⟨name, key, capabilities⟩ = row := by simpa [helloRow] using hrow
    rcases t.upsert_spec ⟨name, key, capabilities⟩ with
      ⟨hw, id, r, hid, hget, hname, hkey, hactive⟩ | ⟨-, heq⟩
    · have hb := hbinds hget hname hkey hactive
      simp only [helloUpsert]
      generalize t.upsert ⟨name, key, capabilities⟩ = up at hid hb
      obtain ⟨t', answer⟩ := up
      simp only at hid
      subst hid
      exact ⟨fun _ => ⟨by simp [AuthState.isEstablished], fun r hr hn => (hw r hr hn).symm, hb⟩,
        by simp⟩
    · simp only [helloUpsert, heq]
      rfl
  | established record =>
    obtain rfl : ⟨record.name, record.pubkey, capabilities⟩ = row := by
      simpa [helloRow] using hrow
    have hmet := hbound record rfl
    rcases t.upsert_spec ⟨record.name, record.pubkey, capabilities⟩ with
      ⟨hw, id, r, hid, hget, hname, hkey, hactive⟩ | ⟨hconflict, -⟩
    · have hb := hbinds hget hname hkey hactive
      simp only [helloUpsert]
      generalize t.upsert ⟨record.name, record.pubkey, capabilities⟩ = up at hid hb
      obtain ⟨t', answer⟩ := up
      simp only at hid
      subst hid
      refine ⟨fun _ => ⟨fun _ => hmet, fun r hr hn => (hw r hr hn).symm, hb⟩, fun r hr => ?_⟩
      obtain rfl : record = r := by simpa using hr
      exact ⟨rfl, rfl⟩
    · exact absurd (hmet.writable rfl rfl) hconflict

/-- Only one connection changes, and of it what holds is known. -/
theorem Sound.setConn (h : Sound e) {c : EnrollConn}
    (hpending : ∀ p, c.hello = some p → Wrote p ∧ ∀ id fallback,
      p.upserted = .readBack id fallback → e.Untouched conn p.row.name →
        Binds e.table p.row.name p.row.pubkey)
    (hbound : ∀ record, c.auth.state = .established record → e.Untouched conn record.name →
      Binds e.table record.name record.pubkey) : Sound (e.setConn conn c) := by
  have hconns : ∀ conn', (e.setConn conn c).conns conn' = if conn' = conn then c else
      e.conns conn' := fun conn' => Function.update_apply e.conns conn c conn'
  refine ⟨fun conn' p hp => ?_, fun conn' p id fallback hp => ?_, fun conn' record hs => ?_, h.log⟩
  · rw [hconns] at hp
    split at hp
    · exact (hpending p hp).1
    · exact h.pending conn' p hp
  · rw [hconns] at hp
    split at hp
    · rename_i heq
      subst heq
      exact (hpending p hp).2 id fallback
    · exact h.written conn' p id fallback hp
  · rw [hconns] at hs
    split at hs
    · rename_i heq
      subst heq
      exact hbound record hs
    · exact h.bound conn' record hs

/-- A connection that settles has its row before it. -/
theorem Sound.settle (h : Sound e)
    (hpending : ∀ p id fallback, (e.conns conn).hello = some p →
      p.upserted = .readBack id fallback → Binds e.table p.row.name p.row.pubkey)
    (hbound : ∀ record, (e.conns conn).auth.state = .established record →
      Binds e.table record.name record.pubkey) : Sound (e.settle conn) := by
  refine ⟨h.pending, fun conn' p id fallback hp hup hu => ?_, fun conn' record hs hu => ?_, h.log⟩
  · by_cases hconn : conn' = conn
    · subst hconn
      exact hpending p id fallback hp hup
    · exact h.written conn' p id fallback hp hup ((untouched_settle hconn).mp hu)
  · by_cases hconn : conn' = conn
    · subst hconn
      exact hbound record hs
    · exact h.bound conn' record hs ((untouched_settle hconn).mp hu)

/-- A table that keeps what is bound. -/
theorem Sound.setTable (h : Sound e) {t : BuilderTable}
    (hkeep : ∀ n key, Binds e.table n key → Binds t n key) : Sound { e with table := t } :=
  ⟨h.pending,
    fun conn p id fallback hp hup hu => hkeep _ _ (h.written conn p id fallback hp hup hu),
    fun conn record hs hu => hkeep _ _ (h.bound conn record hs hu), h.log⟩

/-- A command keeps the rows it does not land on. -/
theorem Sound.command (h : Sound e) {answer : BuilderTable × Bool}
    (hkeep : ∀ n key, Binds e.table n key → (answer.2 = true → n ≠ name) →
      Binds answer.1 n key) : Sound (e.command name answer) := by
  refine ⟨h.pending, fun conn p id fallback hp hup hu => ?_, fun conn record hs hu => ?_, h.log⟩
  · obtain ⟨hu, hne⟩ := untouched_command.mp hu
    exact hkeep _ _ (h.written conn p id fallback hp hup hu) hne
  · obtain ⟨hu, hne⟩ := untouched_command.mp hu
    exact hkeep _ _ (h.bound conn record hs hu) hne

/-- The record a pending `hello` comes back with has the name that was upserted, and the key if no
    command has landed on the row since. -/
theorem Wrote.record {h : PendingHello} (hw : Wrote h) {t : BuilderTable} {record : BuilderRecord}
    (hkept : match h.upserted with
      | .readBack id _ => ∀ row ∈ t.rows, row.id = id → row.name = h.row.name
      | .outcome _ => True)
    (hget : helloGet t h.upserted = some record) :
    (∃ id fallback, h.upserted = .readBack id fallback) ∧ record.name = h.row.name ∧
      (Binds t h.row.name h.row.pubkey → record.pubkey = h.row.pubkey) ∧
      ∀ conn, Vouched
        ⟨conn, h.row.name, h.row.pubkey, h.established, h.met, h.left⟩ := by
  unfold Wrote at hw
  cases hup : h.upserted with
  | outcome o =>
    rw [hup] at hw hget
    exact absurd (hw.symm.trans hget) (by simp)
  | readBack id fallback =>
    rw [hup] at hw hget hkept
    refine ⟨⟨id, fallback, rfl⟩, ?_⟩
    simp only [helloGet] at hget
    split at hget
    · rename_i r hr
      obtain ⟨hm, hid⟩ := BuilderTable.get_eq_some.mp hr
      obtain rfl := Option.some.inj hget
      have hname := hkept r hm hid
      refine ⟨hname, ?_, hw.1⟩
      rintro ⟨row, hm', hname', -, hkey⟩
      rw [BuilderTable.eq_of_name hm hm' (hname.trans hname'.symm)]
      exact hkey
    · obtain ⟨hname, hkey⟩ := hw.2 record hget
      exact ⟨hname, fun _ => hkey, hw.1⟩

/-- A callback that settles on a record has found it active in the table. -/
theorem Sound.auth (h : Sound e) (cb : Callback) (hnone : (e.conns conn).hello = none) :
    Sound (e.act token (.auth conn cb)) := by
  simp only [Enrolling.act, hnone]
  rcases Auth.step_state e.table token (e.conns conn).auth cb with
    ⟨hnot, hstate⟩ | ⟨rfl, hstate⟩ | ⟨key, row, rfl, hfind, hset, hstate⟩
  · rw [if_neg hnot]
    exact h.setConn (fun p hp => absurd hp (by simp))
      fun record hs => h.bound conn record (hstate ▸ hs)
  · have hfresh : ∀ record, ((e.conns conn).auth.step e.table token (.password token)).state ≠
        .established record := by
      intro record hs
      rw [hstate] at hs
      split at hs <;> exact absurd hs (by simp)
    rw [if_pos (show Settles e.table token (.password token) from rfl)]
    refine (h.setConn (fun p hp => absurd hp (by simp)) fun record hs => absurd hs
      (hfresh record)).settle (fun p id fallback hp => ?_) fun record hs => ?_
    · simp [Enrolling.setConn] at hp
    · exact absurd (by simpa [Enrolling.setConn] using hs) (hfresh record)
  · obtain ⟨hm, hkey, hactive⟩ := Auth.findActive_eq_some hfind
    have hrow : ∀ record, ((e.conns conn).auth.step e.table token
        (.publickey (.ed25519 key))).state = .established record →
        Binds e.table record.name record.pubkey := by
      intro record hs
      obtain rfl : row = record := AuthState.established.inj (hstate.symm.trans hs)
      exact ⟨row, hm, rfl, hactive, rfl⟩
    rw [if_pos hset]
    refine (h.setConn (fun p hp => absurd hp (by simp)) fun record hs _ => hrow record hs).settle
      (fun p id fallback hp => ?_) fun record hs => hrow record ?_
    · simp [Enrolling.setConn] at hp
    · simpa [Enrolling.setConn] using hs

/-- The upsert of a fresh enrollment is guarded; an established connection's row is untouched. -/
theorem Sound.upsert (h : Sound e) (name : BuilderName) (capabilities : BuilderCapabilities)
    (hok : e.Orderly (.upsert conn name capabilities)) :
    Sound (e.act token (.upsert conn name capabilities)) := by
  simp only [Enrolling.act]
  split
  · rename_i row hnone hrow
    have hbound : ∀ record, (e.conns conn).auth.state = .established record →
        Binds e.table record.name record.pubkey := by
      intro record hstate
      simp only [Orderly, hstate] at hok
      exact h.bound conn record hstate hok
    have hwrote := wrote_upsert e.table _ name capabilities hrow hbound
    have hkeep : ∀ n key, Binds e.table n key →
        Binds (helloUpsert e.table (e.conns conn).auth.state name capabilities).1 n key :=
      fun n key hb => hb.helloUpsert _ _ _
    generalize helloUpsert e.table (e.conns conn).auth.state name capabilities = r at hwrote hkeep ⊢
    -- the table first, then the connection, and last that it has looked
    have hset : Sound (Enrolling.setConn { e with table := r.1 } conn { e.conns conn with
        hello := some ⟨row, (e.conns conn).auth.state.isEstablished, e.table, r.2, r.1⟩ }) := by
      refine (h.setTable hkeep).setConn (fun p hp => ?_) fun record hs _ =>
        hkeep _ _ (hbound record hs)
      obtain rfl := Option.some.inj hp
      exact ⟨hwrote, fun id fallback hup _ => (hwrote.vouched hup conn).left⟩
    refine hset.settle (fun p id fallback hp hup => ?_) fun record hs => ?_
    · simp only [Enrolling.setConn, Function.update_self, Option.some.injEq] at hp
      subst hp
      exact (hwrote.vouched hup conn).left
    · simp only [Enrolling.setConn, Function.update_self] at hs
      exact hkeep _ _ (hbound record hs)
  · exact h

theorem Sound.finish (h : Sound e) (hok : e.Orderly (.finish conn)) :
    Sound (e.act token (.finish conn)) := by
  simp only [Enrolling.act]
  split
  · exact h
  · rename_i p hp
    split
    · rename_i record hget
      obtain ⟨⟨id, fallback, hup⟩, hname, hkey, hvouched⟩ :=
        (h.pending conn p hp).record (hok p hp) hget
      have hset : Sound (e.setConn conn
          { auth := { (e.conns conn).auth with state := .established record } }) := by
        refine h.setConn (fun p hp => absurd hp (by simp)) fun r hs hu => ?_
        obtain rfl : record = r := AuthState.established.inj hs
        have hbinds := h.written conn p id fallback hp hup (hname ▸ hu)
        rw [hname, hkey hbinds]
        exact hbinds
      refine ⟨hset.pending, hset.written, hset.bound, fun r hr => ?_⟩
      rcases List.mem_append.mp hr with hr | hr
      · exact h.log r hr
      · rw [List.mem_singleton.mp hr, hname]
        exact hvouched conn
    · exact h.setConn (fun p hp => absurd hp (by simp))
        fun record hs hu => h.bound conn record hs hu

theorem Sound.act (h : Sound e) (a : EnrollAct) (hok : e.Orderly a) : Sound (e.act token a) := by
  cases a with
  | auth conn cb =>
    cases hhello : (e.conns conn).hello with
    | none => exact h.auth cb hhello
    | some p =>
      simp only [Enrolling.act, hhello]
      exact h
  | upsert conn name capabilities => exact h.upsert name capabilities hok
  | finish conn => exact h.finish hok
  | revoke name now => exact h.command fun n key hb => hb.revoke
  | remove name => exact h.command fun n key hb => hb.remove
  | rename old new => exact h.command fun n key hb => hb.rename

theorem Sound.run {as : List EnrollAct} : ∀ {e : Enrolling}, Sound e →
    Steps (Enrolling.act token) Orderly e as → Sound (e.run token as) := by
  induction as with
  | nil => exact fun h _ => h
  | cons a as ih => exact fun h hsteps => ih (h.act a hsteps.1) hsteps.2

theorem sound_start (t : BuilderTable) : Sound (start t) :=
  ⟨fun conn p hp => absurd hp (by simp [start]), fun conn p id fallback hp => absurd hp
    (by simp [start]), fun conn record hs => absurd hs (by simp [start]),
    fun r hr => absurd hr (by simp [start])⟩

end Invariant

/-- **A revoked builder never comes back by itself.** The table that its `hello`'s upsert met, and
    the one it left, vouch for every connection that is registered. -/
theorem never_back_by_itself (t : BuilderTable) (token : List UInt8) (as : List EnrollAct)
    (hok : Steps (act token) Orderly (start t) as) :
    ∀ r ∈ ((start t).run token as).log, Vouched r :=
  ((sound_start t).run hok).log

/-! ## Before the `hello` and after it -/

/-- A second key. -/
def otherKey : BuilderPubkey := ⟨List.replicate 32 9, by decide⟩

/-- `build01` connects and registers, and is revoked then. Its next connection is refused by its
    key; with the token it is a fresh enrollment, and the upsert refuses that. A builder that
    enrolls as `build02` is registered, and again when it reconnects. -/
def revokedLater : List EnrollAct :=
  [.auth 0 (.publickey (.ed25519 build01Key)), .upsert 0 ⟨"build01"⟩ build01Caps, .finish 0,
    .revoke ⟨"build01"⟩ 100, .auth 1 (.publickey (.ed25519 build01Key)), .auth 1 (.password [1]),
    .upsert 1 ⟨"build01"⟩ build01Caps, .finish 1,
    .auth 2 (.publickey (.ed25519 otherKey)), .auth 2 (.password [1]),
    .upsert 2 ⟨"build02"⟩ build01Caps, .finish 2,
    .auth 3 (.publickey (.ed25519 otherKey)), .remove ⟨"build01"⟩,
    .upsert 3 ⟨"build02"⟩ build01Caps, .finish 3]

theorem never_back_by_itself_revokedLater :
    (((start enrolled).run [1] revokedLater).log.map fun r =>
        (r.conn, r.name.asStr, r.established)) =
        [(0, "build01", true), (2, "build02", false), (3, "build02", true)] ∧
      ∀ r ∈ ((start enrolled).run [1] revokedLater).log, Vouched r :=
  ⟨by decide, never_back_by_itself enrolled [1] revokedLater (by decide)⟩

/-- The revocation falls between the authentication and the `hello`. -/
def revokedBetween : List EnrollAct :=
  [.auth 0 (.publickey (.ed25519 build01Key)), .revoke ⟨"build01"⟩ 100,
    .upsert 0 ⟨"build01"⟩ build01Caps, .finish 0]

theorem not_never_back_by_itself :
    ¬ ∀ (t : BuilderTable) (token : List UInt8) (as : List EnrollAct),
      ∀ r ∈ ((start t).run token as).log, Vouched r := by
  intro hall
  have hlog : ((start enrolled).run [1] revokedBetween).log =
      [⟨0, ⟨"build01"⟩, build01Key, true, (enrolled.revoke ⟨"build01"⟩ 100).1,
        (enrolled.revoke ⟨"build01"⟩ 100).1⟩] := rfl
  obtain ⟨row, hm, -, hactive, -⟩ := (hall enrolled [1] revokedBetween _
    (hlog ▸ List.mem_singleton_self _)).left
  have hrevoked : ∀ row ∈ (enrolled.revoke ⟨"build01"⟩ 100).1.rows, row.revokedAt ≠ none := by
    decide
  exact hrevoked row hm hactive

end Enrolling

end Argunix.Builders
