import Mathlib.Data.List.Nodup
import Mathlib.Data.List.Induction
import Argunix.Builders.Registry

/-!
# Enrollment: who may use a builder's name

A builder is a row of the `builders` table: a name, the key that first enrolled it, capabilities,
and perhaps a revocation. A connection authenticates by a sequence of callbacks. `auth_publickey`
comes with a verified signature and establishes the connection as the row of that key;
`auth_password` compares the shared enrollment token and makes it a fresh enrollment, with whatever
key was presented last. The `hello` that follows upserts the row and registers the connection.

The upsert guards a name by its key. But the key of a fresh enrollment need not be one the client
can sign with: `auth_publickey_offered` records a key that was merely *offered*, and public keys
are public. A client that knows the token and a builder's public key offers it, sends the token,
and says `hello` with that builder's name. `only_key_holder_iff` says that this is the one way.

Errors of the store other than the name conflict are left out, and so are the timestamps.
-/

set_option autoImplicit false

namespace Argunix

/-- Raw ed25519 public key. -/
structure BuilderPubkey where
  bytes : List UInt8
  length_eq : bytes.length = 32
deriving DecidableEq, Repr

end Argunix

namespace Argunix.Builders

/-- A row of `builders`. -/
structure BuilderRecord where
  id : ℕ
  name : BuilderName
  pubkey : BuilderPubkey
  capabilities : BuilderCapabilities
  revokedAt : Option ℕ
deriving DecidableEq, Repr

/-- What `upsert` is called with. -/
structure NewBuilder where
  name : BuilderName
  pubkey : BuilderPubkey
  capabilities : BuilderCapabilities

/-- The `builders` table, ordered by id: `UNIQUE(name)`, `PRIMARY KEY AUTOINCREMENT`. -/
structure BuilderTable where
  rows : List BuilderRecord
  nextId : ℕ
  names : (rows.map (·.name)).Nodup
  ids : (rows.map (·.id)).Nodup
  minted : ∀ r ∈ rows, r.id < nextId

namespace BuilderTable

/-! ## The statements -/

/-- Nobody has enrolled. -/
def empty : BuilderTable := ⟨[], 0, List.nodup_nil, List.nodup_nil, by simp⟩

/-- `find_by_name`: the name is unique. -/
def findByName (t : BuilderTable) (name : BuilderName) : Option BuilderRecord :=
  t.rows.find? fun r => r.name = name

/-- `get` -/
def get (t : BuilderTable) (id : ℕ) : Option BuilderRecord := t.rows.find? fun r => r.id = id

/-- `find_active_by_pubkey`: a revoked row does not authenticate. -/
def findActiveByPubkey (t : BuilderTable) (pubkey : BuilderPubkey) : Option BuilderRecord :=
  t.rows.find? fun r => r.pubkey = pubkey ∧ r.revokedAt = none

/-- An `UPDATE` that leaves ids and names alone. -/
def update (t : BuilderTable) (f : BuilderRecord → BuilderRecord) (hid : ∀ r, (f r).id = r.id)
    (hname : ∀ r, (f r).name = r.name) : BuilderTable :=
  { rows := t.rows.map f
    nextId := t.nextId
    names := by simpa [Function.comp_def, hname] using t.names
    ids := by simpa [Function.comp_def, hid] using t.ids
    minted := by
      intro r hr
      obtain ⟨r', hr', rfl⟩ := List.mem_map.mp hr
      rw [hid]
      exact t.minted r' hr' }

theorem findByName_eq_none {t : BuilderTable} {name : BuilderName} :
    t.findByName name = none ↔ name ∉ t.rows.map (·.name) := by
  simp [findByName]

/-- The row `INSERT` writes. The name is free; the key may be that of another row. -/
def insert (t : BuilderTable) (new : NewBuilder) (hname : new.name ∉ t.rows.map (·.name)) :
    BuilderTable :=
  { rows := t.rows ++ [⟨t.nextId, new.name, new.pubkey, new.capabilities, none⟩]
    nextId := t.nextId + 1
    names := by
      rw [List.map_append]
      refine List.nodup_append.mpr ⟨t.names, List.nodup_singleton _, ?_⟩
      rintro n hn m hm rfl
      exact hname (by simpa [List.mem_singleton.mp hm] using hn)
    ids := by
      rw [List.map_append]
      refine List.nodup_append.mpr ⟨t.ids, List.nodup_singleton _, ?_⟩
      rintro n hn m hm rfl
      obtain ⟨r, hr, hid⟩ := List.mem_map.mp hn
      have hlt := t.minted r hr
      have hm : n = t.nextId := by simpa using hm
      omega
    minted := by
      intro r hr
      rcases List.mem_append.mp hr with hr | hr
      · exact (t.minted r hr).trans (Nat.lt_succ_self _)
      · rw [List.mem_singleton.mp hr]
        exact Nat.lt_succ_self _ }

/-- `INSERT .. ON CONFLICT(name) DO UPDATE .. WHERE` the key is the stored one and the row is not
    revoked, `RETURNING id`. No id is a `BuilderNameConflict`. -/
def upsert (t : BuilderTable) (new : NewBuilder) : BuilderTable × Option ℕ :=
  match h : t.findByName new.name with
  | none => (t.insert new (findByName_eq_none.mp h), some t.nextId)
  | some row =>
    if row.pubkey = new.pubkey ∧ row.revokedAt = none then
      (t.update (fun r => if r.name = new.name then { r with capabilities := new.capabilities }
        else r) (fun r => by split <;> rfl) fun r => by split <;> rfl, some row.id)
    else (t, none)

/-- `revoke`, with whether there was such a row. -/
def revoke (t : BuilderTable) (name : BuilderName) (now : ℕ) : BuilderTable × Bool :=
  (t.update (fun r => if r.name = name then { r with revokedAt := some now } else r)
    (fun r => by split <;> rfl) fun r => by split <;> rfl, (t.findByName name).isSome)

/-- `DELETE FROM builders` -/
def remove (t : BuilderTable) (name : BuilderName) : BuilderTable × Bool :=
  ({ rows := t.rows.filter fun r => r.name ≠ name
     nextId := t.nextId
     names := t.names.sublist (List.filter_sublist.map _)
     ids := t.ids.sublist (List.filter_sublist.map _)
     minted := fun r hr => t.minted r (List.mem_of_mem_filter hr) },
    (t.findByName name).isSome)

/-- `UPDATE builders SET name`. A name that is taken violates `UNIQUE(name)`. -/
def rename (t : BuilderTable) (old new : BuilderName) : BuilderTable × Bool :=
  if h : old ∈ t.rows.map (·.name) ∧ (new = old ∨ new ∉ t.rows.map (·.name)) then
    ({ rows := t.rows.map fun r => if r.name = old then { r with name := new } else r
       nextId := t.nextId
       names := by
        have hmap : (t.rows.map fun r => if r.name = old then { r with name := new } else r).map
            (·.name) = (t.rows.map (·.name)).map fun n => if n = old then new else n := by
          rw [List.map_map, List.map_map]
          refine List.map_congr_left fun r _ => ?_
          by_cases hr : r.name = old <;> simp [hr]
        rw [hmap]
        refine t.names.map_on fun x hx y hy hxy => ?_
        by_cases hxo : x = old <;> by_cases hyo : y = old
        · exact hxo.trans hyo.symm
        · rw [if_pos hxo, if_neg hyo] at hxy
          exact absurd (hxy ▸ hy) (h.2.resolve_left fun heq => hyo (hxy.symm.trans heq))
        · rw [if_neg hxo, if_pos hyo] at hxy
          exact absurd (hxy ▸ hx) (h.2.resolve_left fun heq => hxo (hxy.trans heq))
        · simpa [hxo, hyo] using hxy
       ids := by
        have hmap : (t.rows.map fun r => if r.name = old then { r with name := new } else r).map
            (·.id) = t.rows.map (·.id) := by
          rw [List.map_map]
          refine List.map_congr_left fun r _ => ?_
          by_cases hr : r.name = old <;> simp [hr]
        rw [hmap]
        exact t.ids
       minted := by
        intro r hr
        obtain ⟨r', hr', rfl⟩ := List.mem_map.mp hr
        have hid := t.minted r' hr'
        by_cases hn : r'.name = old <;> simpa [hn] using hid }, true)
  else (t, false)

/-! ## What the statements answer -/

variable {t : BuilderTable} {name : BuilderName} {new : NewBuilder} {row : BuilderRecord}

/-- A name belongs to one row. -/
theorem eq_of_name {r r' : BuilderRecord} (hr : r ∈ t.rows) (hr' : r' ∈ t.rows)
    (hname : r.name = r'.name) : r = r' :=
  List.inj_on_of_nodup_map t.names hr hr' hname

theorem eq_of_id {r r' : BuilderRecord} (hr : r ∈ t.rows) (hr' : r' ∈ t.rows)
    (hid : r.id = r'.id) : r = r' :=
  List.inj_on_of_nodup_map t.ids hr hr' hid

theorem findByName_eq_some : t.findByName name = some row ↔ row ∈ t.rows ∧ row.name = name := by
  constructor
  · intro h
    exact ⟨List.mem_of_find?_eq_some h, by simpa using List.find?_some h⟩
  · rintro ⟨hm, rfl⟩
    cases h : t.findByName row.name with
    | none => exact absurd (List.mem_map_of_mem hm) (findByName_eq_none.mp h)
    | some row' =>
      have hname : row'.name = row.name := by simpa using List.find?_some h
      rw [eq_of_name (List.mem_of_find?_eq_some h) hm hname]

theorem get_eq_some {id : ℕ} : t.get id = some row ↔ row ∈ t.rows ∧ row.id = id := by
  constructor
  · intro h
    exact ⟨List.mem_of_find?_eq_some h, by simpa using List.find?_some h⟩
  · rintro ⟨hm, rfl⟩
    cases h : t.get row.id with
    | none => exact absurd (decide_eq_true rfl) (List.find?_eq_none.mp h row hm)
    | some row' =>
      have hid : row'.id = row.id := by simpa using List.find?_some h
      rw [eq_of_id (List.mem_of_find?_eq_some h) hm hid]

/-- A row that an upsert can write to: its key is the one that is presented, and it is active. -/
def Writable (t : BuilderTable) (new : NewBuilder) : Prop :=
  ∀ row ∈ t.rows, row.name = new.name → row.pubkey = new.pubkey ∧ row.revokedAt = none

instance (t : BuilderTable) (new : NewBuilder) : Decidable (t.Writable new) :=
  inferInstanceAs (Decidable (∀ row ∈ t.rows, _))

/-- **The upsert's answer.** It writes if and only if the name is free or bound to the key, and
    then there is a row of that name with that key, active, under the id it returns. -/
theorem upsert_spec (t : BuilderTable) (new : NewBuilder) :
    (t.Writable new ∧ ∃ id row, (t.upsert new).2 = some id ∧ (t.upsert new).1.get id = some row ∧
        row.name = new.name ∧ row.pubkey = new.pubkey ∧ row.revokedAt = none) ∨
      (¬ t.Writable new ∧ t.upsert new = (t, none)) := by
  unfold upsert
  split
  · rename_i hfree
    have hnone := findByName_eq_none.mp hfree
    refine Or.inl ⟨fun row hm hname => absurd (hname ▸ List.mem_map_of_mem hm) hnone,
      t.nextId, ⟨t.nextId, new.name, new.pubkey, new.capabilities, none⟩, rfl, ?_, rfl, rfl, rfl⟩
    exact get_eq_some.mpr ⟨List.mem_append_right _ (List.mem_singleton_self _), rfl⟩
  · rename_i row hfound
    obtain ⟨hm, hname⟩ := findByName_eq_some.mp hfound
    split
    · rename_i hok
      refine Or.inl ⟨fun row' hm' hname' => ?_, row.id,
        { row with capabilities := new.capabilities }, rfl, ?_, hname, hok.1, hok.2⟩
      · rw [eq_of_name hm' hm (hname'.trans hname.symm)]
        exact hok
      · refine get_eq_some.mpr ⟨List.mem_map.mpr ⟨row, hm, ?_⟩, rfl⟩
        rw [if_pos hname]
    · rename_i hbad
      exact Or.inr ⟨fun hw => hbad (hw row hm hname), rfl⟩

end BuilderTable

/-! ## Authentication -/

/-- What a connection has shown. -/
inductive AuthState
  | unauthenticated
  | freshEnrollment (pubkey : BuilderPubkey)
  | established (record : BuilderRecord)
deriving DecidableEq, Repr

/-- What `ed25519_pubkey_bytes` makes of a key. -/
inductive SshKey
  | ed25519 (key : BuilderPubkey)
  | other
deriving DecidableEq, Repr

/-- The callbacks russh makes. `publickey` comes after a signature by the key has been verified. -/
inductive Callback
  | offered (key : SshKey)
  | publickey (key : SshKey)
  | password (presented : List UInt8)
deriving DecidableEq, Repr

/-- What a connection's handler remembers between the callbacks. -/
structure Auth where
  state : AuthState := .unauthenticated
  offered : Option BuilderPubkey := none
deriving DecidableEq, Repr

/-- `constant_time_eq` -/
def constantTimeEq (a b : List UInt8) : Bool :=
  if a.length ≠ b.length then false
  else (a.zip b).foldl (fun acc xy => acc ||| (xy.1 ^^^ xy.2)) 0 = 0

namespace Auth

/-- `auth_publickey_offered`: the key is remembered, its signature not asked for yet. -/
def authPublickeyOffered (h : Auth) : SshKey → Auth
  | .ed25519 key => { h with offered := some key }
  | .other => h

/-- A key without an active row is remembered all the same. -/
def authPublickey (t : BuilderTable) (h : Auth) : SshKey → Auth
  | .ed25519 key =>
    let h := { h with offered := some key }
    match t.findActiveByPubkey key with
    | some record => { h with state := .established record }
    | none => h
  | .other => h

/-- `auth_password`: the token enrols the key that was offered before. -/
def authPassword (token : List UInt8) (h : Auth) (presented : List UInt8) : Auth :=
  if constantTimeEq presented token then
    match h.offered with
    | some key => { h with state := .freshEnrollment key }
    | none => { h with state := .unauthenticated }
  else h

/-- One callback of the SSH server. -/
def step (t : BuilderTable) (token : List UInt8) (h : Auth) : Callback → Auth
  | .offered key => h.authPublickeyOffered key
  | .publickey key => h.authPublickey t key
  | .password presented => h.authPassword token presented

/-- The callbacks of a connection, one after the other. -/
def run (t : BuilderTable) (token : List UInt8) (cbs : List Callback) : Auth :=
  cbs.foldl (step t token) {}

end Auth

/-! ## `hello` -/

/-- After the upsert: the row is to be read back, with what to fall back on; or there is an outcome
    already. -/
inductive Upserted
  | readBack (id : ℕ) (fallback : Option BuilderRecord)
  | outcome (record : Option BuilderRecord)
deriving DecidableEq, Repr

/-- The row a `hello` upserts: its own name for a fresh enrollment, the row's name else. -/
def helloRow (state : AuthState) (name : BuilderName) (capabilities : BuilderCapabilities) :
    Option NewBuilder :=
  match state with
  | .freshEnrollment pubkey => some ⟨name, pubkey, capabilities⟩
  | .established record => some ⟨record.name, record.pubkey, capabilities⟩
  | .unauthenticated => none

/-- A name conflict rejects a fresh enrollment; an established connection keeps the record it
    authenticated with. -/
def helloUpsert (t : BuilderTable) (state : AuthState) (name : BuilderName)
    (capabilities : BuilderCapabilities) : BuilderTable × Upserted :=
  match state with
  | .freshEnrollment pubkey =>
    match t.upsert ⟨name, pubkey, capabilities⟩ with
    | (t, some id) => (t, .readBack id none)
    | (t, none) => (t, .outcome none)
  | .established record =>
    match t.upsert ⟨record.name, record.pubkey, capabilities⟩ with
    | (t, some id) => (t, .readBack id (some record))
    | (t, none) => (t, .outcome (some record))
  | .unauthenticated => (t, .outcome none)

/-- `hello` reads the row back that it has written. -/
def helloGet (t : BuilderTable) : Upserted → Option BuilderRecord
  | .readBack id fallback =>
    match t.get id with
    | some record => some record
    | none => fallback
  | .outcome record => record

/-- The record a `hello` registers the connection with, when nothing comes in between. -/
def hello (t : BuilderTable) (state : AuthState) (name : BuilderName)
    (capabilities : BuilderCapabilities) : Option BuilderRecord :=
  let r := helloUpsert t state name capabilities
  helloGet r.1 r.2

section Hello

variable {t : BuilderTable} {name : BuilderName} {capabilities : BuilderCapabilities}
  {record : BuilderRecord}

variable (t name capabilities) in
/-- A fresh enrollment registers under the name it asks for, if the upsert lets it. -/
theorem hello_fresh (key : BuilderPubkey) :
    (t.Writable ⟨name, key, capabilities⟩ ∧
        ∃ record, hello t (.freshEnrollment key) name capabilities = some record ∧
          record.name = name) ∨
      (¬ t.Writable ⟨name, key, capabilities⟩ ∧
        hello t (.freshEnrollment key) name capabilities = none) := by
  rcases t.upsert_spec ⟨name, key, capabilities⟩ with ⟨hw, id, row, hid, hget, hname, -⟩ | ⟨hw, heq⟩
  · refine Or.inl ⟨hw, row, ?_, hname⟩
    simp only [hello, helloUpsert]
    generalize hup : t.upsert ⟨name, key, capabilities⟩ = up at hid hget
    obtain ⟨t', answer⟩ := up
    simp only at hid hget
    subst hid
    simp only [helloGet, hget]
  · refine Or.inr ⟨hw, ?_⟩
    simp only [hello, helloUpsert, heq, helloGet]

/-- An established connection registers under the name of its row, whatever the upsert says. -/
theorem hello_established {r : BuilderRecord}
    (h : hello t (.established record) name capabilities = some r) : r.name = record.name := by
  rcases t.upsert_spec ⟨record.name, record.pubkey, capabilities⟩ with
    ⟨-, id, row, hid, hget, hname, -⟩ | ⟨-, heq⟩
  · simp only [hello, helloUpsert] at h
    generalize hup : t.upsert ⟨record.name, record.pubkey, capabilities⟩ = up at h hid hget
    obtain ⟨t', answer⟩ := up
    simp only at hid hget
    subst hid
    simp only [helloGet, hget] at h
    rw [← Option.some.inj h]
    exact hname
  · simp only [hello, helloUpsert, heq, helloGet] at h
    rw [← Option.some.inj h]

end Hello

/-! ## What a sequence of callbacks leads to -/

theorem foldl_xor_eq_zero : ∀ {a b : List UInt8} (acc : UInt8), a.length = b.length →
    ((a.zip b).foldl (fun acc xy => acc ||| (xy.1 ^^^ xy.2)) acc = 0 ↔ acc = 0 ∧ a = b) := by
  intro a
  induction a with
  | nil =>
    intro b acc hlen
    have hnil : b = [] := List.length_eq_zero_iff.mp hlen.symm
    simp [hnil]
  | cons x a ih =>
    intro b acc hlen
    cases b with
    | nil => exact absurd hlen (by simp)
    | cons y b =>
      have hlen : a.length = b.length := by simpa using hlen
      rw [List.zip_cons_cons, List.foldl_cons, ih _ hlen, UInt8.or_eq_zero_iff,
        UInt8.xor_eq_zero_iff, List.cons.injEq, and_assoc]

/-- The comparison of the token is an equality. -/
theorem constantTimeEq_iff {a b : List UInt8} : constantTimeEq a b = true ↔ a = b := by
  unfold constantTimeEq
  by_cases hlen : a.length = b.length
  · rw [if_neg (not_not.mpr hlen), decide_eq_true_eq, foldl_xor_eq_zero 0 hlen]
    simp
  · rw [if_pos hlen]
    constructor
    · exact fun h => absurd h (by simp)
    · exact fun h => absurd (congrArg List.length h) hlen

/-- The ed25519 key a callback presents, signed for or not. -/
def Callback.key? : Callback → Option BuilderPubkey
  | .offered (.ed25519 key) | .publickey (.ed25519 key) => some key
  | _ => none

/-- The key that was presented last. -/
def lastKey (cbs : List Callback) : Option BuilderPubkey := (cbs.filterMap Callback.key?).getLast?

/-- The callback decides what the connection is: the right token, or a signature by the key of an
    active row. -/
def Settles (t : BuilderTable) (token : List UInt8) : Callback → Prop
  | .password presented => presented = token
  | .publickey (.ed25519 key) => ∃ row ∈ t.rows, row.pubkey = key ∧ row.revokedAt = none
  | _ => False

instance (t : BuilderTable) (token : List UInt8) (cb : Callback) :
    Decidable (Settles t token cb) := by
  unfold Settles
  split <;> infer_instance

/-- A signature by the key has been verified on the connection. -/
def Signed (key : BuilderPubkey) (cbs : List Callback) : Prop :=
  Callback.publickey (.ed25519 key) ∈ cbs

namespace Auth

variable {t : BuilderTable} {token : List UInt8} {cbs : List Callback} {key : BuilderPubkey}

theorem run_append (cb : Callback) : run t token (cbs ++ [cb]) = (run t token cbs).step t token cb :=
  List.foldl_append

theorem lastKey_append (cb : Callback) : lastKey (cbs ++ [cb]) = cb.key?.or (lastKey cbs) := by
  unfold lastKey
  rw [List.filterMap_append, List.getLast?_append]
  cases h : cb.key? <;> simp [h]

theorem step_offered (h : Auth) (cb : Callback) :
    (h.step t token cb).offered = cb.key?.or h.offered := by
  cases cb with
  | offered key => cases key <;> rfl
  | publickey key =>
    cases key with
    | other => rfl
    | ed25519 key =>
      simp only [step, authPublickey]
      split <;> rfl
  | password presented =>
    simp only [step, authPassword]
    split
    · split <;> rename_i hoff <;> simp [Callback.key?, hoff]
    · rfl

theorem run_offered (cbs : List Callback) : (run t token cbs).offered = lastKey cbs := by
  induction cbs using List.reverseRecOn with
  | nil => rfl
  | append_singleton cbs cb ih => rw [run_append, step_offered, ih, lastKey_append]

theorem findActive_eq_some {row : BuilderRecord} (h : t.findActiveByPubkey key = some row) :
    row ∈ t.rows ∧ row.pubkey = key ∧ row.revokedAt = none :=
  ⟨List.mem_of_find?_eq_some h, by simpa using List.find?_some h⟩

theorem findActive_eq_none (h : t.findActiveByPubkey key = none) :
    ∀ row ∈ t.rows, ¬ (row.pubkey = key ∧ row.revokedAt = none) := by
  intro row hm
  simpa using List.find?_eq_none.mp h row hm

variable (t token) in
/-- What a callback makes of the state. -/
theorem step_state (h : Auth) (cb : Callback) :
    (¬ Settles t token cb ∧ (h.step t token cb).state = h.state) ∨
      (cb = .password token ∧ (h.step t token cb).state =
        match h.offered with | some key => .freshEnrollment key | none => .unauthenticated) ∨
      (∃ key row, cb = .publickey (.ed25519 key) ∧ t.findActiveByPubkey key = some row ∧
        Settles t token cb ∧ (h.step t token cb).state = .established row) := by
  cases cb with
  | offered key => cases key <;> exact Or.inl ⟨id, rfl⟩
  | publickey key =>
    cases key with
    | other => exact Or.inl ⟨id, rfl⟩
    | ed25519 key =>
      cases hfind : t.findActiveByPubkey key with
      | none =>
        refine Or.inl ⟨fun ⟨row, hm, hrow⟩ => findActive_eq_none hfind row hm hrow, ?_⟩
        simp only [step, authPublickey, hfind]
      | some row =>
        obtain ⟨hm, hrow⟩ := findActive_eq_some hfind
        refine Or.inr (Or.inr ⟨key, row, rfl, hfind, ⟨row, hm, hrow⟩, ?_⟩)
        simp only [step, authPublickey, hfind]
  | password presented =>
    by_cases htoken : presented = token
    · subst htoken
      refine Or.inr (Or.inl ⟨rfl, ?_⟩)
      simp only [step, authPassword]
      rw [if_pos (constantTimeEq_iff.mpr rfl)]
      split <;> rfl
    · refine Or.inl ⟨htoken, ?_⟩
      simp only [step, authPassword]
      rw [if_neg fun h => htoken (constantTimeEq_iff.mp h)]

theorem foldl_unsettled {post : List Callback} (h : ∀ cb ∈ post, ¬ Settles t token cb) :
    ∀ a : Auth, (post.foldl (step t token) a).state = a.state := by
  induction post with
  | nil => exact fun _ => rfl
  | cons cb post ih =>
    intro a
    rw [List.foldl_cons, ih (fun c hc => h c (List.mem_cons_of_mem cb hc))]
    rcases step_state t token a cb with
      ⟨-, heq⟩ | ⟨rfl, -⟩ | ⟨_, _, -, -, hset, -⟩
    · exact heq
    · exact absurd rfl (h _ List.mem_cons_self)
    · exact absurd hset (h cb List.mem_cons_self)

/-- **A connection is a fresh enrollment with a key** exactly if the token was the last callback
    that settled anything, and the key the last one presented before it. -/
theorem run_fresh_iff : (run t token cbs).state = .freshEnrollment key ↔
    ∃ pre post, cbs = pre ++ .password token :: post ∧ lastKey pre = some key ∧
      ∀ cb ∈ post, ¬ Settles t token cb := by
  constructor
  · induction cbs using List.reverseRecOn with
    | nil => exact fun h => absurd h (by simp [run])
    | append_singleton cbs cb ih =>
      intro h
      rw [run_append] at h
      rcases step_state t token (run t token cbs) cb with
        ⟨hnot, heq⟩ | ⟨rfl, heq⟩ | ⟨_, _, -, -, -, heq⟩
      · obtain ⟨pre, post, rfl, hkey, hpost⟩ := ih (heq ▸ h)
        refine ⟨pre, post ++ [cb], by simp, hkey, fun c hc => ?_⟩
        rcases List.mem_append.mp hc with hc | hc
        · exact hpost c hc
        · rw [List.mem_singleton.mp hc]
          exact hnot
      · rw [heq, run_offered] at h
        refine ⟨cbs, [], rfl, ?_, by simp⟩
        cases hl : lastKey cbs with
        | none => exact absurd h (by simp [hl])
        | some k => simpa [hl] using h
      · exact absurd (heq.symm.trans h) (by simp)
  · rintro ⟨pre, post, rfl, hkey, hpost⟩
    have hsplit : run t token (pre ++ .password token :: post) =
        post.foldl (step t token) ((run t token pre).step t token (.password token)) := by
      unfold run
      rw [List.foldl_append, List.foldl_cons]
    rw [hsplit, foldl_unsettled hpost]
    rcases step_state t token (run t token pre) (.password token) with
      ⟨hnot, -⟩ | ⟨-, heq⟩ | ⟨_, _, hcb, -⟩
    · exact absurd rfl hnot
    · rw [heq, run_offered, hkey]
    · exact absurd hcb (by simp)

/-- An established connection has signed with the key of its row. -/
theorem run_established {record : BuilderRecord}
    (h : (run t token cbs).state = .established record) :
    record ∈ t.rows ∧ Signed record.pubkey cbs := by
  induction cbs using List.reverseRecOn with
  | nil => exact absurd h (by simp [run])
  | append_singleton cbs cb ih =>
    rw [run_append] at h
    rcases step_state t token (run t token cbs) cb with
      ⟨-, heq⟩ | ⟨-, heq⟩ | ⟨key, row, rfl, hfind, -, heq⟩
    · obtain ⟨hm, hsigned⟩ := ih (heq ▸ h)
      exact ⟨hm, List.mem_append_left _ hsigned⟩
    · rw [heq] at h
      split at h <;> exact absurd h (by simp)
    · obtain rfl : row = record := by simpa [heq] using h
      obtain ⟨hm, rfl, -⟩ := findActive_eq_some hfind
      exact ⟨hm, List.mem_append_right _ (List.mem_singleton_self _)⟩

end Auth

/-! ## Only the key holder -/

/-- The connection is registered under the name of an existing active row only if it has signed
    with the row's key. -/
def OnlyKeyHolder (t : BuilderTable) (token : List UInt8) (cbs : List Callback)
    (name : BuilderName) (capabilities : BuilderCapabilities) : Prop :=
  ∀ record, hello t (Auth.run t token cbs).state name capabilities = some record →
    ∀ row ∈ t.rows, row.name = record.name → row.revokedAt = none → Signed row.pubkey cbs

/-- The key of the row under the name was presented before the token, last of all, and never
    signed with; and nothing was settled after the token. -/
def Impersonates (t : BuilderTable) (token : List UInt8) (cbs : List Callback)
    (name : BuilderName) : Prop :=
  ∃ row ∈ t.rows, row.name = name ∧ row.revokedAt = none ∧ ¬ Signed row.pubkey cbs ∧
    ∃ pre post, cbs = pre ++ .password token :: post ∧ lastKey pre = some row.pubkey ∧
      ∀ cb ∈ post, ¬ Settles t token cb

/-- **Only the key holder can use an enrolled name**, unless the key was offered and not signed
    with. -/
theorem only_key_holder_iff (t : BuilderTable) (token : List UInt8) (cbs : List Callback)
    (name : BuilderName) (capabilities : BuilderCapabilities) :
    OnlyKeyHolder t token cbs name capabilities ↔ ¬ Impersonates t token cbs name := by
  constructor
  · rintro honly ⟨row, hm, rfl, hactive, hunsigned, hcbs⟩
    have hstate := Auth.run_fresh_iff.mpr hcbs
    rcases hello_fresh t row.name capabilities row.pubkey with
      ⟨-, record, hreg, hname⟩ | ⟨hw, -⟩
    · rw [← hstate] at hreg
      exact hunsigned (honly record hreg row hm hname.symm hactive)
    · refine hw fun row' hm' hname => ?_
      rw [BuilderTable.eq_of_name hm' hm hname]
      exact ⟨rfl, hactive⟩
  · intro himp record hreg row hm hname hactive
    cases hstate : (Auth.run t token cbs).state with
    | unauthenticated =>
      rw [hstate] at hreg
      exact absurd hreg (by simp [hello, helloUpsert, helloGet])
    | established established =>
      rw [hstate] at hreg
      obtain ⟨hin, hsigned⟩ := Auth.run_established hstate
      have heq : row = established :=
        BuilderTable.eq_of_name hm hin (hname.trans (hello_established hreg))
      rw [heq]
      exact hsigned
    | freshEnrollment key =>
      by_contra hunsigned
      rw [hstate] at hreg
      rcases hello_fresh t name capabilities key with
        ⟨hw, record', hreg', hname'⟩ | ⟨-, hnone⟩
      · obtain rfl : record' = record := Option.some.inj (hreg'.symm.trans hreg)
        obtain ⟨rfl, -⟩ := hw row hm (hname.trans hname')
        exact himp ⟨row, hm, hname.trans hname', hactive, hunsigned, Auth.run_fresh_iff.mp hstate⟩
      · exact absurd (hnone.symm.trans hreg) (by simp)

/-- The key of `build01`, as everybody can know it. -/
def build01Key : BuilderPubkey := ⟨List.replicate 32 7, by decide⟩

/-- An ordinary builder. -/
def build01Caps : BuilderCapabilities := ⟨["x86_64-linux"], "x86_64-linux", [], 4⟩

/-- The table once it has enrolled. -/
def enrolled : BuilderTable := (BuilderTable.empty.upsert ⟨⟨"build01"⟩, build01Key, build01Caps⟩).1

/-- The key is offered and never signed with; the token does the rest. -/
theorem not_only_key_holder :
    ¬ ∀ (t : BuilderTable) (token : List UInt8) (cbs : List Callback) (name : BuilderName)
      (capabilities : BuilderCapabilities), OnlyKeyHolder t token cbs name capabilities := by
  intro hall
  have hsigned := hall enrolled [1, 2, 3] [.offered (.ed25519 build01Key), .password [1, 2, 3]]
    ⟨"build01"⟩ build01Caps ⟨0, ⟨"build01"⟩, build01Key, build01Caps, none⟩ (by decide)
    ⟨0, ⟨"build01"⟩, build01Key, build01Caps, none⟩ (by decide) rfl rfl
  exact absurd hsigned (by simp [Signed])

end Argunix.Builders
