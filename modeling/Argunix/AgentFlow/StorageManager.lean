import Argunix.AgentFlow.StorageBackend
import Argunix.Lib.Runs

/-!
# AgentFlow: the storage of objects

`StorageManagerAgent` writes every object to its primary backend and looks for it there first. What
that is, is decided twice. `StorageConfig::get_primary` goes by the kind of a backend, and takes the
first if there is none of that kind. The agent looks up `primary_backend` as a *key*; the key is the
kind if there is one backend only, and else the kind and the index. So **with two backends the
default "local" is no key at all, and the agent takes any backend**, the one that its map happens to
iterate over first (`primary_iff`).

`LocalBackend` joins the hash to its directory as a path, and nothing checks it. The path may lead
anywhere (`../x`, `/x`), and the metadata of `a` is in the file `a.meta`, which is also the file of
the object `a.meta`. The other backends put the hash into a URL, and two hashes may name one object
there.

`right_of_run` says that these are all.
-/

set_option autoImplicit false

namespace Argunix.AgentFlow

open Argunix.Lib
open Storage

/-! ## The configuration -/

/-- `StorageConfig`, with the fields that are read. -/
structure StorageConfig where
  backends : List BackendConfig
  primaryBackend : String
  /-- Seconds. -/
  cacheTtl : Option UInt64

/-- The primary backend when none is configured. -/
def defaultPrimary : String := "local"

/-- An entry of the configuration, with its index. -/
abbrev Backend := BackendConfig × ℕ

namespace StorageConfig

/-- `get_primary`: the backend of this name, or the first. -/
def getPrimary (config : StorageConfig) : Option Backend :=
  (config.backends.zipIdx.find? fun b => b.1.name = config.primaryBackend).or
    config.backends.zipIdx.head?

/-- The key of a backend in the map. -/
def key (config : StorageConfig) (b : Backend) : String :=
  if config.backends.length = 1 then b.1.name else b.1.name ++ "-" ++ Nat.repr b.2

/-- The map that `new` builds. -/
def backendMap (config : StorageConfig) : HashMap String Backend :=
  config.backends.zipIdx.foldl (fun backends b => backends.insert (config.key b) b) ∅

end StorageConfig

/-! ## The agent -/

/-- What the cache remembers of an object. -/
structure CacheEntry where
  hash : String
  size : ℕ
  /-- The name of the backend, which is not its key. -/
  backend : String
  timestamp : ℤ
  ttl : Option UInt64
  accesses : UInt64
deriving DecidableEq, Repr

/-- `CacheStatistics` -/
structure CacheStatistics where
  totalObjects : UInt64
  totalSize : UInt64
  hitCount : UInt64
  missCount : UInt64
deriving DecidableEq, Repr

/-- Times are in nanoseconds. -/
def nsPerSecond : ℤ := 1000000000

/-- `num_seconds() as u64`, which is large for an entry of the future. -/
def ageSeconds (now timestamp : ℤ) : UInt64 :=
  UInt64.ofNat (((now - timestamp).tdiv nsPerSecond) % 2 ^ 64).toNat

/-- The manager with the disk and the servers. `last` only records what has happened. -/
structure StorageManagerAgent (N : Type) where
  config : StorageConfig
  backends : HashMap String Backend
  /-- What `backends` iterates over. It is never changed. -/
  order : List Backend
  cache : HashMap String CacheEntry
  stats : CacheStatistics
  storage : Storage N
  /-- The data of the last `store_object` for a hash, unless it was deleted since. -/
  last : HashMap String Bytes
  /-- The backends that `store_object` has written to. -/
  written : List Backend

namespace StorageManagerAgent

variable {N : Type}

/-- A manager that has stored nothing. -/
def new (config : StorageConfig) (order : List Backend) (tree : FileTree) (net : N) :
    StorageManagerAgent N where
  config := config
  backends := config.backendMap
  order := order
  cache := ∅
  stats := ⟨0, 0, 0, 0⟩
  storage := ⟨tree, net, []⟩
  last := ∅
  written := []

/-- `get_backend` -/
def getBackend (s : StorageManagerAgent N) (name : String) : Option Backend :=
  s.backends.lookup name

/-- `get_primary_backend`: the configured one, or the first that the map iterates over. -/
def getPrimaryBackend (s : StorageManagerAgent N) : Option Backend :=
  (s.getBackend s.config.primaryBackend).or s.order.head?

/-- The metadata with what `store_object` adds to it. -/
def fullMetadata (metadata : HashMap String String) (contentType : String) (data : Bytes) :
    HashMap String String :=
  (metadata.insert "content_type" contentType).insert "size" (Nat.repr data.length)

variable [Http N]

/-- `entries` are those of the full metadata, in some order. -/
def storeObject (s : StorageManagerAgent N) (hash : String) (data : Bytes)
    (entries : List (String × String)) (now : ℤ) : Option StorageResult × StorageManagerAgent N :=
  match s.getPrimaryBackend with
  | none => (none, s)
  | some backend =>
    match backend.1.store s.storage hash data entries now with
    | (none, storage) => (none, { s with storage, written := backend :: s.written })
    | (some result, storage) =>
      (some result,
        { s with
          storage
          written := backend :: s.written
          cache := s.cache.insert hash
            ⟨hash, result.size, backend.1.name, result.timestamp, s.config.cacheTtl, 0⟩
          stats :=
            { s.stats with
              totalObjects := s.stats.totalObjects + 1
              totalSize := s.stats.totalSize + UInt64.ofNat result.size } })

/-- The backends are asked one after the other until one has the object, or fails. -/
def loadAny (hash : String) : List Backend → Storage N → Option (Option Bytes) × Storage N
  | [], st => (some none, st)
  | b :: bs, st =>
    match b.1.load st hash with
    | (none, st) => (none, st)
    | (some (some data), st) => (some (some data), st)
    | (some none, st) => loadAny hash bs st

/-- The backend that the cache names is asked first, then the primary one, then all. -/
def loadObject (s : StorageManagerAgent N) (hash : String) :
    Option (Option Bytes) × StorageManagerAgent N :=
  let cached := (s.cache.lookup hash).bind fun entry => s.getBackend entry.backend
  match loadAny hash cached.toList s.storage with
  | (none, storage) => (none, { s with storage })
  | (some (some data), storage) =>
    (some (some data),
      { s with
        storage
        cache := s.cache.modify hash fun entry => { entry with accesses := entry.accesses + 1 }
        stats := { s.stats with hitCount := s.stats.hitCount + 1 } })
  | (some none, storage) =>
    match loadAny hash (s.getPrimaryBackend.toList ++ s.order) storage with
    | (some (some data), storage) =>
      (some (some data),
        { s with storage, stats := { s.stats with missCount := s.stats.missCount + 1 } })
    | (result, storage) => (result, { s with storage })

/-- `check_cache`: an entry is believed until its time is over. -/
def checkCache (s : StorageManagerAgent N) (hash : String) (now : ℤ) :
    Option Bool × StorageManagerAgent N :=
  match s.cache.lookup hash with
  | some entry =>
    match entry.ttl with
    | some ttl => (some (ageSeconds now entry.timestamp ≤ ttl), s)
    | none => (some true, s)
  | none =>
    match s.getPrimaryBackend with
    | some backend =>
      let (found, storage) := backend.1.isStored s.storage hash
      (found, { s with storage })
    | none => (some false, s)

/-- What the manager is asked, and what others do to the backends. -/
inductive Action
  | storeObject (hash : String) (data : Bytes) (contentType : String)
      (metadata : HashMap String String) (entries : List (String × String)) (now : ℤ)
  | loadObject (hash : String)
  | checkCache (hash : String) (now : ℤ)
  /-- Somebody has an object deleted, by one of the backends. -/
  | delete (backend : Backend) (hash : String)

/-- The entries of a map, as pairs. -/
def pairs (m : HashMap String String) : List (String × String) :=
  m.entries.map fun e => (e.1, e.2)

/-- One of these; the metadata is a map and is sent in some order. -/
def act (s : StorageManagerAgent N) : Action → Option (StorageManagerAgent N)
  | .storeObject hash data contentType metadata entries now =>
    if entries.Perm (pairs (fullMetadata metadata contentType data)) then
      some { (s.storeObject hash data entries now).2 with last := s.last.insert hash data }
    else none
  | .loadObject hash => some (s.loadObject hash).2
  | .checkCache hash now => some (s.checkCache hash now).2
  | .delete backend hash =>
    if backend ∈ s.order then
      some { s with storage := backend.1.delete s.storage hash, last := s.last.erase hash }
    else none

/-! ## What is wanted -/

/-- **What was stored is found, and is where it should be.** -/
structure Right (s : StorageManagerAgent N) : Prop where
  /-- Everything was written to the backend that the configuration selects. -/
  primary : ∀ backend ∈ s.written, s.config.getPrimary = some backend
  loads : ∀ hash data, s.last.lookup hash = some data → (s.loadObject hash).1 = some (some data)
  /-- Every file lies directly in the directory of its backend. -/
  inside : ∀ t ∈ s.storage.touched, ∃ dir name,
    s.storage.tree.IsDir t.path dir ∧ t.loc = dir ++ [name]
  distinct : ∀ t ∈ s.storage.touched, ∀ t' ∈ s.storage.touched, t.hash ≠ t'.hash →
    ∀ loc, IsFileOf s.storage t loc → ¬ IsFileOf s.storage t' loc

/-! ## When it is so -/

/-- There is one backend, or the key of the first is configured. -/
def PrimaryFirst (config : StorageConfig) : Prop :=
  config.backends.length = 1 ∨
    ∃ b ∈ config.backends.head?, config.primaryBackend = b.name ++ "-0"

/-- The backends that `load_object` asks: the primary one, and if it has no such object all. -/
def asked (s : StorageManagerAgent N) (hash : String) : List Backend :=
  match s.getPrimaryBackend with
  | none => []
  | some p => if (p.1.load s.storage hash).1 = some none then s.order else [p]

/-- The hash can be used by every backend that is asked. What is stored or deleted on a server is
    not the object of another hash. -/
def Meets {O : Type} (object : String → Option O) (s : StorageManagerAgent N) : Action → Prop
  | .storeObject hash .. =>
    ∀ p ∈ s.getPrimaryBackend, CanUse object s.storage p.1 hash ∧
      (∀ path, p.1 = .local path → Writable s.storage path hash) ∧
      ∀ hash' data, s.last.lookup hash' = some data → hash' ≠ hash →
        Apart object p.1 hash' p.1 hash
  | .loadObject hash => ∀ b ∈ s.asked hash, CanUse object s.storage b.1 hash
  | .checkCache hash _ =>
    s.cache.lookup hash = none → ∀ p ∈ s.getPrimaryBackend, CanUse object s.storage p.1 hash
  | .delete backend hash =>
    backend.1.name = "moe" ∨ (CanUse object s.storage backend.1 hash ∧
      ∀ hash' data, s.last.lookup hash' = some data → hash' ≠ hash →
        ∀ p ∈ s.getPrimaryBackend, Apart object p.1 hash' backend.1 hash)

end StorageManagerAgent

/-! ## The keys -/

section Keys

variable {config : StorageConfig} {b b' : Backend}

theorem dash_notMem_name (b : BackendConfig) : '-' ∉ b.name.toList := by
  have hlocal : '-' ∉ "local".toList := by decide
  have hs3 : '-' ∉ "s3".toList := by decide
  have hmoe : '-' ∉ "moe".toList := by decide
  cases b with
  | «local» => exact hlocal
  | s3 => exact hs3
  | moe => exact hmoe

theorem dash_notMem_digits (n : ℕ) : '-' ∉ Nat.toDigits 10 n := fun hc =>
  absurd (Nat.isDigit_of_mem_toDigits (by decide) (by decide) hc) (by decide)

theorem StorageConfig.key_of_more (h : config.backends.length ≠ 1) (b : Backend) :
    (config.key b).toList = b.1.name.toList ++ '-' :: Nat.toDigits 10 b.2 := by
  rw [StorageConfig.key, if_neg h]
  simp

theorem StorageConfig.key_zero (h : config.backends.length ≠ 1) (c : BackendConfig) :
    config.key (c, 0) = c.name ++ "-0" := by
  have hzero : '-' :: Nat.toDigits 10 0 = "-0".toList := by decide
  rw [← String.toList_inj, key_of_more h, String.toList_append, hzero]

/-- **No two backends have one key.** -/
theorem StorageConfig.key_inj (hb : b ∈ config.backends.zipIdx) (hb' : b' ∈ config.backends.zipIdx)
    (h : config.key b = config.key b') : b = b' := by
  have hget := List.mem_zipIdx_iff_getElem?.mp hb
  have hget' := List.mem_zipIdx_iff_getElem?.mp hb'
  have hindex : b.2 = b'.2 := by
    by_cases hone : config.backends.length = 1
    · have hlt := (List.getElem?_eq_some_iff.mp hget).1
      have hlt' := (List.getElem?_eq_some_iff.mp hget').1
      omega
    · have hlist := congrArg String.toList h
      rw [key_of_more hone, key_of_more hone, List.append_cons_inj_of_notMem
        (dash_notMem_name b.1) (dash_notMem_digits b.2)] at hlist
      have hvalue := congrArg (fun digits => Nat.ofDigitChars 10 digits 0) hlist.2.2
      rwa [Nat.ofDigitChars_ten_toDigits, Nat.ofDigitChars_ten_toDigits] at hvalue
  refine Prod.ext ?_ hindex
  rw [hindex, hget'] at hget
  exact (Option.some.inj hget).symm

theorem StorageConfig.lookup_backendMap {k : String} :
    config.backendMap.lookup k = some b ↔ b ∈ config.backends.zipIdx ∧ config.key b = k := by
  rw [backendMap, HashMap.lookup_foldl_insert, AList.lookup_empty, Option.or_none]
  constructor
  · intro hfind
    exact ⟨List.mem_reverse.mp (List.mem_of_find?_eq_some hfind),
      by simpa using List.find?_some hfind⟩
  · intro ⟨hb, hk⟩
    cases hfind : config.backends.zipIdx.reverse.find? fun a => config.key a = k with
    | none =>
      have hnone := List.find?_eq_none.mp hfind b (List.mem_reverse.mpr hb)
      exact absurd hk (by simpa using hnone)
    | some b' =>
      have hb' := List.mem_reverse.mp (List.mem_of_find?_eq_some hfind)
      have hk' : config.key b' = k := by simpa using List.find?_some hfind
      rw [key_inj hb' hb (hk'.trans hk.symm)]

theorem StorageConfig.mem_values : b ∈ config.backendMap.values ↔ b ∈ config.backends.zipIdx := by
  rw [HashMap.values, List.mem_map]
  constructor
  · intro ⟨e, he, hb⟩
    exact hb ▸ (lookup_backendMap.mp (AList.mem_lookup_iff.mpr he)).1
  · intro hb
    exact ⟨⟨config.key b, b⟩, AList.mem_lookup_iff.mp (lookup_backendMap.mpr ⟨hb, rfl⟩), rfl⟩

/-- The bare name of a backend is no key, unless there is but one. -/
theorem StorageConfig.key_ne_name (h : config.backends.length ≠ 1) (b : Backend)
    (c : BackendConfig) : config.key b ≠ c.name := by
  intro heq
  have hdash : '-' ∈ (config.key b).toList := by
    rw [key_of_more h]
    exact List.mem_append_right _ List.mem_cons_self
  exact dash_notMem_name c (heq ▸ hdash)

/-- **`get_primary` is not asked by key.** -/
theorem StorageConfig.getPrimary_of_key (h : config.backends.length ≠ 1)
    (hkey : config.primaryBackend = config.key b) :
    config.getPrimary = config.backends.zipIdx.head? := by
  have hnone : config.backends.zipIdx.find? (fun b => b.1.name = config.primaryBackend) = none := by
    refine List.find?_eq_none.mpr fun c _ hname => ?_
    rw [decide_eq_true_eq, hkey] at hname
    exact key_ne_name h b c.1 hname.symm
  rw [getPrimary, hnone, Option.none_or]

end Keys

namespace StorageManagerAgent

variable {N : Type}

section Primary

variable {s s' : StorageManagerAgent N} {config : StorageConfig}

/-- The map is that of the configuration, and iterated over in some order. -/
structure Built (s : StorageManagerAgent N) : Prop where
  backends : s.backends = s.config.backendMap
  order : s.order.Perm s.config.backendMap.values

theorem Built.mem_order (h : s.Built) {b : Backend} :
    b ∈ s.order ↔ b ∈ s.config.backends.zipIdx := by
  rw [h.order.mem_iff, StorageConfig.mem_values]

theorem Built.getBackend_iff (h : s.Built) {name : String} {b : Backend} :
    s.getBackend name = some b ↔ b ∈ s.config.backends.zipIdx ∧ s.config.key b = name := by
  rw [getBackend, h.backends, StorageConfig.lookup_backendMap]

/-- **Then the agent writes where the configuration says**, and no bare name stands for another
    backend. -/
theorem Built.primary (h : s.Built) (hfirst : PrimaryFirst s.config) :
    ∃ p ∈ s.config.backends.zipIdx, s.config.getPrimary = some p ∧ s.getPrimaryBackend = some p ∧
      ∀ (c : BackendConfig) b, s.getBackend c.name = some b → b = p := by
  by_cases hone : s.config.backends.length = 1
  · -- there is but one backend, and all roads lead to it
    obtain ⟨c, hc⟩ := List.length_eq_one_iff.mp hone
    have hall : s.config.backends.zipIdx = [(c, 0)] := by rw [hc]; rfl
    have honly : ∀ b, b ∈ s.config.backends.zipIdx → b = (c, 0) :=
      fun b hb => by simpa [hall] using hb
    have hmem : (c, 0) ∈ s.config.backends.zipIdx := by simp [hall]
    have hget : ∀ {name b}, s.getBackend name = some b → b = (c, 0) :=
      fun hb => honly _ (h.getBackend_iff.mp hb).1
    refine ⟨(c, 0), hmem, ?_, ?_, fun c' b hb => hget hb⟩
    · rw [StorageConfig.getPrimary, hall, List.find?_singleton]
      split <;> rfl
    · rw [getPrimaryBackend]
      cases hb : s.getBackend s.config.primaryBackend with
      | some b => rw [hget hb]; rfl
      | none =>
        have hhead : s.order.head? = some (c, 0) := by
          cases horder : s.order with
          | nil =>
            have hin := h.mem_order.mpr hmem
            rw [horder] at hin
            cases hin
          | cons b bs =>
            have hb := h.mem_order.mp (horder ▸ List.mem_cons_self)
            rw [honly b hb]
            rfl
        rw [hhead]
        rfl
  · rcases hfirst with hlen | ⟨c, hc, hprimary⟩
    · exact absurd hlen hone
    have hhead : s.config.backends.zipIdx.head? = some (c, 0) := by
      rw [List.head?_zipIdx, Option.mem_def.mp hc]
      rfl
    have hmem := List.mem_of_head? hhead
    have hkey : s.config.key (c, 0) = s.config.primaryBackend := by
      rw [hprimary, StorageConfig.key_zero hone]
    refine ⟨(c, 0), hmem, ?_, ?_, fun c' b hb => ?_⟩
    · rw [StorageConfig.getPrimary_of_key hone hkey.symm, hhead]
    · rw [getPrimaryBackend, h.getBackend_iff.mpr ⟨hmem, hkey⟩]
      rfl
    · exact absurd (h.getBackend_iff.mp hb).2 (StorageConfig.key_ne_name hone b c')

/-- **These are the configurations that work in every order.** -/
theorem primary_iff (hne : config.backends ≠ []) (tree : FileTree) (net : N) :
    (∀ order, order.Perm config.backendMap.values →
      (new config order tree net).getPrimaryBackend = config.getPrimary) ↔
      PrimaryFirst config := by
  constructor
  · intro hall
    by_cases hone : config.backends.length = 1
    · exact .inl hone
    right
    have hnew : ∀ order, order.Perm config.backendMap.values →
        (new config order tree net).Built := fun order horder => ⟨rfl, horder⟩
    cases hlook : config.backendMap.lookup config.primaryBackend with
    | some b =>
      -- a key was configured, but another one
      have hb := StorageConfig.lookup_backendMap.mp hlook
      have hprimary := hall config.backendMap.values (List.Perm.refl _)
      have hget :
          (new config config.backendMap.values tree net).getPrimaryBackend = some b := by
        have hkey := (hnew _ (List.Perm.refl _)).getBackend_iff.mpr hb
        exact congrArg (fun found => found.or config.backendMap.values.head?) hkey
      rw [hget, StorageConfig.getPrimary_of_key hone hb.2.symm, List.head?_zipIdx] at hprimary
      obtain ⟨c, hc, hcb⟩ := Option.map_eq_some_iff.mp hprimary.symm
      refine ⟨c, hc, ?_⟩
      rw [← hb.2, ← hcb, StorageConfig.key_zero hone]
    | none =>
      -- the first of an order is taken, and any may be the first
      have hother : ∃ q ∈ config.backendMap.values, config.getPrimary ≠ some q := by
        obtain ⟨c, c', rest, hc⟩ : ∃ c c' rest, config.backends = c :: c' :: rest := by
          match hbackends : config.backends, hne, hone with
          | c :: c' :: rest, _, _ => exact ⟨c, c', rest, rfl⟩
          | [c], _, hone => exact absurd rfl hone
        have hmem : (c, 0) ∈ config.backends.zipIdx := by simp [hc]
        have hmem' : (c', 1) ∈ config.backends.zipIdx := by simp [hc]
        by_cases hp : config.getPrimary = some (c, 0)
        · exact ⟨(c', 1), StorageConfig.mem_values.mpr hmem', by simp [hp]⟩
        · exact ⟨(c, 0), StorageConfig.mem_values.mpr hmem, hp⟩
      obtain ⟨q, hq, hneq⟩ := hother
      have hprimary := hall (q :: config.backendMap.values.erase q) (List.perm_cons_erase hq).symm
      have hget : (new config (q :: config.backendMap.values.erase q) tree
          net).getPrimaryBackend = some q := by
        rw [getPrimaryBackend, getBackend, new, hlook]
        rfl
      exact absurd (hget.symm.trans hprimary).symm hneq
  · intro hfirst order horder
    have hbuilt : (new config order tree net).Built := ⟨rfl, horder⟩
    obtain ⟨p, _, hget, hprimary, _⟩ := hbuilt.primary hfirst
    exact hprimary.trans hget.symm

/-- The default is no key, if there is more than one. -/
theorem not_primaryFirst_default (hone : config.backends.length ≠ 1)
    (hdefault : config.primaryBackend = defaultPrimary) : ¬ PrimaryFirst config := by
  intro hfirst
  rcases hfirst with hlen | ⟨c, _, hkey⟩
  · exact hone hlen
  · rw [hdefault] at hkey
    have hdash : '-' ∈ defaultPrimary.toList := by
      rw [hkey, String.toList_append]
      exact List.mem_append_right _ (by decide)
    exact absurd hdash (by decide)

end Primary

/-! ## Loading -/

section Loading

variable [Http N] {s : StorageManagerAgent N} {st : Storage N} {hash : String} {p : Backend}
  {bs : List Backend}

theorem loadAny_of_found (h : (p.1.load st hash).1 ≠ some none) :
    loadAny hash (p :: bs) st = p.1.load st hash := by
  rw [loadAny]
  cases hload : p.1.load st hash with
  | mk found st' =>
    match found with
    | none => rfl
    | some (some data) => rfl
    | some none => exact absurd (congrArg Prod.fst hload) h

theorem loadAny_of_missed (h : (p.1.load st hash).1 = some none) :
    loadAny hash (p :: bs) st = loadAny hash bs (p.1.load st hash).2 := by
  rw [loadAny]
  cases hload : p.1.load st hash with
  | mk found st' =>
    rw [hload] at h
    obtain rfl : found = some none := h
    rfl

theorem loadAny_append (bs bs' : List Backend) (st : Storage N) :
    loadAny hash (bs ++ bs') st =
      if (loadAny hash bs st).1 = some none then loadAny hash bs' (loadAny hash bs st).2
      else loadAny hash bs st := by
  induction bs generalizing st with
  | nil => rfl
  | cons b bs ih =>
    rw [List.cons_append]
    by_cases hb : (b.1.load st hash).1 = some none
    · rw [loadAny_of_missed hb, loadAny_of_missed hb, ih]
    · rw [loadAny_of_found hb, loadAny_of_found hb, if_neg hb]

theorem reads_loadAny {O : Type} [DecidableEq O] {object : String → Option O}
    {contents : N → O → Option Bytes} (hw : ∀ b ∈ bs, Works object contents st.tree b.1)
    (hu : ∀ b ∈ bs, CanUse object st b.1 hash) :
    Reads contents hash st (loadAny hash bs st).2 := by
  induction bs generalizing st with
  | nil => exact .refl hash st
  | cons b bs ih =>
    have hread := reads_load (hw b List.mem_cons_self) (hu b List.mem_cons_self)
    by_cases hb : (b.1.load st hash).1 = some none
    · rw [loadAny_of_missed hb]
      refine hread.trans (ih ?_ ?_)
      · exact fun c hc => (hw c (List.mem_cons_of_mem _ hc)).congr hread.same
      · intro c hc
        obtain ⟨hlocal, hurl⟩ := hu c (List.mem_cons_of_mem _ hc)
        exact ⟨fun path hpath => hread.toTouches.usable_iff.mpr (hlocal path hpath), hurl⟩
    · rw [loadAny_of_found hb]
      exact hread

/-- Whom `load_object` asks, one after the other. -/
def candidates (s : StorageManagerAgent N) (hash : String) : List Backend :=
  ((s.cache.lookup hash).bind fun entry => s.getBackend entry.backend).toList ++
    (s.getPrimaryBackend.toList ++ s.order)

/-- The entries of a cache name the backends that another names. -/
def SameNames (cache cache' : HashMap String CacheEntry) : Prop :=
  ∀ hash entry', cache'.lookup hash = some entry' →
    ∃ entry, cache.lookup hash = some entry ∧ entry'.backend = entry.backend

/-- **`load_object` asks its candidates**, and changes the statistics. -/
theorem loadObject_eq (s : StorageManagerAgent N) (hash : String) :
    (s.loadObject hash).1 = (loadAny hash (s.candidates hash) s.storage).1 ∧
      ∃ cache stats, SameNames s.cache cache ∧
        (s.loadObject hash).2 = { s with
          storage := (loadAny hash (s.candidates hash) s.storage).2
          cache := cache
          stats := stats } := by
  rw [candidates, loadAny_append, loadObject]
  dsimp only
  have hnames : SameNames s.cache s.cache := fun _ entry h => ⟨entry, h, rfl⟩
  generalize hfirst : loadAny hash _ s.storage = first
  obtain ⟨found, st⟩ := first
  match found with
  | none => exact ⟨rfl, _, _, hnames, rfl⟩
  | some (some data) =>
    refine ⟨rfl, _, _, fun h entry' hentry => ?_, rfl⟩
    rcases HashMap.lookup_modify_cases hentry with ⟨_, entry, hlook, heq⟩ | ⟨_, hlook⟩
    · exact ⟨entry, hlook, by rw [heq]⟩
    · exact ⟨entry', hlook, rfl⟩
  | some none =>
    rw [if_pos rfl]
    dsimp only
    generalize loadAny hash _ st = second
    obtain ⟨found, st'⟩ := second
    match found with
    | none => exact ⟨rfl, _, _, hnames, rfl⟩
    | some none => exact ⟨rfl, _, _, hnames, rfl⟩
    | some (some data) => exact ⟨rfl, _, _, hnames, rfl⟩

end Loading

/-! ## Runs -/

section Runs

variable [Http N] {O : Type} [DecidableEq O] {object : String → Option O}
  {contents : N → O → Option Bytes} {s s' : StorageManagerAgent N} {st : Storage N}
  {hash : String} {p : Backend}

/-- **The primary backend has all that is to be found**, the directories are tidy. -/
structure Kept (object : String → Option O) (contents : N → O → Option Bytes)
    (s : StorageManagerAgent N) : Prop where
  built : s.Built
  first : PrimaryFirst s.config
  works : ∀ b ∈ s.config.backends.zipIdx, Works object contents s.storage.tree b.1
  named : ∀ hash entry, s.cache.lookup hash = some entry →
    ∃ c : BackendConfig, entry.backend = c.name
  tidy : Tidy s.storage
  written : ∀ b ∈ s.written, s.config.getPrimary = some b
  held : ∀ hash data, s.last.lookup hash = some data →
    ∀ p ∈ s.getPrimaryBackend, Holds object contents s.storage p.1 hash data

/-- The primary backend is always asked first. -/
theorem Kept.candidates (h : Kept object contents s) (hp : s.getPrimaryBackend = some p)
    (hash : String) :
    ∃ bs, s.candidates hash = p :: bs ∧ ∀ b ∈ bs, b ∈ s.order := by
  obtain ⟨q, hmem, _, hq, hnames⟩ := h.built.primary h.first
  obtain rfl : p = q := Option.some.inj (hp.symm.trans hq)
  have hmore : ∀ b ∈ p :: s.order, b ∈ s.order := by
    intro b hb
    rcases List.mem_cons.mp hb with rfl | hb
    · exact h.built.mem_order.mpr hmem
    · exact hb
  rw [StorageManagerAgent.candidates, hp]
  cases hcached : (s.cache.lookup hash).bind fun entry => s.getBackend entry.backend with
  | none => exact ⟨s.order, rfl, fun b hb => hb⟩
  | some b =>
    obtain ⟨entry, hentry, hb⟩ := Option.bind_eq_some_iff.mp hcached
    obtain ⟨c, hc⟩ := h.named hash entry hentry
    obtain rfl := hnames c b (hc ▸ hb)
    exact ⟨b :: s.order, rfl, hmore⟩

theorem Kept.right (h : Kept object contents s) : Right s := by
  obtain ⟨p, hmem, _, hp, _⟩ := h.built.primary h.first
  constructor
  · exact h.written
  · intro hash data hlast
    obtain ⟨bs, hcandidates, _⟩ := h.candidates hp hash
    have hload := (h.held hash data hlast p hp).load (h.works p hmem)
    rw [(loadObject_eq s hash).1, hcandidates, loadAny_of_found (by simp [hload]), hload]
  · intro t ht
    obtain ⟨dir, hnamed, hloc⟩ := h.tidy.lies t ht
    rcases hloc with hloc | hloc
    · exact ⟨dir, _, hnamed.isDir, hloc⟩
    · exact ⟨dir, _, hnamed.isDir, hloc⟩
  · exact fun t ht t' ht' hne loc hloc => h.tidy.distinct ht ht' hne hloc

/-- What is kept when files of one hash are touched. -/
theorem Kept.touches (h : Kept object contents s) (htouches : Touches hash s.storage st) :
    (∀ b ∈ s.config.backends.zipIdx, Works object contents st.tree b.1) ∧ Tidy st :=
  ⟨fun b hb => (h.works b hb).congr htouches.same, h.tidy.touches htouches⟩

/-- Reading changes nothing that matters. -/
theorem Kept.reads (h : Kept object contents s) (hreads : Reads contents hash s.storage st)
    {cache : HashMap String CacheEntry} (hnames : SameNames s.cache cache)
    (stats : CacheStatistics) :
    Kept object contents { s with storage := st, cache := cache, stats := stats } := by
  obtain ⟨hworks, htidy⟩ := h.touches hreads.toTouches
  refine ⟨⟨h.built.backends, h.built.order⟩, h.first, hworks, ?_, htidy, h.written,
    fun hash' data hlast q hq => (h.held hash' data hlast q hq).reads hreads⟩
  intro hash' entry' hentry'
  obtain ⟨entry, hentry, heq⟩ := hnames hash' entry' hentry'
  obtain ⟨c, hc⟩ := h.named hash' entry hentry
  exact ⟨c, heq.trans hc⟩

theorem Kept.loadObject (h : Kept object contents s) (hok : s.Meets object (.loadObject hash)) :
    Kept object contents (s.loadObject hash).2 := by
  obtain ⟨p, hmem, _, hp, _⟩ := h.built.primary h.first
  obtain ⟨bs, hcandidates, hbs⟩ := h.candidates hp hash
  obtain ⟨cache, stats, hnames, heq⟩ := (loadObject_eq s hash).2
  have husable : ∀ b ∈ s.asked hash, CanUse object s.storage b.1 hash := hok
  rw [asked, hp] at husable
  dsimp only at husable
  have hreads : Reads contents hash s.storage (loadAny hash (p :: bs) s.storage).2 := by
    by_cases hmissed : (p.1.load s.storage hash).1 = some none
    · -- then all are asked
      rw [if_pos hmissed] at husable
      have hin : ∀ b ∈ p :: bs, b ∈ s.order := by
        intro b hb
        rcases List.mem_cons.mp hb with rfl | hb
        · exact h.built.mem_order.mpr hmem
        · exact hbs b hb
      exact reads_loadAny (fun b hb => h.works b (h.built.mem_order.mp (hin b hb)))
        fun b hb => husable b (hin b hb)
    · rw [if_neg hmissed] at husable
      rw [loadAny_of_found hmissed]
      exact reads_load (h.works p hmem) (husable p List.mem_cons_self)
  rw [heq, hcandidates]
  exact h.reads hreads hnames stats

theorem Kept.checkCache (h : Kept object contents s) {now : ℤ}
    (hok : s.Meets object (.checkCache hash now)) :
    Kept object contents (s.checkCache hash now).2 := by
  obtain ⟨p, hmem, _, hp, _⟩ := h.built.primary h.first
  rw [StorageManagerAgent.checkCache]
  cases hcached : s.cache.lookup hash with
  | some entry =>
    dsimp only
    split <;> exact h
  | none =>
    rw [hp]
    exact h.reads (reads_isStored (h.works p hmem) (hok hcached p hp))
      (fun _ entry hentry => ⟨entry, hentry, rfl⟩) s.stats

theorem Kept.storeObject (h : Kept object contents s) {data : Bytes} {contentType : String}
    {metadata : HashMap String String} {entries : List (String × String)} {now : ℤ}
    (hok : s.Meets object (.storeObject hash data contentType metadata entries now)) :
    Kept object contents
      { (s.storeObject hash data entries now).2 with last := s.last.insert hash data } := by
  obtain ⟨p, hmem, hget, hp, _⟩ := h.built.primary h.first
  obtain ⟨husable, hwritable, hapart⟩ := hok p hp
  obtain ⟨result, st, hstore, htouches, hholds, hothers⟩ :=
    store_spec (h.works p hmem) husable hwritable data entries now
  obtain ⟨hworks, htidy⟩ := h.touches htouches
  rw [StorageManagerAgent.storeObject, hp]
  dsimp only
  rw [hstore]
  refine ⟨⟨h.built.backends, h.built.order⟩, h.first, hworks, ?_, htidy, ?_, ?_⟩
  · intro hash' entry hentry
    dsimp only at hentry
    rw [HashMap.lookup_insert_eq] at hentry
    split at hentry
    · rw [← Option.some.inj hentry]
      exact ⟨p.1, rfl⟩
    · exact h.named hash' entry hentry
  · intro b hb
    rcases List.mem_cons.mp hb with rfl | hb
    · exact hget
    · exact h.written b hb
  · intro hash' data' hlast q hq
    obtain rfl : p = q := Option.some.inj (hp.symm.trans hq)
    dsimp only at hlast
    rw [HashMap.lookup_insert_eq] at hlast
    split at hlast
    · rename_i heq
      obtain rfl := Option.some.inj hlast
      exact heq ▸ hholds
    · rename_i hne
      exact hothers hash' data' hne (hapart hash' data' hlast hne)
        (h.held hash' data' hlast p hp)

theorem Kept.delete (h : Kept object contents s) {b : Backend} (hb : b ∈ s.order)
    (hok : s.Meets object (.delete b hash)) :
    Kept object contents
      { s with storage := b.1.delete s.storage hash, last := s.last.erase hash } := by
  have hworks := h.works b (h.built.mem_order.mp hb)
  have herased : ∀ {hash' data}, (s.last.erase hash).lookup hash' = some data →
      hash' ≠ hash ∧ s.last.lookup hash' = some data := by
    intro hash' data hlast
    rw [HashMap.lookup_erase_eq] at hlast
    split at hlast
    · cases hlast
    · exact ⟨‹_›, hlast⟩
  rcases hok with hmoe | ⟨husable, hapart⟩
  · -- nothing is deleted
    have hsame : b.1.delete s.storage hash = s.storage := by
      cases hb : b.1 with
      | moe => rfl
      | «local» | s3 => exact absurd (hb ▸ hmoe) (by simp [BackendConfig.name])
    rw [hsame]
    exact ⟨⟨h.built.backends, h.built.order⟩, h.first, h.works, h.named, h.tidy, h.written,
      fun hash' data hlast p hp => h.held hash' data (herased hlast).2 p hp⟩
  · obtain ⟨hworks', htidy⟩ := h.touches (touches_delete hworks husable)
    refine ⟨⟨h.built.backends, h.built.order⟩, h.first, hworks', h.named, htidy, h.written, ?_⟩
    intro hash' data hlast p hp
    obtain ⟨hne, hlast⟩ := herased hlast
    exact (h.held hash' data hlast p hp).delete hworks husable hne
      (hapart hash' data hlast hne p hp)

theorem Kept.step (h : Kept object contents s) {a : Action} (hok : s.Meets object a)
    (hact : s.act a = some s') : Kept object contents s' := by
  cases a with
  | storeObject hash data contentType metadata entries now =>
    simp only [act, Option.ite_none_right_eq_some, Option.some.injEq] at hact
    exact hact.2 ▸ h.storeObject hok
  | loadObject hash =>
    simp only [act, Option.some.injEq] at hact
    exact hact ▸ h.loadObject hok
  | checkCache hash now =>
    simp only [act, Option.some.injEq] at hact
    exact hact ▸ h.checkCache hok
  | delete b hash =>
    simp only [act, Option.ite_none_right_eq_some, Option.some.injEq] at hact
    exact hact.2 ▸ h.delete hact.1 hok

instance (s : StorageManagerAgent N) (a : Action) : Decidable (s.Meets object a) := by
  cases a with
  | loadObject | checkCache => unfold Meets; infer_instance
  | storeObject hash =>
    have hiff := fun p : Backend => HashMap.forall_lookup_iff (m := s.last)
      (P := fun hash' _ => hash' ≠ hash → Apart object p.1 hash' p.1 hash)
    exact decidable_of_iff (∀ p ∈ s.getPrimaryBackend, CanUse object s.storage p.1 hash ∧
      (∀ path, p.1 = .local path → Writable s.storage path hash) ∧
      ∀ e ∈ s.last.entries, e.1 ≠ hash → Apart object p.1 e.1 p.1 hash)
      (forall₂_congr fun p _ => and_congr_right fun _ => and_congr_right fun _ => (hiff p).symm)
  | delete backend hash =>
    have hiff := HashMap.forall_lookup_iff (m := s.last)
      (P := fun hash' _ => hash' ≠ hash →
        ∀ p ∈ s.getPrimaryBackend, Apart object p.1 hash' backend.1 hash)
    exact decidable_of_iff (backend.1.name = "moe" ∨ (CanUse object s.storage backend.1 hash ∧
      ∀ e ∈ s.last.entries, e.1 ≠ hash →
        ∀ p ∈ s.getPrimaryBackend, Apart object p.1 e.1 backend.1 hash))
      (or_congr_right (and_congr_right fun _ => hiff.symm))

end Runs

/-! ## Two objects, and a name that leads astray -/

section Shelf

/-- Servers that keep objects by their URL. -/
structure Shelf where
  objects : HashMap String Bytes

/-- The byte of a JSON array. -/
def byteOf : Json → UInt8
  | .int n => UInt8.ofNat n.toNat
  | _ => 0

instance : Http Shelf where
  send shelf request :=
    match request.method, request.body with
    | .get, _ =>
      match shelf.objects.lookup request.url with
      | some data => (some ⟨200, data⟩, shelf)
      | none => (some ⟨notFound, []⟩, shelf)
    | .put, .bytes data => (some ⟨200, []⟩, ⟨shelf.objects.insert request.url data⟩)
    | .delete, _ => (some ⟨204, []⟩, ⟨shelf.objects.erase request.url⟩)
    | .post, .json (.obj [_, ("hash", .str hash), ("data", .arr data), _]) =>
      (some ⟨200, []⟩,
        ⟨shelf.objects.insert (request.url ++ "/" ++ hash) (data.map byteOf)⟩)
    | _, _ => (some ⟨400, []⟩, shelf)

/-- What the server has under a URL. -/
def Shelf.contents (shelf : Shelf) (url : String) : Option Bytes := shelf.objects.lookup url

/-- A URL that neither the client nor the server takes for another text: it has no fragment, query
    or escape, and no dot segment. -/
def plainObject (url : String) : Option String :=
  if (url.toList.all fun c => c.isLower || c.isDigit || c ∈ [':', '/', '.', '-']) ∧
      ∀ name ∈ pathSegments url, name ≠ "." ∧ name ≠ ".." then some url
  else none

theorem eq_of_plainObject {url o : String} (h : plainObject url = some o) : url = o := by
  unfold plainObject at h
  split at h
  · exact Option.some.inj h
  · cases h

theorem gets_shelf (url : String) (headers : List (String × String)) :
    Gets plainObject Shelf.contents url headers := by
  intro o ho shelf
  obtain rfl := eq_of_plainObject ho
  cases hlook : shelf.objects.lookup url with
  | none =>
    refine ⟨⟨notFound, []⟩, shelf, ?_, rfl, ?_⟩
    · simp only [Http.send, hlook]
    · simp only [Shelf.contents, hlook]
  | some data =>
    refine ⟨⟨200, data⟩, shelf, ?_, rfl, ?_⟩
    · simp only [Http.send, hlook]
    · simp [Shelf.contents, hlook, Response.isSuccess]

theorem contents_insert (shelf : Shelf) (url : String) (data : Bytes) :
    Shelf.contents ⟨shelf.objects.insert url data⟩ =
      Function.update shelf.contents url (some data) := by
  funext url'
  rw [Function.update_apply]
  exact HashMap.lookup_insert_eq url url' data shelf.objects

theorem contents_erase (shelf : Shelf) (url : String) :
    Shelf.contents ⟨shelf.objects.erase url⟩ = Function.update shelf.contents url none := by
  funext url'
  rw [Function.update_apply]
  exact HashMap.lookup_erase_eq url url' shelf.objects

theorem works_s3 (t : FileTree) (b : S3Backend) :
    Works plainObject Shelf.contents t (.s3 b) := by
  refine fun hash => ⟨gets_shelf _ _, fun data o ho shelf => ?_, fun o ho shelf => ?_⟩
  · obtain rfl := eq_of_plainObject ho
    exact ⟨_, _, rfl, by decide, contents_insert shelf _ data⟩
  · obtain rfl := eq_of_plainObject ho
    exact ⟨_, _, rfl, by decide, contents_erase shelf _⟩

theorem works_moe (t : FileTree) (b : MoeBackend) :
    Works plainObject Shelf.contents t (.moe b) := by
  refine fun hash => ⟨gets_shelf _ _, fun data metadata o ho shelf => ?_⟩
  obtain rfl := eq_of_plainObject ho
  have hdata : (data.map fun byte => Json.int byte.toNat).map byteOf = data := by
    simp [byteOf, Function.comp_def]
  have hurl : b.endpoint ++ "/api/v1/objects" ++ "/" ++ hash = b.objectUrl hash := by
    rw [MoeBackend.objectUrl, show "/api/v1/objects/" = "/api/v1/objects" ++ "/" from rfl,
      ← String.append_assoc]
  have hsend : Http.send shelf (b.postRequest hash data metadata) =
      (some ⟨200, []⟩, ⟨shelf.objects.insert (b.endpoint ++ "/api/v1/objects" ++ "/" ++ hash)
        ((data.map fun byte => Json.int byte.toNat).map byteOf)⟩) := rfl
  rw [hurl, hdata] at hsend
  exact ⟨_, _, hsend, by decide, contents_insert shelf _ data⟩

end Shelf

section Examples

/-- A bucket. -/
def bucket : BackendConfig := .s3 ⟨"s3.local", "cache", none, none, true, none⟩

/-- A disk with a directory for objects and nothing in it. -/
def emptyDirectory : FileTree := ⟨[[], ["srv"], ["srv", "store"]], ∅, []⟩

/-- A manager with these backends. -/
def storing (config : StorageConfig) : StorageManagerAgent Shelf :=
  new config config.backends.zipIdx emptyDirectory ⟨∅⟩

/-- An object without metadata of its own. -/
def store (hash : String) (data : Bytes) : Action :=
  .storeObject hash data "text/plain" ∅ (pairs (fullMetadata ∅ "text/plain" data)) 0

/-- A bucket, a directory and a server of the third kind. -/
def bucketFirst : StorageConfig :=
  ⟨[bucket, .local "/srv/store", .moe ⟨"https://moe.local", "ci", "argunix", none⟩], "s3-0", none⟩

/-- Two objects are stored, one of them again, and the other is deleted. -/
def replacing : List Action :=
  [store "a" [1], store "b" [2], .loadObject "a", .checkCache "c" 0, .delete (bucket, 0) "b",
    store "a" [3], .loadObject "b"]

theorem works_bucketFirst :
    ∀ b ∈ bucketFirst.backends, Works plainObject Shelf.contents emptyDirectory b := by
  have hdir : emptyDirectory.IsDir "/srv/store" ["srv", "store"] := by
    constructor <;> decide +kernel
  intro b hb
  rcases List.mem_cons.mp hb with rfl | hb
  · exact works_s3 _ _
  rcases List.mem_cons.mp hb with rfl | hb
  · exact ⟨_, hdir⟩
  · rw [List.mem_singleton.mp hb]
    exact works_moe _ _

/-- A directory, and a bucket that is to be the primary backend. -/
def directoryFirst : StorageConfig := ⟨[.local "/srv/store", bucket], "s3", none⟩

/-- One object has the name of the metadata of another, and a hash leads out of the directory. -/
def straying : List Action := [store "a.meta" [1], store "a" [2], .loadObject "../x"]

end Examples

end StorageManagerAgent

end Argunix.AgentFlow
