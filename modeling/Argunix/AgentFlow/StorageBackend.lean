import Argunix.Lib.FileTree
import Argunix.Lib.Http
import Argunix.Lib.JsonText

/-!
# AgentFlow: the backends of the storage

A backend keeps objects under their hashes: in files of a directory, in the bucket of a server, or
at a server of its own kind. `LocalBackend` joins the hash to its directory as a path, and **nothing
checks it**. The path may lead anywhere (`../x`, `/x`). The metadata of `a` is in the file `a.meta`,
which is also the file of the object `a.meta`.

The backends with a server put the hash into a URL, and nothing checks it there either. What the
client and the server make of that text is not the program's: two hashes may name one object (`a#1`
and `a#2`), and a hash none.

A hash that is the name of a file, and that goes together with those that were used before
(`Usable`), is kept in two files of its own; a hash whose URL names an object is kept there. Then a
backend that works (`Works`) does what a map would do: what was stored is loaded (`Holds.load`), and
what is done with a hash apart from it does not change it (`store_spec`, `Holds.delete`).
-/

set_option autoImplicit false

namespace Argunix.AgentFlow

open Argunix.Lib
open Argunix.Lib.JsonText (utf8)

/-- The contents of a file or of a request. -/
abbrev Bytes := List UInt8

/-- `S3Backend`, as it is configured. -/
structure S3Backend where
  endpoint : String
  bucket : String
  accessKey : Option String
  secretKey : Option String
  useHttps : Bool
  keyPrefix : Option String
deriving DecidableEq, Repr

/-- `MoeBackend`, as it is configured. -/
structure MoeBackend where
  endpoint : String
  identity : String
  nameSpace : String
  generation : Option UInt64
deriving DecidableEq, Repr

/-- The three kinds of backend. -/
inductive BackendConfig
  | local (path : String)
  | s3 (backend : S3Backend)
  | moe (backend : MoeBackend)
deriving DecidableEq, Repr

namespace BackendConfig

/-- The kind, which is also the name of a backend. -/
def name : BackendConfig → String
  | .local _ => "local"
  | .s3 _ => "s3"
  | .moe _ => "moe"

end BackendConfig

/-! ## The backends

All that a backend does to a file is noted in `touched`. -/

/-- A path in the directory of a local backend was used for a hash, and this is where it led. -/
structure Touch where
  path : String
  hash : String
  loc : Location
deriving DecidableEq, Repr

/-- What the backends work on. `touched` records every look at the disk. -/
structure Storage (N : Type) where
  tree : FileTree
  /-- The servers. -/
  net : N
  touched : List Touch

/-- What `store` answers. -/
structure StorageResult where
  hash : String
  size : ℕ
  location : String
  timestamp : ℤ
deriving DecidableEq, Repr

section Backends

variable {N : Type}

namespace Storage

/-- The system follows a path, if it can. -/
def touch (st : Storage N) (path hash file : String) : Option Location × Storage N :=
  match st.tree.locate file with
  | some loc => (some loc, { st with touched := ⟨path, hash, loc⟩ :: st.touched })
  | none => (none, st)

/-- `tokio::fs::write`, and whether it succeeded. -/
def writeFile (st : Storage N) (path hash file : String) (data : Bytes) : Bool × Storage N :=
  match st.touch path hash file with
  | (none, st) => (false, st)
  | (some loc, st) =>
    match st.tree.write loc data with
    | none => (false, st)
    | some tree => (true, { st with tree := tree })

/-- `tokio::fs::remove_file(..).ok()` -/
def removeFile (st : Storage N) (path hash file : String) : Storage N :=
  match st.touch path hash file with
  | (none, st) => st
  | (some loc, st) => { st with tree := st.tree.remove loc }

end Storage

/-- `serde_json::to_string(metadata)`, the entries in the order of the map. -/
def metaJson (entries : List (String × String)) : Bytes :=
  JsonText.object (entries.map fun e => (e.1, JsonText.string (utf8 e.2)))

namespace LocalBackend

/-- Where a local backend keeps an object. -/
def objectPath (path hash : String) : String := join path hash

/-- Where it keeps the metadata. -/
def metadataPath (path hash : String) : String := join path (hash ++ ".meta")

/-- `none` is an error. -/
def store (path : String) (st : Storage N) (hash : String) (data : Bytes)
    (metadata : List (String × String)) (now : ℤ) : Option StorageResult × Storage N :=
  match st.writeFile path hash (objectPath path hash) data with
  | (false, st) => (none, st)
  | (true, st) =>
    match st.writeFile path hash (metadataPath path hash) (metaJson metadata) with
    | (false, st) => (none, st)
    | (true, st) => (some ⟨hash, data.length, objectPath path hash, now⟩, st)

/-- `none` is an error, `some none` that there is no such object. -/
def load (path : String) (st : Storage N) (hash : String) : Option (Option Bytes) × Storage N :=
  match st.touch path hash (objectPath path hash) with
  | (none, st) => (some none, st)
  | (some loc, st) => if st.tree.isThere loc then (st.tree.read loc, st) else (some none, st)

/-- `exists` -/
def exists? (path : String) (st : Storage N) (hash : String) : Bool × Storage N :=
  match st.touch path hash (objectPath path hash) with
  | (none, st) => (false, st)
  | (some loc, st) => (st.tree.isThere loc, st)

/-- `delete`: both files, whether they are there or not. -/
def delete (path : String) (st : Storage N) (hash : String) : Storage N :=
  let st := st.removeFile path hash (objectPath path hash)
  st.removeFile path hash (metadataPath path hash)

end LocalBackend

variable [Http N]

namespace Storage

/-- One request and its answer. -/
def send (st : Storage N) (request : Request) : Option Response × Storage N :=
  let (response, net) := Http.send st.net request
  (response, { st with net := net })

/-- A request that stores something: every answer but a success is an error. -/
def upload (st : Storage N) (request : Request) (result : StorageResult) :
    Option StorageResult × Storage N :=
  match st.send request with
  | (none, st) => (none, st)
  | (some response, st) => (if response.isSuccess then some result else none, st)

/-- A request for an object: `NOT_FOUND` is no error. -/
def fetch (st : Storage N) (url : String) (headers : List (String × String)) :
    Option (Option Bytes) × Storage N :=
  match st.send ⟨.get, url, headers, .empty⟩ with
  | (none, st) => (none, st)
  | (some response, st) =>
    if response.status = notFound then (some none, st)
    else (if response.isSuccess then some (some response.body) else none, st)

end Storage

namespace S3Backend

/-- The key of an object in the bucket. -/
def objectKey (b : S3Backend) (hash : String) : String :=
  match b.keyPrefix with
  | some p => p ++ "/" ++ hash
  | none => hash

/-- The address of a key. -/
def url (b : S3Backend) (key : String) : String :=
  (if b.useHttps then "https" else "http") ++ "://" ++ b.endpoint ++ "/" ++ b.bucket ++ "/" ++ key

/-- `get_headers`: a secret key with a dot in it is sent as a bearer token, and nothing is signed.
    -/
def getHeaders (b : S3Backend) : List (String × String) :=
  match b.accessKey, b.secretKey with
  | some _, some sk => if '.' ∈ sk.toList then [("Authorization", "Bearer " ++ sk)] else []
  | _, _ => []

/-- Where the object of a hash is. -/
def objectUrl (b : S3Backend) (hash : String) : String := b.url (b.objectKey hash)

/-- The request of `store`. -/
def putRequest (b : S3Backend) (hash : String) (data : Bytes) : Request :=
  ⟨.put, b.objectUrl hash, b.getHeaders, .bytes data⟩

/-- The request of `delete`. -/
def deleteRequest (b : S3Backend) (hash : String) : Request :=
  ⟨.delete, b.objectUrl hash, b.getHeaders, .empty⟩

/-- `S3Backend::store` -/
def store (b : S3Backend) (st : Storage N) (hash : String) (data : Bytes) (now : ℤ) :
    Option StorageResult × Storage N :=
  st.upload (b.putRequest hash data)
    ⟨hash, data.length, "s3://" ++ b.bucket ++ "/" ++ b.objectKey hash, now⟩

/-- `S3Backend::load` -/
def load (b : S3Backend) (st : Storage N) (hash : String) : Option (Option Bytes) × Storage N :=
  st.fetch (b.objectUrl hash) b.getHeaders

/-- `S3Backend::delete`; the answer is not looked at. -/
def delete (b : S3Backend) (st : Storage N) (hash : String) : Storage N :=
  (st.send (b.deleteRequest hash)).2

end S3Backend

namespace MoeBackend

/-- The address of an object. -/
def objectUrl (b : MoeBackend) (hash : String) : String := b.endpoint ++ "/api/v1/objects/" ++ hash

/-- The identity, and the generation if one is configured. -/
def headers (b : MoeBackend) : List (String × String) :=
  ("X-Moe-Identity", b.identity) ::
    b.generation.toList.map fun gen => ("X-Moe-Generation", toString gen)

/-- The object itself is in the body of the request, with its hash. -/
def postRequest (b : MoeBackend) (hash : String) (data : Bytes)
    (metadata : List (String × String)) : Request :=
  ⟨.post, b.endpoint ++ "/api/v1/objects", b.headers,
    .json (.obj [("namespace", .str b.nameSpace), ("hash", .str hash),
      ("data", .arr (data.map fun byte => .int byte.toNat)),
      ("metadata", .obj (metadata.map fun e => (e.1, .str e.2)))])⟩

/-- `MoeBackend::store` -/
def store (b : MoeBackend) (st : Storage N) (hash : String) (data : Bytes)
    (metadata : List (String × String)) (now : ℤ) : Option StorageResult × Storage N :=
  st.upload (b.postRequest hash data metadata)
    ⟨hash, data.length, "moe://" ++ b.identity ++ "/" ++ b.nameSpace ++ "/" ++ hash, now⟩

/-- The namespace is not sent. -/
def load (b : MoeBackend) (st : Storage N) (hash : String) : Option (Option Bytes) × Storage N :=
  st.fetch (b.objectUrl hash) b.headers

end MoeBackend

namespace BackendConfig

/-- The URL of an object, if the backend has a server. -/
def url : BackendConfig → String → Option String
  | .local _, _ => none
  | .s3 b, hash => some (b.objectUrl hash)
  | .moe b, hash => some (b.objectUrl hash)

/-- `store` of whichever backend it is. -/
def store (b : BackendConfig) (st : Storage N) (hash : String) (data : Bytes)
    (metadata : List (String × String)) (now : ℤ) : Option StorageResult × Storage N :=
  match b with
  | .local path => LocalBackend.store path st hash data metadata now
  | .s3 b => b.store st hash data now
  | .moe b => b.store st hash data metadata now

/-- `load` of whichever backend it is. -/
def load (b : BackendConfig) (st : Storage N) (hash : String) : Option (Option Bytes) × Storage N :=
  match b with
  | .local path => LocalBackend.load path st hash
  | .s3 b => b.load st hash
  | .moe b => b.load st hash

/-- `exists` -/
def isStored (b : BackendConfig) (st : Storage N) (hash : String) : Option Bool × Storage N :=
  match b with
  | .local path =>
    let (found, st) := LocalBackend.exists? path st hash
    (some found, st)
  | .s3 .. | .moe .. =>
    let (result, st) := b.load st hash
    (result.map Option.isSome, st)

/-- `MoeBackend` deletes nothing. -/
def delete (b : BackendConfig) (st : Storage N) (hash : String) : Storage N :=
  match b with
  | .local path => LocalBackend.delete path st hash
  | .s3 b => b.delete st hash
  | .moe _ => st

end BackendConfig

end Backends

namespace Storage

variable {N O : Type}

/-! ## Which hashes can be used -/

/-- The hash can be used with a local backend: it is a file name, and neither its object nor its
    metadata has the file of another. -/
structure Usable (st : Storage N) (path hash : String) : Prop where
  fileName : FileName hash
  noClash : ∀ t ∈ st.touched, st.tree.locate t.path = st.tree.locate path →
    t.hash ≠ hash ++ ".meta" ∧ hash ≠ t.hash ++ ".meta"

/-- The two files can be written. -/
def Writable (st : Storage N) (path hash : String) : Prop :=
  ∀ dir ∈ st.tree.locate path,
    dir ++ [hash] ∉ st.tree.dirs ∧ dir ++ [hash ++ ".meta"] ∉ st.tree.dirs

/-- The backend can use the hash. With a server, its URL has to name an object. -/
def CanUse (object : String → Option O) (st : Storage N) (b : BackendConfig) (hash : String) :
    Prop :=
  (∀ path, b = .local path → Usable st path hash) ∧
    ∀ url ∈ b.url hash, (object url).isSome = true

/-- Not one object at a server. -/
def Apart (object : String → Option O) (b : BackendConfig) (hash : String) (b' : BackendConfig)
    (hash' : String) : Prop :=
  ∀ url ∈ b.url hash, ∀ url' ∈ b'.url hash', object url ≠ object url'

/-- An object or metadata file of a hash that was used. -/
def IsFileOf (st : Storage N) (t : Touch) (loc : Location) : Prop :=
  st.tree.locate (LocalBackend.objectPath t.path t.hash) = some loc ∨
    st.tree.locate (LocalBackend.metadataPath t.path t.hash) = some loc

instance (st : Storage N) (path hash : String) : Decidable (Usable st path hash) :=
  decidable_of_iff (FileName hash ∧ ∀ t ∈ st.touched, st.tree.locate t.path = st.tree.locate path →
      t.hash ≠ hash ++ ".meta" ∧ hash ≠ t.hash ++ ".meta")
    ⟨fun ⟨hname, hclash⟩ => ⟨hname, hclash⟩, fun ⟨hname, hclash⟩ => ⟨hname, hclash⟩⟩

instance (st : Storage N) (path hash : String) : Decidable (Writable st path hash) :=
  inferInstanceAs (Decidable (∀ dir ∈ st.tree.locate path, _ ∧ _))

/-- What is asked of a local backend only. -/
def decideLocal (P : String → Prop) [DecidablePred P] (b : BackendConfig) :
    Decidable (∀ path, b = .local path → P path) :=
  match b with
  | .local path =>
    decidable_of_iff (P path)
      ⟨fun h _ heq => (BackendConfig.local.inj heq) ▸ h, fun h => h path rfl⟩
  | .s3 .. | .moe .. => isTrue fun _ heq => nomatch heq

instance (object : String → Option O) (st : Storage N) (b : BackendConfig) (hash : String) :
    Decidable (CanUse object st b hash) :=
  have := decideLocal (fun path => Usable st path hash) b
  inferInstanceAs (Decidable (_ ∧ _))

instance [DecidableEq O] (object : String → Option O) (b : BackendConfig) (hash : String)
    (b' : BackendConfig) (hash' : String) : Decidable (Apart object b hash b' hash') :=
  inferInstanceAs (Decidable (∀ url ∈ b.url hash, ∀ url' ∈ b'.url hash', _))

instance (st : Storage N) (b : BackendConfig) (hash : String) :
    Decidable (∀ path, b = .local path → Writable st path hash) :=
  decideLocal (fun path => Writable st path hash) b

/-! ## The files -/

section Files

variable {st st' : Storage N} {path hash : String} {dir : Location}

theorem fileName_meta {name : String} (h : FileName name) : FileName (name ++ ".meta") := by
  obtain ⟨hslash, hnul, _⟩ := h
  have hlist : (name ++ ".meta").toList = name.toList ++ ['.', 'm', 'e', 't', 'a'] := by simp
  have hne : ∀ other : String, other.toList.length < 5 → name ++ ".meta" ≠ other := by
    intro other hlen heq
    rw [← heq, hlist, List.length_append] at hlen
    exact absurd hlen (by simp)
  refine ⟨?_, ?_, hne _ (by decide), hne _ (by decide), hne _ (by decide)⟩
  · rw [hlist, List.mem_append, not_or]
    exact ⟨hslash, by decide⟩
  · rw [hlist, List.mem_append, not_or]
    exact ⟨hnul, by decide⟩

theorem meta_ne (name : String) : name ++ ".meta" ≠ name := by
  intro heq
  have hlen := congrArg (fun s : String => s.toList.length) heq
  simp at hlen

theorem meta_inj {name name' : String} (h : name ++ ".meta" = name' ++ ".meta") : name = name' :=
  (String.append_left_inj ".meta").mp h

/-- `path` leads to a directory, and `hash` is a file name. -/
structure Named (st : Storage N) (path hash : String) (dir : Location) : Prop where
  isDir : st.tree.IsDir path dir
  fileName : FileName hash

theorem Named.congr (h : Named st path hash dir) (hsame : FileTree.SameDirs st.tree st'.tree) :
    Named st' path hash dir :=
  ⟨hsame.isDir.symm ▸ h.isDir, h.fileName⟩

theorem Named.object (h : Named st path hash dir) :
    st.tree.locate (LocalBackend.objectPath path hash) = some (dir ++ [hash]) :=
  FileTree.locate_join h.isDir h.fileName

theorem Named.metadata (h : Named st path hash dir) :
    st.tree.locate (LocalBackend.metadataPath path hash) = some (dir ++ [hash ++ ".meta"]) :=
  FileTree.locate_join h.isDir (fileName_meta h.fileName)

/-- The storage with something touched. -/
def touching (st : Storage N) (path hash : String) (loc : Location) : Storage N :=
  { st with touched := ⟨path, hash, loc⟩ :: st.touched }

theorem touch_eq {file : String} {loc : Location} (h : st.tree.locate file = some loc) :
    st.touch path hash file = (some loc, st.touching path hash loc) := by
  rw [touch, h]
  rfl

/-- **Loading reads the file**, and changes nothing. -/
theorem load_local_eq (h : Named st path hash dir) :
    LocalBackend.load path st hash =
      (st.tree.read (dir ++ [hash]), st.touching path hash (dir ++ [hash])) := by
  delta LocalBackend.load
  rw [touch_eq h.object]
  by_cases hmem : dir ++ [hash] ∈ st.tree.dirs
  · simp [FileTree.isThere, Storage.touching, hmem]
  · cases hlook : st.tree.files.lookup (dir ++ [hash]) with
    | none => simp [FileTree.isThere, FileTree.read, Storage.touching, hmem, hlook]
    | some data => simp [FileTree.isThere, FileTree.read, Storage.touching, hmem, hlook]

theorem exists_local_eq (h : Named st path hash dir) :
    (LocalBackend.exists? path st hash).2 = st.touching path hash (dir ++ [hash]) := by
  delta LocalBackend.exists?
  rw [touch_eq h.object]

theorem writeFile_eq {file : String} {loc : Location} (h : st.tree.locate file = some loc)
    (hloc : loc ∉ st.tree.dirs) (data : Bytes) :
    st.writeFile path hash file data =
      (true, { st.touching path hash loc with
        tree := { st.tree with files := st.tree.files.insert loc data } }) := by
  have hwrite : (st.touching path hash loc).tree.write loc data =
      some { st.tree with files := st.tree.files.insert loc data } :=
    FileTree.write_of_notMem hloc data
  rw [writeFile, touch_eq h]
  dsimp only
  rw [hwrite]

theorem removeFile_eq {file : String} {loc : Location} (h : st.tree.locate file = some loc) :
    st.removeFile path hash file =
      { st.touching path hash loc with tree := st.tree.remove loc } := by
  rw [removeFile, touch_eq h]
  rfl

/-- The storage with both files of an object touched, and with other files. -/
def rewriting (st : Storage N) (path hash : String) (dir : Location)
    (files : HashMap Location Bytes) : Storage N :=
  { (st.touching path hash (dir ++ [hash])).touching path hash (dir ++ [hash ++ ".meta"]) with
    tree := { st.tree with files := files } }

theorem store_local_eq (h : Named st path hash dir) (hobject : dir ++ [hash] ∉ st.tree.dirs)
    (hmeta : dir ++ [hash ++ ".meta"] ∉ st.tree.dirs) (data : Bytes)
    (metadata : List (String × String)) (now : ℤ) :
    LocalBackend.store path st hash data metadata now =
      (some ⟨hash, data.length, LocalBackend.objectPath path hash, now⟩,
        st.rewriting path hash dir
          ((st.tree.files.insert (dir ++ [hash]) data).insert (dir ++ [hash ++ ".meta"])
            (metaJson metadata))) := by
  have hfirst := @writeFile_eq _ st path hash _ _ h.object hobject data
  have hsame : FileTree.SameDirs st.tree
      { st.tree with files := st.tree.files.insert (dir ++ [hash]) data } := ⟨rfl, rfl⟩
  have hmetadata : ({ st.touching path hash (dir ++ [hash]) with
      tree := { st.tree with files := st.tree.files.insert (dir ++ [hash]) data } } :
      Storage N).tree.locate (LocalBackend.metadataPath path hash) =
      some (dir ++ [hash ++ ".meta"]) := by
    rw [hsame.locate]
    exact h.metadata
  delta LocalBackend.store
  rw [hfirst]
  dsimp only
  rw [writeFile_eq hmetadata hmeta]
  rfl

theorem delete_local_eq (h : Named st path hash dir) :
    LocalBackend.delete path st hash =
      st.rewriting path hash dir
        ((st.tree.files.erase (dir ++ [hash])).erase (dir ++ [hash ++ ".meta"])) := by
  have hmetadata : ({ st.touching path hash (dir ++ [hash]) with
      tree := st.tree.remove (dir ++ [hash]) } :
      Storage N).tree.locate (LocalBackend.metadataPath path hash) =
      some (dir ++ [hash ++ ".meta"]) := by
    rw [(FileTree.sameDirs_remove st.tree _).locate]
    exact h.metadata
  rw [LocalBackend.delete, removeFile_eq h.object]
  dsimp only
  rw [removeFile_eq hmetadata]
  rfl

end Files

/-! ## What an action touches -/

section Touched

variable {st st' st'' : Storage N} {path hash : String} {dir : Location} {t : Touch}

/-- A file of the hash, directly in the directory. -/
def Lies (st : Storage N) (t : Touch) : Prop :=
  ∃ dir, Named st t.path t.hash dir ∧ (t.loc = dir ++ [t.hash] ∨ t.loc = dir ++ [t.hash ++ ".meta"])

/-- All that was touched lies where it should, and no hash is the metadata of another. -/
structure Tidy (st : Storage N) : Prop where
  lies : ∀ t ∈ st.touched, Lies st t
  noClash : ∀ t ∈ st.touched, ∀ t' ∈ st.touched, st.tree.locate t.path = st.tree.locate t'.path →
    t.hash ≠ t'.hash ++ ".meta"

/-- **Only files of one hash are touched**, and only by backends that can use it. -/
structure Touches (hash : String) (st st' : Storage N) : Prop where
  same : FileTree.SameDirs st.tree st'.tree
  keeps : ∀ t ∈ st.touched, t ∈ st'.touched
  adds : ∀ t ∈ st'.touched, t ∈ st.touched ∨
    (t.hash = hash ∧ Lies st t ∧ Usable st t.path hash)

theorem Lies.congr (hsame : FileTree.SameDirs st.tree st'.tree) : Lies st' t ↔ Lies st t := by
  have hback : FileTree.SameDirs st'.tree st.tree := ⟨hsame.1.symm, hsame.2.symm⟩
  have hnamed : ∀ dir, Named st' t.path t.hash dir ↔ Named st t.path t.hash dir :=
    fun dir => ⟨fun h => h.congr hback, fun h => h.congr hsame⟩
  simp only [Lies, hnamed]

theorem Touches.refl (hash : String) (st : Storage N) : Touches hash st st :=
  ⟨.refl _, fun _ ht => ht, fun _ ht => .inl ht⟩

/-- Between two actions on a hash it stays usable. -/
theorem Touches.usable_iff (h : Touches hash st st') :
    Usable st' path hash ↔ Usable st path hash := by
  constructor
  · intro ⟨hname, hclash⟩
    refine ⟨hname, fun t ht => ?_⟩
    have hnew := hclash t (h.keeps t ht)
    rwa [h.same.locate] at hnew
  · intro ⟨hname, hclash⟩
    refine ⟨hname, fun t ht => ?_⟩
    rw [h.same.locate]
    rcases h.adds t ht with hold | ⟨rfl, _⟩
    · exact hclash t hold
    · exact fun _ => ⟨(meta_ne _).symm, (meta_ne _).symm⟩

theorem Touches.trans (h : Touches hash st st') (h' : Touches hash st' st'') :
    Touches hash st st'' := by
  refine ⟨h.same.trans h'.same, fun t ht => h'.keeps t (h.keeps t ht), fun t ht => ?_⟩
  rcases h'.adds t ht with hmid | ⟨hhash, hlies, husable⟩
  · exact h.adds t hmid
  · exact .inr ⟨hhash, (Lies.congr h.same).mp hlies, h.usable_iff.mp husable⟩

/-- **An action on a usable hash keeps the directories tidy.** -/
theorem Tidy.touches (h : Tidy st) (htouches : Touches hash st st') : Tidy st' := by
  constructor
  · intro t ht
    rw [Lies.congr htouches.same]
    rcases htouches.adds t ht with hold | ⟨_, hlies, _⟩
    · exact h.lies t hold
    · exact hlies
  · intro t ht t' ht' hloc
    rw [htouches.same.locate] at hloc
    rcases htouches.adds t ht with hold | ⟨rfl, _, husable⟩
    · rcases htouches.adds t' ht' with hold' | ⟨rfl, _, husable'⟩
      · exact h.noClash t hold t' hold' hloc
      · exact (husable'.noClash t hold hloc).1
    · rcases htouches.adds t' ht' with hold' | ⟨hhash, _⟩
      · exact (husable.noClash t' hold' hloc.symm).2
      · rw [hhash]
        exact (meta_ne _).symm

/-- Files of distinct hashes are distinct. -/
theorem Tidy.distinct (h : Tidy st) {t t' : Touch} (ht : t ∈ st.touched) (ht' : t' ∈ st.touched)
    (hne : t.hash ≠ t'.hash) {loc : Location} (hloc : IsFileOf st t loc) :
    ¬ IsFileOf st t' loc := by
  obtain ⟨dir, hnamed, _⟩ := h.lies t ht
  obtain ⟨dir', hnamed', _⟩ := h.lies t' ht'
  intro hloc'
  rw [IsFileOf, hnamed.object, hnamed.metadata, Option.some.injEq, Option.some.injEq] at hloc
  rw [IsFileOf, hnamed'.object, hnamed'.metadata, Option.some.injEq, Option.some.injEq] at hloc'
  -- two places in one directory are one if the names are
  have hname : ∀ name name' : String, dir ++ [name] = loc → dir' ++ [name'] = loc →
      name = name' ∧ st.tree.locate t.path = st.tree.locate t'.path := by
    intro name name' heq heq'
    have happ := List.append_inj' (heq.trans heq'.symm) rfl
    exact ⟨by simpa using happ.2, by rw [hnamed.isDir.1, hnamed'.isDir.1, happ.1]⟩
  rcases hloc with hloc | hloc <;> rcases hloc' with hloc' | hloc'
  · exact hne (hname _ _ hloc hloc').1
  · exact h.noClash t ht t' ht' (hname _ _ hloc hloc').2 (hname _ _ hloc hloc').1
  · exact h.noClash t' ht' t ht (hname _ _ hloc hloc').2.symm (hname _ _ hloc hloc').1.symm
  · exact hne (meta_inj (hname _ _ hloc hloc').1)

end Touched

/-! ## What is changed, and what a backend has -/

section Keeping

variable {object : String → Option O} {contents : N → O → Option Bytes}
  {st st' st'' : Storage N} {b : BackendConfig} {path hash : String} {dir : Location}

/-- Nothing but what was touched is changed. -/
structure Reads (contents : N → O → Option Bytes) (hash : String) (st st' : Storage N) : Prop
    extends Touches hash st st' where
  tree : st'.tree = st.tree
  objects : contents st'.net = contents st.net

theorem Reads.refl (hash : String) (st : Storage N) : Reads contents hash st st :=
  ⟨Touches.refl hash st, rfl, rfl⟩

theorem Reads.trans (h : Reads contents hash st st') (h' : Reads contents hash st' st'') :
    Reads contents hash st st'' :=
  ⟨h.toTouches.trans h'.toTouches, h'.tree.trans h.tree, h'.objects.trans h.objects⟩

theorem reads_touching (h : Named st path hash dir) (hu : Usable st path hash) :
    Reads contents hash st (st.touching path hash (dir ++ [hash])) := by
  refine ⟨⟨.refl _, fun _ ht => List.mem_cons_of_mem _ ht, fun t ht => ?_⟩, rfl, rfl⟩
  rcases List.mem_cons.mp ht with rfl | hold
  · exact .inr ⟨rfl, ⟨dir, h, .inl rfl⟩, hu⟩
  · exact .inl hold

theorem touches_rewriting (h : Named st path hash dir) (hu : Usable st path hash)
    (files : HashMap Location Bytes) : Touches hash st (st.rewriting path hash dir files) := by
  refine ⟨⟨rfl, rfl⟩, fun _ ht => List.mem_cons_of_mem _ (List.mem_cons_of_mem _ ht),
    fun t ht => ?_⟩
  rcases List.mem_cons.mp ht with rfl | ht
  · exact .inr ⟨rfl, ⟨dir, h, .inr rfl⟩, hu⟩
  · rcases List.mem_cons.mp ht with rfl | hold
    · exact .inr ⟨rfl, ⟨dir, h, .inl rfl⟩, hu⟩
    · exact .inl hold

/-- The storage with other servers. -/
def answering (st : Storage N) (net : N) : Storage N := { st with net := net }

theorem touches_answering (net : N) : Touches hash st (st.answering net) :=
  ⟨.refl _, fun _ ht => ht, fun _ ht => .inl ht⟩

/-- The backend has these data for the hash. -/
def Holds (object : String → Option O) (contents : N → O → Option Bytes) (st : Storage N)
    (b : BackendConfig) (hash : String) (data : Bytes) : Prop :=
  match b with
  | .local path =>
    (∃ dir, Named st path hash dir ∧ st.tree.read (dir ++ [hash]) = some (some data)) ∧
      ∃ t ∈ st.touched, t.path = path ∧ t.hash = hash
  | .s3 .. | .moe .. =>
    ∃ url ∈ b.url hash, ∃ o, object url = some o ∧ contents st.net o = some data

theorem Holds.reads {hash' : String} {data : Bytes} (h : Holds object contents st b hash data)
    (hreads : Reads contents hash' st st') : Holds object contents st' b hash data := by
  cases b with
  | «local» path =>
    obtain ⟨⟨dir, hnamed, hread⟩, t, ht, htouch⟩ := h
    exact ⟨⟨dir, hnamed.congr hreads.same, hreads.tree.symm ▸ hread⟩, t, hreads.keeps t ht, htouch⟩
  | s3 | moe =>
    obtain ⟨url, hurl, o, ho, hdata⟩ := h
    exact ⟨url, hurl, o, ho, hreads.objects.symm ▸ hdata⟩

/-- What is done to the files of another hash does not change this one. -/
theorem Holds.rewriting {hash' path' : String} {dir' : Location} {data : Bytes}
    {files : HashMap Location Bytes} (h : Holds object contents st b hash data)
    (hu : Usable st path' hash') (hnamed' : Named st path' hash' dir') (hne : hash' ≠ hash)
    (hfiles : ∀ loc, loc ≠ dir' ++ [hash'] → loc ≠ dir' ++ [hash' ++ ".meta"] →
      files.lookup loc = st.tree.files.lookup loc) :
    Holds object contents (st.rewriting path' hash' dir' files) b hash data := by
  cases b with
  | «local» path =>
    obtain ⟨⟨dir, hnamed, hread⟩, t, ht, hpath, hhash⟩ := h
    have hlocs : ∀ name, dir ++ [hash] = dir' ++ [name] → dir = dir' ∧ hash = name := by
      intro name heq
      have happ := List.append_inj' heq rfl
      exact ⟨happ.1, by simpa using happ.2⟩
    have hsame : st.tree.locate path' = st.tree.locate t.path ↔ dir' = dir := by
      rw [hpath, hnamed.isDir.1, hnamed'.isDir.1, Option.some.injEq]
    have hlook : files.lookup (dir ++ [hash]) = st.tree.files.lookup (dir ++ [hash]) := by
      refine hfiles _ (fun heq => hne (hlocs _ heq).2.symm) fun heq => ?_
      obtain ⟨hdir, hmeta⟩ := hlocs _ heq
      have hclash := hu.noClash t ht (hsame.mpr hdir.symm).symm
      exact hclash.1 (hhash.trans hmeta)
    have hsameDirs : FileTree.SameDirs st.tree (st.rewriting path' hash' dir' files).tree :=
      ⟨rfl, rfl⟩
    refine ⟨⟨dir, hnamed.congr hsameDirs, ?_⟩, t,
      List.mem_cons_of_mem _ (List.mem_cons_of_mem _ ht), hpath, hhash⟩
    rw [← hread]
    exact congrArg (fun file => if dir ++ [hash] ∈ st.tree.dirs then none else some file) hlook
  | s3 | moe => exact h

/-- What is done to one object at a server does not change the others. -/
theorem Holds.answering [DecidableEq O] {url : String} {o : O} {net : N} {data : Bytes}
    {value : Option Bytes} (h : Holds object contents st b hash data)
    (ho : object url = some o)
    (hnet : contents net = Function.update (contents st.net) o value)
    (happart : ∀ url' ∈ b.url hash, object url' ≠ object url) :
    Holds object contents (st.answering net) b hash data := by
  cases b with
  | «local» path =>
    obtain ⟨⟨dir, hnamed, hread⟩, htouched⟩ := h
    exact ⟨⟨dir, hnamed.congr ⟨rfl, rfl⟩, hread⟩, htouched⟩
  | s3 | moe =>
    obtain ⟨url', hurl', o', ho', hdata⟩ := h
    refine ⟨url', hurl', o', ho', ?_⟩
    have hne : o' ≠ o := fun heq => happart url' hurl' (by rw [ho', ho, heq])
    rw [Storage.answering, hnet, Function.update_of_ne hne]
    exact hdata

theorem meta_loc_ne (dir : Location) (hash : String) : dir ++ [hash ++ ".meta"] ≠ dir ++ [hash] :=
  fun heq => meta_ne hash (by simpa using (List.append_inj' heq rfl).2)

theorem exists_object (hu : CanUse object st b hash) {url : String} (hurl : b.url hash = some url) :
    ∃ o, object url = some o :=
  Option.isSome_iff_exists.mp (hu.2 url hurl)

end Keeping

/-! ## What a backend does with a hash that it can use -/

section Backends

variable [Http N] {object : String → Option O} {contents : N → O → Option Bytes}
  {st : Storage N} {b : BackendConfig} {hash : String}

/-- **What is fetched is the object**, and nothing changes. -/
theorem fetch_spec (st : Storage N) {url : String} {headers : List (String × String)} {o : O}
    (hserver : Gets object contents url headers) (ho : object url = some o) :
    ∃ net, st.fetch url headers = (some (contents st.net o), st.answering net) ∧
      contents net = contents st.net := by
  obtain ⟨r, net, hsend, hsame, hanswer⟩ := hserver o ho st.net
  refine ⟨net, ?_, hsame⟩
  rw [fetch, send, hsend]
  dsimp only
  cases hcontents : contents st.net o with
  | none =>
    rw [hcontents] at hanswer
    rw [if_pos hanswer]
    rfl
  | some data =>
    rw [hcontents] at hanswer
    rw [if_neg (Response.isSuccess_ne hanswer.1), if_pos hanswer.1, hanswer.2]
    rfl

variable [DecidableEq O]

/-- **What is uploaded is the object then**, and no other changes. -/
theorem upload_spec (st : Storage N) {request : Request} {url : String} {data : Bytes}
    {result : StorageResult} {o : O} (hserver : Writes object contents request url (some data))
    (ho : object url = some o) :
    ∃ net, st.upload request result = (some result, st.answering net) ∧
      contents net = Function.update (contents st.net) o (some data) := by
  obtain ⟨r, net, hsend, hsuccess, hcontents⟩ := hserver o ho st.net
  refine ⟨net, ?_, hcontents⟩
  rw [upload, send, hsend]
  dsimp only
  rw [if_pos hsuccess]
  rfl

/-- **A backend that works**: the directory of a local one is there, and a server keeps its
    objects. -/
def Works (object : String → Option O) (contents : N → O → Option Bytes) (t : FileTree) :
    BackendConfig → Prop
  | .local path => ∃ dir, t.IsDir path dir
  | .s3 b => ∀ hash, Gets object contents (b.objectUrl hash) b.getHeaders ∧
      (∀ data, Writes object contents (b.putRequest hash data) (b.objectUrl hash) (some data)) ∧
      Writes object contents (b.deleteRequest hash) (b.objectUrl hash) none
  | .moe b => ∀ hash, Gets object contents (b.objectUrl hash) b.headers ∧
      ∀ data metadata, Writes object contents (b.postRequest hash data metadata)
        (b.objectUrl hash) (some data)

theorem Works.congr {t t' : FileTree} (h : Works object contents t b)
    (hsame : FileTree.SameDirs t t') : Works object contents t' b := by
  cases b with
  | «local» path =>
    obtain ⟨dir, hdir⟩ := h
    exact ⟨dir, hsame.isDir ▸ hdir⟩
  | s3 | moe => exact h

theorem reads_load (hw : Works object contents st.tree b) (hu : CanUse object st b hash) :
    Reads contents hash st (b.load st hash).2 := by
  cases b with
  | «local» path =>
    obtain ⟨dir, hdir⟩ := hw
    have hnamed : Named st path hash dir := ⟨hdir, (hu.1 path rfl).fileName⟩
    rw [BackendConfig.load, load_local_eq hnamed]
    exact reads_touching hnamed (hu.1 path rfl)
  | s3 b =>
    obtain ⟨o, ho⟩ := exists_object hu rfl
    obtain ⟨net, hfetch, hsame⟩ := fetch_spec st (hw hash).1 ho
    rw [BackendConfig.load, S3Backend.load, hfetch]
    exact ⟨touches_answering net, rfl, hsame⟩
  | moe b =>
    obtain ⟨o, ho⟩ := exists_object hu rfl
    obtain ⟨net, hfetch, hsame⟩ := fetch_spec st (hw hash).1 ho
    rw [BackendConfig.load, MoeBackend.load, hfetch]
    exact ⟨touches_answering net, rfl, hsame⟩

theorem reads_isStored (hw : Works object contents st.tree b) (hu : CanUse object st b hash) :
    Reads contents hash st (b.isStored st hash).2 := by
  cases b with
  | «local» path =>
    obtain ⟨dir, hdir⟩ := hw
    have hnamed : Named st path hash dir := ⟨hdir, (hu.1 path rfl).fileName⟩
    have hstored : ((BackendConfig.local path).isStored st hash).2 =
        (LocalBackend.exists? path st hash).2 := rfl
    rw [hstored, exists_local_eq hnamed]
    exact reads_touching hnamed (hu.1 path rfl)
  | s3 | moe => exact reads_load hw hu

theorem Holds.load {data : Bytes} (h : Holds object contents st b hash data)
    (hw : Works object contents st.tree b) : (b.load st hash).1 = some (some data) := by
  cases b with
  | «local» path =>
    obtain ⟨⟨dir, hnamed, hread⟩, _⟩ := h
    rw [BackendConfig.load, load_local_eq hnamed]
    exact hread
  | s3 b =>
    obtain ⟨url, hurl, o, ho, hdata⟩ := h
    obtain rfl := Option.some.inj hurl
    obtain ⟨net, hfetch, -⟩ := fetch_spec st (hw hash).1 ho
    rw [BackendConfig.load, S3Backend.load, hfetch, hdata]
  | moe b =>
    obtain ⟨url, hurl, o, ho, hdata⟩ := h
    obtain rfl := Option.some.inj hurl
    obtain ⟨net, hfetch, -⟩ := fetch_spec st (hw hash).1 ho
    rw [BackendConfig.load, MoeBackend.load, hfetch, hdata]

/-- **Storing succeeds**, the backend then has the data, and the objects apart from it as before. -/
theorem store_spec (hw : Works object contents st.tree b) (hu : CanUse object st b hash)
    (hwrite : ∀ path, b = .local path → Writable st path hash) (data : Bytes)
    (metadata : List (String × String)) (now : ℤ) :
    ∃ result st', b.store st hash data metadata now = (some result, st') ∧ Touches hash st st' ∧
      Holds object contents st' b hash data ∧
      ∀ hash' data', hash' ≠ hash → Apart object b hash' b hash →
        Holds object contents st b hash' data' → Holds object contents st' b hash' data' := by
  cases b with
  | «local» path =>
    obtain ⟨dir, hdir⟩ := hw
    have husable := hu.1 path rfl
    have hnamed : Named st path hash dir := ⟨hdir, husable.fileName⟩
    obtain ⟨hobject, hmeta⟩ := hwrite path rfl dir hdir.1
    have hstore := store_local_eq hnamed hobject hmeta data metadata now
    have htouches := touches_rewriting hnamed husable
      ((st.tree.files.insert (dir ++ [hash]) data).insert (dir ++ [hash ++ ".meta"])
        (metaJson metadata))
    refine ⟨_, _, hstore, htouches, ⟨⟨dir, hnamed.congr htouches.same, ?_⟩, ?_⟩, ?_⟩
    · -- the metadata is written last, but into another file
      have hlook : ((st.tree.files.insert (dir ++ [hash]) data).insert (dir ++ [hash ++ ".meta"])
          (metaJson metadata)).lookup (dir ++ [hash]) = some data := by
        rw [AList.lookup_insert_ne (meta_loc_ne dir hash).symm, AList.lookup_insert]
      exact (if_neg hobject).trans (congrArg some hlook)
    · exact ⟨⟨path, hash, dir ++ [hash ++ ".meta"]⟩, List.mem_cons_self, rfl, rfl⟩
    · intro hash' data' hne _ hholds
      refine hholds.rewriting husable hnamed hne.symm fun loc hobj hmet => ?_
      rw [AList.lookup_insert_ne hmet, AList.lookup_insert_ne hobj]
  | s3 b =>
    obtain ⟨o, ho⟩ := exists_object hu rfl
    obtain ⟨net, hstore, hnet⟩ := upload_spec st ((hw hash).2.1 data) ho
    refine ⟨_, _, hstore, touches_answering net, ⟨_, rfl, o, ho, ?_⟩,
      fun hash' data' _ hapart hholds => hholds.answering ho hnet fun url' hurl' =>
        hapart url' hurl' _ rfl⟩
    exact (congrFun hnet o).trans (Function.update_self ..)
  | moe b =>
    obtain ⟨o, ho⟩ := exists_object hu rfl
    obtain ⟨net, hstore, hnet⟩ := upload_spec st ((hw hash).2 data metadata) ho
    refine ⟨_, _, hstore, touches_answering net, ⟨_, rfl, o, ho, ?_⟩,
      fun hash' data' _ hapart hholds => hholds.answering ho hnet fun url' hurl' =>
        hapart url' hurl' _ rfl⟩
    exact (congrFun hnet o).trans (Function.update_self ..)

theorem touches_delete (hw : Works object contents st.tree b) (hu : CanUse object st b hash) :
    Touches hash st (b.delete st hash) := by
  cases b with
  | «local» path =>
    obtain ⟨dir, hdir⟩ := hw
    have hnamed : Named st path hash dir := ⟨hdir, (hu.1 path rfl).fileName⟩
    rw [BackendConfig.delete, delete_local_eq hnamed]
    exact touches_rewriting hnamed (hu.1 path rfl) _
  | s3 => exact touches_answering _
  | moe => exact .refl hash st

theorem Holds.delete {b' : BackendConfig} {hash' : String} {data : Bytes}
    (h : Holds object contents st b hash' data) (hw : Works object contents st.tree b')
    (hu : CanUse object st b' hash) (hne : hash' ≠ hash) (hapart : Apart object b hash' b' hash) :
    Holds object contents (b'.delete st hash) b hash' data := by
  cases b' with
  | «local» path =>
    obtain ⟨dir, hdir⟩ := hw
    have husable := hu.1 path rfl
    have hnamed : Named st path hash dir := ⟨hdir, husable.fileName⟩
    rw [BackendConfig.delete, delete_local_eq hnamed]
    refine h.rewriting husable hnamed hne.symm fun loc hobj hmet => ?_
    rw [AList.lookup_erase_ne hmet, AList.lookup_erase_ne hobj]
  | s3 b' =>
    obtain ⟨o, ho⟩ := exists_object hu rfl
    obtain ⟨r, net, hsend, -, hnet⟩ := (hw hash).2.2 o ho st.net
    have hdelete : (BackendConfig.s3 b').delete st hash = st.answering net := by
      rw [BackendConfig.delete, S3Backend.delete, send, hsend]
      rfl
    rw [hdelete]
    exact h.answering ho hnet fun url' hurl' => hapart url' hurl' _ rfl
  | moe => exact h

end Backends

end Storage

end Argunix.AgentFlow
