import Argunix.Lib.HashMap
import Argunix.Lib.Runs

/-!
# `argunix-registry`: the blob pool

The pool is a directory of files that are named by the SHA-256 of their contents. Files get there
on four ways: `convert` renames what `skopeo` has written, or copies it if the rename fails, and
writes the manifest; `assemble_index` writes an index. Each of them first looks whether the file is
there, and trusts it if it is.

Only the rename puts a file into the pool as a whole. The other three open it under its name and
fill it, and while that lasts, or for good if it is cut short, **the pool has a file that is not
what its name says**. `skopeo` writes to a scratch directory that is named after the job, and two
calls for one job have the same one.

`Meets` keeps clear of both. What then holds of every run is in `Scratch.lean`.
-/

set_option autoImplicit false

namespace Argunix.Registry.BlobPool

open Argunix.Lib

/-- The contents of a file. -/
abbrev Bytes := List UInt8

/-! ## Files -/

/-- A directory; a name leads to the number of a file. -/
structure Files where
  names : HashMap String ℕ
  inodes : List Bytes

namespace Files

/-- What is in a file after a write at an offset. A gap is filled with zeros. -/
def writeAt (content : Bytes) (offset : ℕ) (chunk : Bytes) : Bytes :=
  content.take offset ++ List.replicate (offset - content.length) 0 ++ chunk ++
    content.drop (offset + chunk.length)

/-- What a name leads to. -/
def contents (f : Files) (name : String) : Option Bytes :=
  (f.names.lookup name).bind fun n => f.inodes[n]?

/-- `rename` of a finished file: it replaces what was under the name. -/
def rename (f : Files) (name : String) (data : Bytes) : Files :=
  { names := f.names.insert name f.inodes.length, inodes := f.inodes ++ [data] }

/-- Open for writing: a file that is there is truncated. -/
def create (f : Files) (name : String) : ℕ × Files :=
  match f.names.lookup name with
  | some n => (n, { f with inodes := f.inodes.set n [] })
  | none =>
    (f.inodes.length,
      { names := f.names.insert name f.inodes.length, inodes := f.inodes ++ [[]] })

/-- A chunk is written at an offset of a file that is open. -/
def write (f : Files) (n offset : ℕ) (chunk : Bytes) : Files :=
  { f with inodes := f.inodes.modify n fun content => writeAt content offset chunk }

/-- The next chunk goes to the end of what is there. -/
theorem writeAt_take {data : Bytes} {k count : ℕ} (hk : k ≤ data.length) :
    writeAt (data.take k) k ((data.drop k).take count) = data.take (k + count) := by
  have hlen : (data.take k).length = k := List.length_take_of_le hk
  have hbehind : (data.take k).drop (k + ((data.drop k).take count).length) = [] :=
    List.drop_eq_nil_of_le (by omega)
  rw [writeAt, hbehind, hlen, Nat.sub_self, List.replicate_zero, List.append_nil, List.append_nil,
    List.take_take, Nat.min_self]
  exact List.take_add.symm

theorem lookup_rename {f : Files} {name h : String} {data : Bytes} :
    (f.rename name data).names.lookup h =
      if h = name then some f.inodes.length else f.names.lookup h :=
  HashMap.lookup_insert_eq name h _ f.names

theorem getElem?_rename {f : Files} {name : String} {data : Bytes} {n : ℕ}
    (hn : n < f.inodes.length) : (f.rename name data).inodes[n]? = f.inodes[n]? :=
  List.getElem?_append_left hn

theorem isSome_rename {f : Files} {name h : String} {data : Bytes}
    (hh : (f.names.lookup h).isSome = true) :
    ((f.rename name data).names.lookup h).isSome = true := by
  rw [lookup_rename]
  split
  · rfl
  · exact hh

end Files

/-! ## The registry -/

/-- The row ids after which `convert` names its scratch directory. -/
abbrev Job := ℕ × ℕ

/-- A directory that `skopeo` fills; it renames each file into it. -/
abbrev Directory := HashMap String Bytes

/-- The names that `convert` moves. -/
def blobNames (dir : Directory) : List String :=
  dir.keys.filter fun name => name ≠ "manifest.json" && name ≠ "version"

/-- A file on its way into the pool. -/
structure Put where
  name : String
  /-- What `tokio::fs::write` is given. `move_or_replace` has none: it takes the file of that name
      from the scratch directory. -/
  bytes : Option Bytes
deriving DecidableEq, Repr

/-- Where a task stands with the first of its files. -/
inductive PutPc
  /-- Before `exists()`. -/
  | testing
  /-- It was not there. -/
  | absent
  | writing (inode : ℕ) (data : Bytes) (written : ℕ)
deriving DecidableEq, Repr

/-- A task that brings files to the pool. -/
structure Moving where
  /-- The files that are left. -/
  puts : List Put
  pc : PutPc
  /-- The manifest that is published in the end. -/
  manifest : Option Bytes
deriving DecidableEq, Repr

/-- Where a call of `convert` or of `assemble_index` stands. -/
inductive Stage
  /-- What an earlier call has left in the scratch directory is removed. -/
  | clearing
  /-- There was no scratch directory, or it is removed. -/
  | cleared
  /-- `skopeo` is running, and has written these files. -/
  | copying (wrote : Directory)
  /-- `skopeo` has exited with success. -/
  | copied
  /-- `manifest.json` is read. -/
  | manifestRead (manifest : Bytes)
  | moving (m : Moving)
  /-- The call is over, but its `skopeo` still runs. -/
  | orphan
  | over
deriving DecidableEq

/-- A call of `publish`, or of `assemble_index`. -/
structure Task where
  /-- Of whose scratch directory the call makes use. -/
  job : Option Job
  stage : Stage
deriving DecidableEq

/-- A file that a task is filling. -/
structure Writer where
  inode : ℕ
  name : String
  data : Bytes
  written : ℕ
deriving DecidableEq, Repr

/-- The write that is going on. -/
def Moving.writer? (m : Moving) : Option Writer :=
  match m.pc, m.puts with
  | .writing n data k, p :: _ => some ⟨n, p.name, data, k⟩
  | _, _ => none

namespace Task

/-- The blobs it has still to put into the pool. -/
def puts (t : Task) : List Put :=
  match t.stage with
  | .moving m => m.puts
  | _ => []

/-- The manifest it has read. -/
def manifest (t : Task) : Option Bytes :=
  match t.stage with
  | .moving m => m.manifest
  | _ => none

/-- Its write that is going on. -/
def writer? (t : Task) : Option Writer :=
  match t.stage with
  | .moving m => m.writer?
  | _ => none

/-- What remains of a task that is cut short: `skopeo` is a process of its own. -/
def left (t : Task) : Task :=
  match t.stage with
  | .copying _ => ⟨t.job, .orphan⟩
  | .orphan => ⟨t.job, .orphan⟩
  | _ => ⟨none, .over⟩

theorem job_left {t : Task} {job : Job} (h : job ∈ t.left.job) : t.job = some job := by
  rw [left] at h
  split at h
  · exact h
  · exact h
  · cases h

theorem left_empty (t : Task) :
    t.left.puts = [] ∧ t.left.manifest = none ∧ t.left.writer? = none := by
  rw [left]
  split <;> exact ⟨rfl, rfl, rfl⟩

end Task

/-- The pool with the scratch directories and everybody who is at work in them. -/
structure State where
  files : Files
  scratch : HashMap Job Directory
  tasks : List Task
  /-- What the API has sent, under the digest it was asked for. -/
  served : List (String × Bytes)
  /-- The manifests for which `publish` has returned `Ok`. -/
  published : List Bytes

/-- What the registry takes from elsewhere: `sha2` with `hex`, and the digests that `skopeo` refers
    to in a manifest. -/
structure Formats where
  sha256 : Bytes → String
  references : Bytes → List String

/-- A step of a task with its first file. -/
inductive PutAct
  | test
  | rename
  /-- For a write, or for the copy after a rename that failed. -/
  | create
  | write (count : ℕ)
  | close
deriving DecidableEq, Repr

/-- A step of `convert` with its scratch directory. -/
inductive ScratchAct
  /-- A file goes in `remove_dir_all`, which runs at first and when all files are through. -/
  | remove (name : String)
  /-- The end of `remove_dir_all`, or `exists()` has found nothing. -/
  | removeDir
  | createDir
  /-- `skopeo` writes a file. -/
  | skopeo (name : String) (data : Bytes)
  /-- `skopeo` exits. -/
  | exit
  | readManifest
  /-- The names come in some order. -/
  | readDir (names : List String)
deriving DecidableEq, Repr

/-- What can happen to the pool. -/
inductive Action
  /-- `publish` calls `convert`. -/
  | convert (job : Job)
  | scratch (i : ℕ) (act : ScratchAct)
  | assembleIndex (bytes : Bytes)
  | put (i : ℕ) (act : PutAct)
  /-- An error, wherever the task is. -/
  | fail (i : ℕ)
  /-- The row is inserted, and `publish` returns. -/
  | finish (i : ℕ)
  | crash
  /-- `handle_blob` or `manifest_by_digest` -/
  | serve (hex : String)
deriving DecidableEq, Repr

/-- The check of both handlers. -/
def isDigestHex (hex : String) : Bool :=
  hex.toList.length = 64 && hex.toList.all fun c =>
    ('0' ≤ c && c ≤ '9') || ('a' ≤ c && c ≤ 'f') || ('A' ≤ c && c ≤ 'F')

/-- The first file is through. -/
def Moving.next (m : Moving) (rest : List Put) : Moving := { m with puts := rest, pc := .testing }

namespace State

/-- An empty pool. -/
def new : State := { files := ⟨∅, []⟩, scratch := ∅, tasks := [], served := [], published := [] }

/-- What becomes of a task. -/
def setTask (s : State) (i : ℕ) (t : Task) : State := { s with tasks := s.tasks.set i t }

/-- The bytes that a task has for a file: its own, or what its scratch directory has now. -/
def bytesOf (s : State) (job : Option Job) (p : Put) : Option Bytes :=
  p.bytes.or (job.bind fun job => (s.scratch.lookup job).bind fun dir => dir.lookup p.name)

/-- The scratch directories after `move_or_replace` is through with a file. -/
def unlink (s : State) (job : Option Job) (p : Put) : HashMap Job Directory :=
  if p.bytes = none then
    match job with
    | some job => s.scratch.modify job fun dir => dir.erase p.name
    | none => s.scratch
  else s.scratch

/-- A step of task `i` with the first of its files. -/
def putAct (s : State) (i : ℕ) (job : Option Job) (m : Moving) (p : Put) (rest : List Put) :
    PutAct → Option State
  | .test =>
    if m.pc = .testing then
      if (s.files.names.lookup p.name).isSome then
        some { s.setTask i ⟨job, .moving (m.next rest)⟩ with scratch := s.unlink job p }
      else some (s.setTask i ⟨job, .moving { m with pc := .absent }⟩)
    else none
  | .rename =>
    if m.pc = .absent ∧ p.bytes = none then
      match s.bytesOf job p with
      | some data =>
        some { s.setTask i ⟨job, .moving (m.next rest)⟩ with
          files := s.files.rename p.name data, scratch := s.unlink job p }
      | none => none
    else none
  | .create =>
    if m.pc = .absent then
      match s.bytesOf job p with
      | some data =>
        some { s.setTask i
            ⟨job, .moving { m with pc := .writing (s.files.create p.name).1 data 0 }⟩ with
          files := (s.files.create p.name).2 }
      | none => none
    else none
  | .write count =>
    match m.pc with
    | .writing n data k =>
      if k + count ≤ data.length then
        some { s.setTask i ⟨job, .moving { m with pc := .writing n data (k + count) }⟩ with
          files := s.files.write n k ((data.drop k).take count) }
      else none
    | _ => none
  | .close =>
    match m.pc with
    | .writing _ data k =>
      -- `remove_file` fails if the copied file is gone
      if k = data.length ∧ (s.bytesOf job p).isSome = true then
        some { s.setTask i ⟨job, .moving (m.next rest)⟩ with scratch := s.unlink job p }
      else none
    | _ => none

variable (formats : Formats)

/-- What `skopeo` writes: each blob under its digest, and every one that the manifest refers to. -/
def IsDirectory (dir : Directory) : Prop :=
  (∀ name ∈ blobNames dir, ∀ data ∈ dir.lookup name, formats.sha256 data = name) ∧
    ∀ manifest ∈ dir.lookup "manifest.json", ∀ h ∈ formats.references manifest, h ∈ blobNames dir

instance (dir : Directory) : Decidable (IsDirectory formats dir) :=
  inferInstanceAs (Decidable (_ ∧ _))

/-- The files of `convert`: the blobs, in the order of the directory, and then the manifest. -/
def convertPuts (names : List String) (manifest : Bytes) : List Put :=
  (names.map fun name => ⟨name, none⟩) ++ [⟨formats.sha256 manifest, some manifest⟩]

/-- A step of task `i` with the scratch directory of its job. -/
def scratchAct (s : State) (i : ℕ) (job : Job) (stage : Stage) : ScratchAct → Option State
  | .remove name =>
    match stage with
    | .clearing | .moving ⟨[], _, _⟩ =>
      some { s with scratch := s.scratch.modify job fun dir => dir.erase name }
    | _ => none
  | .removeDir =>
    if ∀ dir ∈ s.scratch.lookup job, dir.keys = [] then
      match stage with
      | .clearing => some { s.setTask i ⟨some job, .cleared⟩ with scratch := s.scratch.erase job }
      | .moving ⟨[], _, _⟩ => some { s with scratch := s.scratch.erase job }
      | _ => none
    else none
  | .createDir =>
    match stage with
    | .cleared =>
      some { s.setTask i ⟨some job, .copying ∅⟩ with
        scratch := s.scratch.insert job ((s.scratch.lookup job).getD ∅) }
    | _ => none
  | .skopeo name data =>
    if (s.scratch.lookup job).isSome = true then
      match stage with
      | .copying wrote =>
        some { s.setTask i ⟨some job, .copying (wrote.insert name data)⟩ with
          scratch := s.scratch.modify job fun dir => dir.insert name data }
      | .orphan => some { s with scratch := s.scratch.modify job fun dir => dir.insert name data }
      | _ => none
    else none
  | .exit =>
    match stage with
    | .copying wrote =>
      if IsDirectory formats wrote then some (s.setTask i ⟨some job, .copied⟩) else none
    | .orphan => some (s.setTask i ⟨none, .over⟩)
    | _ => none
  | .readManifest =>
    match stage, (s.scratch.lookup job).bind fun dir => dir.lookup "manifest.json" with
    | .copied, some manifest => some (s.setTask i ⟨some job, .manifestRead manifest⟩)
    | _, _ => none
  | .readDir names =>
    match stage, s.scratch.lookup job with
    | .manifestRead manifest, some dir =>
      if names.Perm (blobNames dir) then
        some (s.setTask i
          ⟨some job, .moving ⟨convertPuts formats names manifest, .testing, some manifest⟩⟩)
      else none
    | _, _ => none

/-- One of these. A write goes chunk by chunk, and anybody may come in between. -/
def act (s : State) : Action → Option State
  | .convert job => some { s with tasks := s.tasks ++ [⟨some job, .clearing⟩] }
  | .scratch i a =>
    match s.tasks[i]? with
    | some ⟨some job, stage⟩ => s.scratchAct formats i job stage a
    | _ => none
  | .assembleIndex bytes =>
    some { s with tasks := s.tasks ++
      [⟨none, .moving ⟨[⟨formats.sha256 bytes, some bytes⟩], .testing, none⟩⟩] }
  | .put i a =>
    match s.tasks[i]? with
    | some ⟨job, .moving m⟩ =>
      match m.puts with
      | p :: rest => s.putAct i job m p rest a
      | [] => none
    | _ => none
  | .fail i =>
    match s.tasks[i]? with
    | some t => some (s.setTask i t.left)
    | none => none
  | .finish i =>
    match s.tasks[i]? with
    | some ⟨_, .moving ⟨[], _, some manifest⟩⟩ =>
      some { s.setTask i ⟨none, .over⟩ with published := s.published ++ [manifest] }
    | _ => none
  | .crash => some { s with tasks := s.tasks.map Task.left }
  | .serve hex =>
    if isDigestHex hex = true then
      match s.files.contents hex with
      | some bytes => some { s with served := s.served ++ [(hex, bytes)] }
      | none => none
    else none

/-! ## What is wanted -/

/-- **The pool is content-addressed**: what is served has the digest that was asked for, and what
    was published is there. -/
structure Addressed (s : State) : Prop where
  served : ∀ x ∈ s.served, formats.sha256 x.2 = x.1
  published : ∀ m ∈ s.published, ∀ h ∈ formats.sha256 m :: formats.references m,
    (s.files.names.lookup h).isSome = true

/-- No task is filling this file. -/
def Unwritten (s : State) (n : ℕ) : Prop := ∀ t ∈ s.tasks, ∀ w ∈ t.writer?, w.inode ≠ n

instance (s : State) (n : ℕ) : Decidable (s.Unwritten n) :=
  inferInstanceAs (Decidable (∀ t ∈ s.tasks, ∀ w ∈ t.writer?, _))

/-- **Nothing meets a file that is being written, and no two calls share a scratch directory.** -/
def Meets (s : State) : Action → Prop
  | .convert job => ∀ t ∈ s.tasks, t.job ≠ some job
  | .crash => ∀ t ∈ s.tasks, t.writer? = none
  | .fail i => ∀ t ∈ s.tasks[i]?, t.writer? = none
  | .serve hex => ∀ n ∈ s.files.names.lookup hex, s.Unwritten n
  | .put i .create => ∀ t ∈ s.tasks[i]?, ∀ p ∈ t.puts.head?,
      ∀ n ∈ s.files.names.lookup p.name, s.Unwritten n
  | _ => True

/-- Task `i` is filling a file. -/
def WriterAt (s : State) (i : ℕ) (w : Writer) : Prop :=
  ∃ t, s.tasks[i]? = some t ∧ t.writer? = some w

variable {formats} {s : State} {i : ℕ} {t : Task}

theorem getElem?_setTask (ht : s.tasks[i]? = some t) (t' : Task) (k : ℕ) :
    (s.setTask i t').tasks[k]? = if i = k then some t' else s.tasks[k]? := by
  obtain ⟨hlt, -⟩ := List.getElem?_eq_some_iff.mp ht
  show (s.tasks.set i t')[k]? = _
  rw [List.getElem?_set]
  by_cases hk : i = k
  · rw [if_pos hk, if_pos hk, if_pos hlt]
  · rw [if_neg hk, if_neg hk]

/-- A task after the change of one of them. -/
theorem of_setTask {t' t₁ : Task} (ht : s.tasks[i]? = some t) {k : ℕ}
    (h : (s.tasks.set i t')[k]? = some t₁) :
    (k = i ∧ t₁ = t') ∨ (k ≠ i ∧ s.tasks[k]? = some t₁) := by
  have hk := (getElem?_setTask ht t' k).symm.trans h
  split at hk
  · rename_i heq
    exact .inl ⟨heq.symm, (Option.some.inj hk).symm⟩
  · rename_i hne
    exact .inr ⟨Ne.symm hne, hk⟩

/-- A task after a call has begun. -/
theorem of_append {t₁ : Task} {k : ℕ} (h : (s.tasks ++ [t])[k]? = some t₁) :
    s.tasks[k]? = some t₁ ∨ (k = s.tasks.length ∧ t₁ = t) := by
  rcases lt_trichotomy k s.tasks.length with hlt | rfl | hgt
  · exact .inl ((List.getElem?_append_left hlt).symm.trans h)
  · exact .inr ⟨rfl, Option.some.inj (h.symm.trans List.getElem?_concat_length)⟩
  · rw [List.getElem?_eq_none (by simp; omega)] at h
    cases h

/-- A writer after the change of one task. -/
theorem writerAt_cases {t' : Task} {s' : State} (ht : s.tasks[i]? = some t)
    (htasks : s'.tasks = s.tasks.set i t') {k : ℕ} {w : Writer} (h : s'.WriterAt k w) :
    (k = i ∧ t'.writer? = some w) ∨ (k ≠ i ∧ s.WriterAt k w) := by
  obtain ⟨t₁, hk, hw⟩ := h
  rw [htasks] at hk
  rcases of_setTask ht hk with ⟨rfl, rfl⟩ | ⟨hne, hk⟩
  · exact .inl ⟨rfl, hw⟩
  · exact .inr ⟨hne, t₁, hk, hw⟩

theorem WriterAt.of_ne {t' : Task} {s' : State} (ht : s.tasks[i]? = some t)
    (htasks : s'.tasks = s.tasks.set i t') {k : ℕ} {w : Writer} (hne : k ≠ i)
    (h : s.WriterAt k w) : s'.WriterAt k w := by
  obtain ⟨t₁, hk, hw⟩ := h
  refine ⟨t₁, ?_, hw⟩
  rw [htasks]
  exact (getElem?_setTask ht t' k).trans ((if_neg (Ne.symm hne)).trans hk)

theorem Unwritten.ne {n : ℕ} (h : s.Unwritten n) {w : Writer} (hw : s.WriterAt i w) :
    w.inode ≠ n := by
  obtain ⟨t, ht, hw⟩ := hw
  exact h t (List.mem_of_getElem? ht) w hw

end State

end Argunix.Registry.BlobPool
