import Argunix.Lib.Newest
import Argunix.Daemon.MultiArch
import Argunix.Web.Webhook

/-!
# `argunix-registry`: images and their tags

The way of an image from a push to a pull. The webhook handler files the push as an evaluation; when
a Docker image Job of it has been built, the worker publishes the archive under the image name
`<forge>/<owner>/<repo>/<attr>`, with the `git_ref` of the evaluation's row; and a client that pulls
a tag has the tag translated into a `git_ref` and gets, for each system, the row of that image and
that `git_ref` with the largest id.

All three components are steps on one `World`: the tables `repos`, `evaluations` and
`docker_images`, with what else `persist` needs.
-/

set_option autoImplicit false

namespace Argunix.Registry

open Argunix.Lib Argunix.Store Argunix.Eval Argunix.Forge Argunix.Web

/-! ## Repositories -/

/-- The columns of `repos` that the registry reads. -/
structure RepoRecord where
  id : RepoId
  forge : String
  slug : Slug
  defaultBranch : Option String
deriving DecidableEq

/-- The table `repos`. -/
abbrev RepoTable := List RepoRecord

namespace RepoTable

/-- The row of a slug under a forge. The pair is unique in the table. -/
def find (t : RepoTable) (forge : String) (slug : Slug) : Option RepoRecord :=
  List.find? (fun r => r.forge = forge ∧ r.slug = slug) t

/-- The row with this id. -/
def get (t : RepoTable) (id : RepoId) : Option RepoRecord := List.find? (fun r => r.id = id) t

/-- Above every id in use. -/
def nextId (t : RepoTable) : ℤ := List.foldr (fun r m => max m (r.id.get + 1)) 1 t

/-- `upsert`: the id of the row that is there, or of a new one without metadata. -/
def upsert (t : RepoTable) (forge : String) (slug : Slug) : RepoId × RepoTable :=
  match t.find forge slug with
  | some r => (r.id, t)
  | none => (⟨t.nextId⟩, t ++ [⟨⟨t.nextId⟩, forge, slug, none⟩])

/-- `set_metadata`: the default branch is what the last delivery says. -/
def setMetadata (t : RepoTable) (id : RepoId) (defaultBranch : Option String) : RepoTable :=
  List.map (fun r => if r.id = id then { r with defaultBranch := defaultBranch } else r) t

end RepoTable

/-! ## Images -/

/-- A row of `docker_images`: one slice of an image, as one Job has built it. -/
structure DockerImage where
  id : ℤ
  repoId : RepoId
  evalId : EvalId
  jobId : JobId
  imageName : String
  system : String
  gitRef : String
  sha : Sha
  manifestDigest : String
  manifestPath : String
  createdAt : ℕ
deriving DecidableEq

/-- `docker_images`, ordered by its primary key. -/
structure ImageTable where
  rows : List DockerImage
  increasing : rows.Pairwise fun a b => a.id < b.id

namespace ImageTable

/-- Above every id in use. -/
def nextId (rows : List DockerImage) : ℤ := rows.foldr (fun r m => max m (r.id + 1)) 1

theorem lt_nextId {rows : List DockerImage} {r : DockerImage} (h : r ∈ rows) :
    r.id < nextId rows := by
  induction rows with
  | nil => exact absurd h (by simp)
  | cons x rows ih =>
    rw [nextId, List.foldr_cons, ← nextId]
    rcases List.mem_cons.mp h with rfl | h
    · omega
    · have := ih h
      omega

/-- The row `INSERT` writes. -/
def newRow (t : ImageTable) (row : DockerImage) : DockerImage := { row with id := nextId t.rows }

/-- `create`; the id of `row` is not used. -/
def create (t : ImageTable) (row : DockerImage) : ImageTable where
  rows := t.rows ++ [t.newRow row]
  increasing := List.pairwise_append.mpr
    ⟨t.increasing, List.pairwise_singleton _ _, fun r hr r' hr' => by
      rw [List.mem_singleton.mp hr']
      exact lt_nextId hr⟩

/-- The rows with the largest id of their image, ref and system, ordered by system. -/
def latestPerSystemForBranch (t : ImageTable) (imageName gitRef : String) : List DockerImage :=
  (t.rows.filter fun d => d.imageName = imageName ∧ d.gitRef = gitRef ∧
    some d.id = ((t.rows.filter fun e => e.imageName = d.imageName ∧ e.gitRef = d.gitRef ∧
      e.system = d.system).map DockerImage.id).max?).insertionSort fun a b => a.system ≤ b.system

/-- `sha LIKE '<prefix>%'`, ordered by system and from new to old. -/
def rowsByShaPrefix (t : ImageTable) (imageName shaPrefix : String) : List DockerImage :=
  (t.rows.filter fun d => d.imageName = imageName ∧
    likePlain (shaPrefix.toList ++ ['%']) d.sha.asStr.toList = true).insertionSort fun a b =>
      a.system < b.system ∨ (a.system = b.system ∧ b.createdAt ≤ a.createdAt)

end ImageTable

/-! ## The steps -/

/-- The tables that deliveries, the worker and the registry share. -/
structure World where
  repos : RepoTable
  app : AppState
  images : ImageTable

namespace World

/-- An empty database. -/
def fresh (window : ℕ) : World where
  repos := []
  app := .start ⟨[], EvalTable.increasing_nil⟩ window
  images := ⟨[], List.Pairwise.nil⟩

/-- What `handle_inner` does with a delivery it has received: the row is upserted and refreshed, and
    an event that the policy lets through is persisted. -/
def handle (w : World) (now : ℕ) (r : Received) (listOk createOk : Bool) : Option Outcome × World :=
  let (repoId, repos) := w.repos.upsert r.repo.forge r.slug
  let repos := repos.setMetadata repoId r.event.repo.defaultBranch
  if (evaluate r.provider r.repo r.event).1 = .build then
    let (outcome, app) := w.app.persist now repoId r.event.toPersist listOk createOk
    (some outcome, { w with repos := repos, app := app })
  else (none, { w with repos := repos })

/-- The worker's writes to a row of `evaluations`. -/
def setEvalStatus (w : World) (id : EvalId) (status : EvalStatus) : World :=
  { w with app := { w.app with evals := w.app.evals.setGuarded id status } }

/-- `attr_leaf`, which has the body of `image_segment`. -/
def attrLeaf (attrPath : String) : String := Daemon.imageSegment attrPath

/-- `image_name`: what a client pulls under. -/
def imageName (forge repoSlug leaf : String) : String := forge ++ "/" ++ repoSlug ++ "/" ++ leaf

/-- A Job that was built. `converted` is the digest and the path that the converter returns. -/
structure Built where
  repoId : RepoId
  evalId : EvalId
  jobId : JobId
  spec : JobSpec
  outputPath : Option String
  converted : Option (String × String)
  now : ℕ

/-- `publish`: the row that is recorded, but for its id. -/
def publish (repo : RepoRecord) (eval : EvalRecord) (b : Built) : Option DockerImage := do
  let _ ← b.outputPath
  let (manifestDigest, manifestPath) ← b.converted
  some
    { id := 0
      repoId := b.repoId
      evalId := b.evalId
      jobId := b.jobId
      imageName := imageName repo.forge repo.slug.asStr (attrLeaf b.spec.attrPath)
      system := b.spec.system.getD "unknown"
      gitRef := eval.gitRef
      sha := eval.sha
      manifestDigest := manifestDigest
      manifestPath := manifestPath
      createdAt := b.now }

/-- `try_publish_docker_image`, called for a Docker image. Whatever goes wrong is only logged. -/
def tryPublishDockerImage (w : World) (b : Built) : Option DockerImage × World :=
  match w.repos.get b.repoId, w.app.evals.rows.find? fun e => e.id = b.evalId with
  | some repo, some eval =>
    match if b.spec.imageFormat = some .docker then publish repo eval b else none with
    | some row => (some (w.images.newRow row), { w with images := w.images.create row })
    | none => (none, w)
  | _, _ => (none, w)

/-! ## Tags -/

/-- `rest[..rest.rfind('/')?]` -/
def beforeLast (sep : Char) (s : String) : Option String :=
  match s.toList.reverse.span (· ≠ sep) with
  | (_, []) => none
  | (_, _ :: before) => some (String.ofList before.reverse)

/-- `resolve_default_branch` -/
def resolveDefaultBranch (w : World) (imageName : String) : Option String :=
  let (forge, rest) := (splitOnce '/' imageName).getD (imageName, "")
  match (beforeLast '/' rest).map Slug.new with
  | some (.ok slug) =>
    ((w.repos.find forge slug).bind RepoRecord.defaultBranch).map fun b => "refs/heads/" ++ b
  | _ => none

/-- The `git_ref` of a tag that is no commit's. -/
def tagRef (w : World) (imageName reference : String) : Option String :=
  if reference = "latest" then w.resolveDefaultBranch imageName
  else some ("refs/heads/" ++ reference)

/-- `resolve_tag`. The error is a 404, `MANIFEST_UNKNOWN`, with this text. -/
def resolveTag (w : World) (imageName reference : String) : Except String (List DockerImage) :=
  match stripPrefix "sha-" reference with
  | some short => .ok (w.images.rowsByShaPrefix imageName short)
  | none =>
    match w.tagRef imageName reference with
    | none => .error "default branch not yet known for this repo"
    | some gitRef => .ok (w.images.latestPerSystemForBranch imageName gitRef)

/-- What `handle_manifest` makes an index of. Without rows it answers 404, too. -/
def served (w : World) (imageName reference : String) : List DockerImage :=
  match w.resolveTag imageName reference with
  | .ok rows => rows
  | .error _ => []

end World

end Argunix.Registry
