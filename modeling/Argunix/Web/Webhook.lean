import Argunix.Forge.Payload

/-!
# `argunix-web`: from a request to `persist`

`handleInner` is the handler of `POST /webhook/{forge_kind}`. It reads the body twice. The first
reading is a preview of the unverified document, just enough to choose a configured repository: the
first one in the configuration with the slug of the preview, under a forge of the kind in the URL.
The secret of that repository then decides whether the delivery is genuine, and the provider of its
forge reads the body again. What follows (`receive` is up to here) is the policy, and `persist`.

`Receives` collects what is known of a delivery that has been received, and `receive_eq_some_iff`
says that it is all there is to know.
-/

set_option autoImplicit false

namespace Argunix.Web

open Argunix.Lib Argunix.Forge

/-! ## Configuration -/

/-- `forges.<name>`: where the forge is and how the bot authenticates to it. -/
structure ForgeConfig where
  kind : ForgeKind
  webUrl : String
  tokenPath : Option String
  appId : Option ℕ
  appPrivateKeyPath : Option String
deriving DecidableEq, Repr

/-- How the worker clones a repository. -/
inductive CloneMethod
  | https
  | ssh
deriving DecidableEq, Repr

/-- `clone` of a repository. -/
structure CloneConfig where
  method : CloneMethod
  sshKeyPath : Option String
deriving DecidableEq, Repr

/-- The settings of a repository that the webhook path and the validation read. -/
structure Repo where
  slug : Slug
  forge : String
  watchedBranches : List String
  buildPrs : Bool
  prAllowlist : List String
  clone : CloneConfig
  pushToRegistries : List String
deriving DecidableEq

/-- Repositories are nested under their forge in the file, so each has one, and a slug occurs once
    under a forge. -/
structure Config where
  forges : HashMap String ForgeConfig
  repos : List Repo
  registries : List String
  builderListen : Option String
  nested : ∀ r ∈ repos, ∃ f, forges.lookup r.forge = some f
  distinct : (repos.map fun r => (r.forge, r.slug)).Nodup

/-- What is wrong with the three authentication fields of a forge. -/
inductive ForgeAuthShapeError
  | missing
  | mixed
  | partialApp
deriving DecidableEq, Repr

/-- The two shapes that are right: a token, or an app with its key. -/
inductive ForgeAuth
  | token (tokenPath : String)
  | app (appId : ℕ) (appPrivateKeyPath : String)
deriving DecidableEq, Repr

/-- `ForgeConfig::auth`: a token alone, or both fields of an app. -/
def ForgeConfig.auth (f : ForgeConfig) : Except ForgeAuthShapeError ForgeAuth :=
  match f.tokenPath, f.appId, f.appPrivateKeyPath with
  | some tokenPath, none, none => .ok (.token tokenPath)
  | none, some appId, some appPrivateKeyPath => .ok (.app appId appPrivateKeyPath)
  | none, none, none => .error .missing
  | none, some _, none | none, none, some _ => .error .partialApp
  | some _, some _, _ | some _, none, some _ => .error .mixed

/-- Why a configuration that parses is refused. -/
inductive ValidationError
  | sshWithoutKey (repo : String)
  | forgeAuth (forge : String) (error : ForgeAuthShapeError)
  | builderListenInvalid (listen : String)
  | unknownRegistry (repo registry : String)
deriving DecidableEq, Repr

/-- The checks on one repository. -/
def Config.validateRepo (c : Config) (r : Repo) : Except ValidationError Unit := do
  if r.clone.method = .ssh ∧ r.clone.sshKeyPath = none then
    .error (.sshWithoutKey r.slug.asStr)
  match r.pushToRegistries.find? (· ∉ c.registries) with
  | some registry => .error (.unknownRegistry r.slug.asStr registry)
  | none => .ok ()

/-- `validate_references`. `isSocketAddr` is the parser of the standard library. -/
def Config.validateReferences (isSocketAddr : String → Bool) (c : Config) :
    Except ValidationError Unit := do
  c.forges.entries.forM fun f =>
    match f.2.auth with
    | .ok _ => .ok ()
    | .error e => .error (.forgeAuth f.1 e)
  c.repos.forM c.validateRepo
  match c.builderListen with
  | some listen => if isSocketAddr listen then .ok () else .error (.builderListenInvalid listen)
  | none => .ok ()

/-- A configuration with a provider for each of its forges, as `build_providers` makes them. -/
structure Snapshot where
  config : Config
  providers : String → Option Provider
  built : ∀ name f, config.forges.lookup name = some f →
    ∃ p, providers name = some p ∧ p.kind = f.kind

/-! ## Policy -/

/-- Whether an event is built, and otherwise why not. -/
inductive Decision
  | build
  | dropPushUnwatchedBranch (gitRef : String)
  | dropPrsDisabled
  | dropPrUntrustedAuthor (author : String)
  | dropPrIgnoredAction
deriving DecidableEq, Repr

/-- What the policy does to the pause registry on the way. -/
inductive PauseChange
  | unchanged
  | markHealthy
  | pause
deriving DecidableEq, Repr

/-- `branch_matches`: a watched branch is a name or a whole ref, and is compared for equality. -/
def branchMatches (gitRef : String) (branches : List String) : Bool :=
  "refs/heads/".toList.isPrefixOf gitRef.toList && branches.any fun b =>
    (if "refs/".toList.isPrefixOf b.toList then b else "refs/heads/" ++ b) = gitRef

/-- `evaluate_push`: the policy asks for the branch alone. -/
def evaluatePush (repo : Repo) (push : PushEvent) : Decision :=
  if branchMatches push.gitRef repo.watchedBranches then .build
  else .dropPushUnwatchedBranch push.gitRef

/-- `author_in_allowlist` -/
def authorInAllowlist (author : String) (allowlist : List String) : Bool :=
  allowlist.any (· = author)

/-- The allowlist alone. -/
def allowlisted (repo : Repo) (author : String) : Decision :=
  if authorInAllowlist author repo.prAllowlist then .build else .dropPrUntrustedAuthor author

/-- `evaluate_pr`: the forge is asked for the author's permission; when it does not answer, the
    allowlist decides. -/
def evaluatePr (provider : Provider) (repo : Repo) (pr : PullRequestEvent) :
    Decision × PauseChange :=
  if pr.action.shouldEvaluate = false then (.dropPrIgnoredAction, .unchanged)
  else if repo.buildPrs = false then (.dropPrsDisabled, .unchanged)
  else match provider.queryUserPermission pr.slug pr.author with
    | .ok perm => (if perm.canTriggerCi then .build else allowlisted repo pr.author, .markHealthy)
    | .error .unauthorised => (allowlisted repo pr.author, .pause)
    | .error _ => (allowlisted repo pr.author, .unchanged)

/-- `policy::evaluate` -/
def evaluate (provider : Provider) (repo : Repo) : Forge.NormalizedEvent → Decision × PauseChange
  | .push push => (evaluatePush repo push, .unchanged)
  | .pullRequest pr => evaluatePr provider repo pr

/-! ## The handler -/

/-- Why a delivery is refused. -/
inductive WebhookError
  | unknownForgeKind (kind : String)
  | badJson
  | noRepository
  | invalidSlug (slug : String) (source : SlugError)
  | repoNotConfigured (slug : String)
  | noProvider (forge : String)
  | webhookNotProvisioned (forge : String) (slug : String)
  | forge (error : ForgeError)
deriving DecidableEq, Repr

/-- A delivery as it comes in. `forgeKind` is the last piece of its URL. -/
structure Request where
  forgeKind : String
  headers : Headers
  body : List UInt8

/-- The `match` on the last piece of the URL. -/
def forgeKindOf : String → Option ForgeKind
  | "github" => some .github
  | "gitlab" => some .gitlab
  | "forgejo" => some .forgejo
  | _ => none

/-- `RepositoryPreview` and `ProjectPreview`, which have one field each. -/
def namePreview (key : String) (v : Json) : Option (Option String) := do
  let get ← v.struct [key]
  Json.optional Json.string (get key)

/-- `PayloadPreview`: `repository.full_name` and `project.path_with_namespace`. -/
def preview (v : Json) : Option (Option String × Option String) := do
  let get ← v.struct ["repository", "project"]
  let repository ← Json.optional (namePreview "full_name") (get "repository")
  let project ← Json.optional (namePreview "path_with_namespace") (get "project")
  some (repository.join, project.join)

/-- The repository is under a forge of this kind. -/
def Config.isOfKind (c : Config) (kind : ForgeKind) (r : Repo) : Bool :=
  (c.forges.lookup r.forge).any fun f => f.kind = kind

/-- The repository a delivery is for: the first that fits. -/
def Config.findRepo (c : Config) (kind : ForgeKind) (slug : Slug) : Option Repo :=
  c.repos.find? fun r => r.slug = slug && c.isOfKind kind r

/-- `webhook_secret` of the row of a repository. -/
abbrev Secrets := String → Slug → Option (List UInt8)

/-- A delivery that was verified and read. -/
structure Received where
  repo : Repo
  provider : Provider
  slug : Slug
  event : Forge.NormalizedEvent

/-- `ok_or_else` -/
def orError {α : Type} (e : WebhookError) : Option α → Except WebhookError α
  | some a => .ok a
  | none => .error e

/-- `WebhookError::from` -/
def liftForge {α : Type} : Except ForgeError α → Except WebhookError α
  | .ok a => .ok a
  | .error e => .error (.forge e)

/-- `Slug::new`, with the error of the handler. -/
def checkSlug (s : String) : Except WebhookError Slug :=
  match Slug.new s with
  | .ok slug => .ok slug
  | .error e => .error (.invalidSlug s e)

/-- `handle_inner`, up to the event. An event that is none is dropped. -/
def receive (libs : Libraries) (snap : Snapshot) (secrets : Secrets) (d : Request) :
    Except WebhookError (Option Received) := do
  let expectedKind ← orError (.unknownForgeKind d.forgeKind) (forgeKindOf d.forgeKind)
  let (repository, project) ← orError .badJson ((libs.fromSlice d.body).bind preview)
  let repoFullName ← orError .noRepository (repository.or project)
  let slug ← checkSlug repoFullName
  let repo ← orError (.repoNotConfigured repoFullName) (snap.config.findRepo expectedKind slug)
  let provider ← orError (.noProvider repo.forge) (snap.providers repo.forge)
  let secret ← orError (.webhookNotProvisioned repo.forge slug.asStr) (secrets repo.forge slug)
  liftForge (verifySignature libs provider.kind d.headers d.body secret)
  let event ← liftForge (parseEvent libs provider.kind d.headers d.body)
  return event.map fun event => ⟨repo, provider, slug, event⟩

/-- What is done with a delivery: the row that is upserted, and the decision. `persist` is called
    with the forge, the row and the event if the decision is `build`. -/
structure Judged where
  forge : String
  slug : Slug
  event : Forge.NormalizedEvent
  decision : Decision
  pause : PauseChange

/-- `handle_inner` -/
def handleInner (libs : Libraries) (snap : Snapshot) (secrets : Secrets) (d : Request) :
    Except WebhookError (Option Judged) := do
  match ← receive libs snap secrets d with
  | none => return none
  | some r =>
    let verdict := evaluate r.provider r.repo r.event
    return some ⟨r.repo.forge, r.slug, r.event, verdict.1, verdict.2⟩

/-! ## What is known of a delivery that was received -/

theorem orError_eq_ok {α : Type} {e : WebhookError} {o : Option α} {a : α} :
    orError e o = .ok a ↔ o = some a := by
  cases o <;> simp [orError]

theorem liftForge_eq_ok {α : Type} {x : Except ForgeError α} {a : α} :
    liftForge x = .ok a ↔ x = .ok a := by
  cases x <;> simp [liftForge]

/-- **Everything that was checked.** `v` is the document, `names` what the preview has read. -/
structure Receives (libs : Libraries) (snap : Snapshot) (secrets : Secrets) (d : Request)
    (kind : ForgeKind) (v : Json) (names : Option String × Option String) (secret : List UInt8)
    (r : Received) : Prop where
  url : forgeKindOf d.forgeKind = some kind
  document : libs.fromSlice d.body = some v
  preview : preview v = some names
  named : names.1.or names.2 = some r.slug.asStr
  found : snap.config.findRepo kind r.slug = some r.repo
  provider : snap.providers r.repo.forge = some r.provider
  ofKind : r.provider.kind = kind
  stored : secrets r.repo.forge r.slug = some secret
  signed : verifySignature libs kind d.headers d.body secret = .ok ()
  event : parseEvent libs kind d.headers d.body = .ok (some r.event)

theorem checkSlug_eq_ok {s : String} {slug : Slug} : checkSlug s = .ok slug ↔ s = slug.asStr := by
  rw [← Slug.new_eq_ok]
  unfold checkSlug
  cases Slug.new s <;> simp

theorem Config.findRepo_eq_some {c : Config} {kind : ForgeKind} {slug : Slug} {r : Repo}
    (h : c.findRepo kind slug = some r) :
    r ∈ c.repos ∧ r.slug = slug ∧ c.isOfKind kind r = true := by
  have hr := List.find?_some h
  simp only [Bool.and_eq_true, decide_eq_true_eq] at hr
  exact ⟨List.mem_of_find?_eq_some h, hr.1, hr.2⟩

/-- The provider of a repository is of the kind of its forge. -/
theorem Snapshot.provider_of_kind {snap : Snapshot} {kind : ForgeKind} {r : Repo}
    (h : snap.config.isOfKind kind r = true) :
    ∃ p, snap.providers r.forge = some p ∧ p.kind = kind := by
  unfold Config.isOfKind at h
  cases hf : snap.config.forges.lookup r.forge with
  | none =>
    rw [hf] at h
    exact absurd h (by simp)
  | some f =>
    rw [hf] at h
    obtain ⟨p, hp, hkind⟩ := snap.built r.forge f hf
    exact ⟨p, hp, hkind.trans (by simpa using h)⟩

section

variable {libs : Libraries} {snap : Snapshot} {secrets : Secrets} {d : Request} {r : Received}

theorem receive_eq_some_iff : receive libs snap secrets d = .ok (some r) ↔
    ∃ kind v names secret, Receives libs snap secrets d kind v names secret r := by
  constructor
  · intro h
    simp only [receive, bind_eq_ok, orError_eq_ok, liftForge_eq_ok, checkSlug_eq_ok] at h
    obtain ⟨kind, hkind, names, hnames, fullName, hfull, slug, rfl, repo, hrepo, p, hp, secret,
      hsecret, ⟨⟩, hsigned, event, hevent, hr⟩ := h
    obtain ⟨v, hv, hnames⟩ := Option.bind_eq_some_iff.mp hnames
    obtain ⟨event', rfl, rfl⟩ := Option.map_eq_some_iff.mp (Except.ok.inj hr)
    obtain ⟨p', hp', hpk⟩ := snap.provider_of_kind (Config.findRepo_eq_some hrepo).2.2
    obtain rfl : p' = p := Option.some.inj (hp'.symm.trans hp)
    rw [hpk] at hsigned hevent
    exact ⟨kind, v, names, secret, hkind, hv, hnames, hfull, hrepo, hp, hpk, hsecret,
      hsigned, hevent⟩
  · rintro ⟨kind, v, names, secret, h⟩
    have hsigned := h.signed
    have hevent := h.event
    rw [← h.ofKind] at hsigned hevent
    simp only [receive, bind_eq_ok, orError_eq_ok, liftForge_eq_ok, checkSlug_eq_ok]
    refine ⟨kind, h.url, names, ?_, r.slug.asStr, h.named, r.slug, rfl, r.repo, h.found, r.provider,
      h.provider, secret, h.stored, (), hsigned, some r.event, hevent, rfl⟩
    rw [h.document, Option.bind_some, h.preview]

theorem handleInner_eq_some_iff {h : Judged} : handleInner libs snap secrets d = .ok (some h) ↔
    ∃ r, receive libs snap secrets d = .ok (some r) ∧
      h = ⟨r.repo.forge, r.slug, r.event, (evaluate r.provider r.repo r.event).1,
        (evaluate r.provider r.repo r.event).2⟩ := by
  simp only [handleInner, bind_eq_ok]
  constructor
  · rintro ⟨o, hr, h⟩
    cases o with
    | none => exact absurd (Except.ok.inj h) (by simp)
    | some r => exact ⟨r, hr, (Option.some.inj (Except.ok.inj h)).symm⟩
  · rintro ⟨r, hr, rfl⟩
    exact ⟨some r, hr, rfl⟩

end

end Argunix.Web
