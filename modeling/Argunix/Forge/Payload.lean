import Argunix.Forge.Events

/-!
# `argunix-forge`: signatures and payloads

A delivery is a list of headers and a body. `verifySignature` decides whether it was signed with a
secret, `parseEvent` what it says. Each forge has its own headers, its own way to sign, and its own
document; GitHub's and Forgejo's documents differ in the names of the people only.

Who is behind an event is where the three differ most. A pull request of GitHub and of Forgejo
carries the account that opened it, as `pull_request.user`. GitLab's merge request carries the
account that triggered the event, as `user`, and the numeric id of the one that opened it, as
`object_attributes.author_id`. `parseMergeRequest` reads the former.

The hash, the encodings and the JSON reader are parameters (`Libraries`).
-/

set_option autoImplicit false

namespace Argunix.Forge

open Argunix.Lib Argunix.Web

/-- The libraries the providers call. -/
structure Libraries where
  hmacSha256 : List UInt8 → List UInt8 → List UInt8
  hexDecode : String → Option (List UInt8)
  base64 : String → Option (List UInt8)
  base64NoPad : String → Option (List UInt8)
  base64Url : String → Option (List UInt8)
  base64UrlNoPad : String → Option (List UInt8)
  /-- `serde_json`, up to the struct that is asked for. -/
  fromSlice : List UInt8 → Option Json

/-! ## Headers -/

/-- Names and values in the order they came. -/
abbrev Headers := List (String × String)

/-- `eq_ignore_ascii_case` -/
def eqIgnoreAsciiCase (a b : String) : Bool :=
  a.toList.map Char.toLower = b.toList.map Char.toLower

/-- `header`: the first of this name. -/
def header (headers : Headers) (name : String) : Option String :=
  (headers.find? fun h => eqIgnoreAsciiCase h.1 name).map Prod.snd

/-- `header(..).ok_or(MissingHeader(..))` -/
def requireHeader (headers : Headers) (name : String) : Except ForgeError String :=
  match header headers name with
  | some value => .ok value
  | none => .error (.missingHeader name)

/-- The first of two headers, complaining about the first one. -/
def requireEither (headers : Headers) (name name' : String) : Except ForgeError String :=
  match (header headers name).or (header headers name') with
  | some value => .ok value
  | none => .error (.missingHeader name)

/-! ## Signatures -/

/-- `verify_hmac_sha256` -/
def verifyHmacSha256 (libs : Libraries) (secret body : List UInt8) (signatureHex : String) : Bool :=
  libs.hexDecode signatureHex = some (libs.hmacSha256 secret body)

/-- `str::trim` -/
def trim (s : String) : String :=
  String.ofList ((s.toList.dropWhile isWhitespace).reverse.dropWhile isWhitespace).reverse

/-- `str::split_whitespace` -/
def splitWhitespace (s : String) : List String :=
  ((s.toList.splitOnP isWhitespace).filter fun word => !word.isEmpty).map String.ofList

/-- `str::split_once` -/
def splitOnce (sep : Char) (s : String) : Option (String × String) :=
  match s.toList.span (· ≠ sep) with
  | (_, []) => none
  | (before, _ :: after) => some (String.ofList before, String.ofList after)

/-- Keys are stored as `whsec_<base64>`, or as they are. -/
def signingKeyBytes (libs : Libraries) (secret : List UInt8) : List UInt8 :=
  if (utf8 "whsec_").isPrefixOf secret then
    let rest : Option String := String.fromUTF8? ⟨(secret.drop 6).toArray⟩
    (rest.bind fun s => libs.base64 (trim s)).getD secret
  else secret

/-- Either alphabet, with or without padding. -/
def decodeSignatureB64 (libs : Libraries) (s : String) : Option (List UInt8) :=
  (((libs.base64 s).or (libs.base64NoPad s)).or (libs.base64Url s)).or (libs.base64UrlNoPad s)

/-- Any entry of the header may match. -/
def verifySigningToken (libs : Libraries) (secret : List UInt8)
    (webhookId webhookTimestamp : String)
    (body : List UInt8) (signatureHeader : String) : Except ForgeError Unit :=
  let expected := libs.hmacSha256 (signingKeyBytes libs secret)
    (utf8 webhookId ++ utf8 "." ++ utf8 webhookTimestamp ++ utf8 "." ++ body)
  let matched := (splitWhitespace signatureHeader).any fun entry =>
    match splitOnce ',' entry with
    | some ("v1", sigB64) => decodeSignatureB64 libs sigB64 = some expected
    | _ => false
  if matched then .ok () else .error .badSignature

/-- `verify_signature` of GitHub. -/
def githubVerify (libs : Libraries) (headers : Headers) (body secret : List UInt8) :
    Except ForgeError Unit := do
  let value ← requireHeader headers "X-Hub-Signature-256"
  match stripPrefix "sha256=" value with
  | none => .error (.invalidHeader "X-Hub-Signature-256" "missing sha256= prefix")
  | some hex => if verifyHmacSha256 libs secret body hex then .ok () else .error .badSignature

/-- `verify_signature` of Forgejo; the header may have the name that Gitea gave it. -/
def forgejoVerify (libs : Libraries) (headers : Headers) (body secret : List UInt8) :
    Except ForgeError Unit := do
  let value ← requireEither headers "X-Gitea-Signature" "X-Forgejo-Signature"
  if verifyHmacSha256 libs secret body value then .ok () else .error .badSignature

/-- The signing token if there is one, else the shared secret itself. -/
def gitlabVerify (libs : Libraries) (headers : Headers) (body secret : List UInt8) :
    Except ForgeError Unit :=
  match header headers "webhook-signature" with
  | some signature => do
    let webhookId ← requireHeader headers "webhook-id"
    let webhookTimestamp ← requireHeader headers "webhook-timestamp"
    verifySigningToken libs secret webhookId webhookTimestamp body signature
  | none => do
    let token ← requireHeader headers "X-Gitlab-Token"
    if utf8 token = secret then .ok () else .error .badSignature

/-- `verify_signature` -/
def verifySignature (libs : Libraries) : ForgeKind → Headers → List UInt8 → List UInt8 →
    Except ForgeError Unit
  | .github => githubVerify libs
  | .gitlab => gitlabVerify libs
  | .forgejo => forgejoVerify libs

/-! ## Payloads -/

/-- `.filter(|s| !s.is_empty())` -/
def nonempty (s : Option String) : Option String := s.filter (· ≠ "")

/-- A view of the repository under the names of its fields: its full name and the rest. -/
def repositoryView (slugKey urlKey : String) (v : Json) : Option (String × RepoMeta) := do
  let get ← v.struct [slugKey, "name", "description", urlKey, "default_branch"]
  let slug ← Json.required Json.string (get slugKey)
  let name ← Json.optional Json.string (get "name")
  let description ← Json.optional Json.string (get "description")
  let webUrl ← Json.optional Json.string (get urlKey)
  let defaultBranch ← Json.optional Json.string (get "default_branch")
  some (slug, ⟨name, nonempty description, nonempty webUrl, nonempty defaultBranch⟩)

/-- `Repository` of GitHub and Forgejo. -/
def hubRepository : Json → Option (String × RepoMeta) := repositoryView "full_name" "html_url"

/-- `Project` of GitLab. -/
def gitlabProject : Json → Option (String × RepoMeta) :=
  repositoryView "path_with_namespace" "web_url"

/-- A slug that the payload names. -/
def parseSlug (s : String) : Except ForgeError Slug :=
  match Slug.new s with
  | .ok slug => .ok slug
  | .error e => .error (.invalidSlug s e)

/-- A commit that the payload names. -/
def parseSha (s : String) : Except ForgeError Sha :=
  match shaNew s with
  | some sha => .ok sha
  | none => .error (.invalidSha s)

/-- `serde_json::from_slice(body).map_err(BadPayload)` -/
def fromBody {α : Type} (libs : Libraries) (body : List UInt8) (view : Json → Option α) :
    Except ForgeError α :=
  match (libs.fromSlice body).bind view with
  | some a => .ok a
  | none => .error .badPayload

/-- The fields of a push, before they are checked. -/
structure PushView where
  gitRef : String
  after : String
  repository : String × RepoMeta
  pusher : Option String

/-- GitHub's and Forgejo's push, which name the pusher differently. -/
def hubPushView (pusher : Json → Option (Option String)) (v : Json) : Option PushView := do
  let get ← v.struct ["ref", "after", "repository", "pusher"]
  let gitRef ← Json.required Json.string (get "ref")
  let after ← Json.required Json.string (get "after")
  let repository ← Json.required hubRepository (get "repository")
  let pusher ← Json.optional pusher (get "pusher")
  some ⟨gitRef, after, repository, pusher.join⟩

/-- Who has pushed. -/
def githubPusher (v : Json) : Option (Option String) := do
  let get ← v.struct ["name"]
  Json.optional Json.string (get "name")

/-- `username`, or else `login`: a person of Gitea and Forgejo. -/
def forgejoPerson (v : Json) : Option (Option String) := do
  let get ← v.struct ["username", "login"]
  let username ← Json.optional Json.string (get "username")
  let login ← Json.optional Json.string (get "login")
  some (username.or login)

/-- The fields of a GitLab push that are read. -/
def gitlabPushView (v : Json) : Option PushView := do
  let get ← v.struct ["ref", "after", "project", "user_username"]
  let gitRef ← Json.required Json.string (get "ref")
  let after ← Json.required Json.string (get "after")
  let project ← Json.required gitlabProject (get "project")
  let pusher ← Json.optional Json.string (get "user_username")
  some ⟨gitRef, after, project, pusher⟩

/-- The event of a push, or what is wrong with its slug or its commit. -/
def PushView.event (view : PushView) : Except ForgeError PushEvent := do
  let slug ← parseSlug view.repository.1
  let sha ← parseSha view.after
  .ok ⟨slug, view.gitRef, sha, view.pusher, view.repository.2⟩

/-- `parse_push` -/
def parsePush (libs : Libraries) (kind : ForgeKind) (body : List UInt8) :
    Except ForgeError PushEvent := do
  let view ← fromBody libs body (match kind with
    | .github => hubPushView githubPusher
    | .forgejo => hubPushView forgejoPerson
    | .gitlab => gitlabPushView)
  view.event

/-- The fields of a pull request, before they are checked. -/
structure PrView where
  number : ℕ
  repository : String × RepoMeta
  headSha : String
  headRef : String
  baseRef : String
  author : String
  action : PullRequestAction
  isFork : Bool

/-- `Side`: SHA, ref, and the repository. -/
def hubSide (v : Json) : Option (String × String × Option String) := do
  let get ← v.struct ["sha", "ref", "repo"]
  let sha ← Json.required Json.string (get "sha")
  let gitRef ← Json.required Json.string (get "ref")
  let repo ← Json.optional (fun r => do
    let get ← r.struct ["full_name"]
    Json.required Json.string (get "full_name")) (get "repo")
  some (sha, gitRef, repo)

/-- The `pull_request` object: head, base and the account that opened it. -/
def hubPullRequest (user : Json → Option String) (v : Json) :
    Option ((String × String × Option String) × String × String) := do
  let get ← v.struct ["head", "base", "user"]
  let head ← Json.required hubSide (get "head")
  let base ← Json.required hubSide (get "base")
  let user ← Json.required user (get "user")
  some (head, base.2.1, user)

/-- GitHub's and Forgejo's pull request, which name the author and one action differently. -/
def hubPrView (user : Json → Option String) (action : String → String) (v : Json) :
    Option PrView := do
  let get ← v.struct ["action", "number", "repository", "pull_request"]
  let label ← Json.required Json.string (get "action")
  let number ← Json.required Json.u64 (get "number")
  let repository ← Json.required hubRepository (get "repository")
  let (head, baseRef, author) ← Json.required (hubPullRequest user) (get "pull_request")
  some {
    number := number
    repository := repository
    headSha := head.1
    headRef := head.2.1
    baseRef := baseRef
    author := author
    action := .ofStr (action label)
    isFork := head.2.2.any (· ≠ repository.1) }

/-- The login of a user. -/
def githubUser (v : Json) : Option String := do
  let get ← v.struct ["login"]
  Json.required Json.string (get "login")

/-- An account without a name has the empty name. -/
def forgejoUser (v : Json) : Option String := (forgejoPerson v).map fun name => name.getD ""

/-- `map_forgejo_action`: one word differs from GitHub's. -/
def mapForgejoAction : String → String
  | "synchronized" => "synchronize"
  | other => other

/-- `map_gitlab_action` -/
def mapGitlabAction : String → String
  | "open" => "opened"
  | "reopen" => "reopened"
  | "update" => "synchronize"
  | "close" => "closed"
  | "merge" => "closed"
  | _ => "other"

/-- `User` of a merge request hook: who fired the event. -/
def gitlabUser (v : Json) : Option String := do
  let get ← v.struct ["username"]
  Json.required Json.string (get "username")

/-- The project one side of a merge request is in. -/
def gitlabSide (v : Json) : Option (Option String) := do
  let get ← v.struct ["path_with_namespace"]
  Json.optional Json.string (get "path_with_namespace")

/-- `ObjectAttributes`, with the project for a target that is not given. -/
def gitlabAttributes (project : String) (v : Json) :
    Option (ℕ × Option String × String × String × String × Bool) := do
  let get ← v.struct
    ["iid", "action", "last_commit", "source_branch", "target_branch", "source", "target"]
  let iid ← Json.required Json.u64 (get "iid")
  let action ← Json.optional Json.string (get "action")
  let lastCommit ← Json.required (fun c => do
    let get ← c.struct ["id"]
    Json.required Json.string (get "id")) (get "last_commit")
  let sourceBranch ← Json.required Json.string (get "source_branch")
  let targetBranch ← Json.required Json.string (get "target_branch")
  let source ← Json.optional gitlabSide (get "source")
  let target ← Json.optional gitlabSide (get "target")
  let targetPath := target.join.getD project
  some (iid, action, lastCommit, sourceBranch, targetBranch, source.join.any (· ≠ targetPath))

/-- `parse_merge_request`, up to the checks. **The author is who fired the event.** -/
def gitlabMrView (v : Json) : Option PrView := do
  let get ← v.struct ["project", "user", "object_attributes"]
  let project ← Json.required gitlabProject (get "project")
  let user ← Json.required gitlabUser (get "user")
  let (iid, action, lastCommit, sourceBranch, targetBranch, isFork) ←
    Json.required (gitlabAttributes project.1) (get "object_attributes")
  some {
    number := iid
    repository := project
    headSha := lastCommit
    headRef := sourceBranch
    baseRef := targetBranch
    author := user
    action := .ofStr ((action.map mapGitlabAction).getD "other")
    isFork := isFork }

/-- The event of a pull request, or what is wrong with its slug or its commit. -/
def PrView.event (view : PrView) : Except ForgeError PullRequestEvent := do
  let slug ← parseSlug view.repository.1
  let headSha ← parseSha view.headSha
  .ok {
    slug := slug
    prNumber := view.number
    headSha := headSha
    headRef := view.headRef
    baseRef := view.baseRef
    author := view.author
    action := view.action
    isFork := view.isFork
    repo := view.repository.2 }

/-- The view of a pull request, for each forge. -/
def prView : ForgeKind → Json → Option PrView
  | .github => hubPrView githubUser id
  | .forgejo => hubPrView forgejoUser mapForgejoAction
  | .gitlab => gitlabMrView

/-- `parse_pull_request`, `parse_merge_request` -/
def parsePullRequest (libs : Libraries) (kind : ForgeKind) (body : List UInt8) :
    Except ForgeError PullRequestEvent := do
  let view ← fromBody libs body (prView kind)
  view.event

/-- What the event header announces. -/
inductive EventKind
  | push
  | pullRequest
  | ignored
deriving DecidableEq, Repr

/-- The event header of GitHub and of Forgejo. -/
def hubEventKind : String → EventKind
  | "push" => .push
  | "pull_request" => .pullRequest
  | _ => .ignored

/-- The event header of GitLab. A tag is a push. -/
def gitlabEventKind : String → EventKind
  | "Push Hook" | "Tag Push Hook" => .push
  | "Merge Request Hook" => .pullRequest
  | _ => .ignored

/-- The event header of a forge. -/
def eventKind (headers : Headers) : ForgeKind → Except ForgeError EventKind
  | .github => (requireHeader headers "X-GitHub-Event").map hubEventKind
  | .forgejo => (requireEither headers "X-Gitea-Event" "X-Forgejo-Event").map hubEventKind
  | .gitlab => (requireHeader headers "X-Gitlab-Event").map gitlabEventKind

/-- `parse_event` -/
def parseEvent (libs : Libraries) (kind : ForgeKind) (headers : Headers) (body : List UInt8) :
    Except ForgeError (Option NormalizedEvent) := do
  match ← eventKind headers kind with
  | .push => return some (.push (← parsePush libs kind body))
  | .pullRequest => return some (.pullRequest (← parsePullRequest libs kind body))
  | .ignored => return none

/-! ## Which repository a payload names -/

/-- The member with the repository. -/
def repositoryKey : ForgeKind → String
  | .github | .forgejo => "repository"
  | .gitlab => "project"

/-- The member of it with the full name. -/
def slugKey : ForgeKind → String
  | .github | .forgejo => "full_name"
  | .gitlab => "path_with_namespace"

/-- The document names this repository, to a struct of at least three fields with a struct of at
    least two fields in it. -/
def NamesRepository (kind : ForgeKind) (v : Json) (s : String) : Prop :=
  ∃ names get r names' get', 2 < names.length ∧ v.struct names = some get ∧
    get (repositoryKey kind) = some r ∧ 1 < names'.length ∧ r.struct names' = some get' ∧
    get' (slugKey kind) = some (.str s)

theorem repositoryView_slug {slugKey urlKey s : String} {v : Json} {repo : RepoMeta}
    (h : repositoryView slugKey urlKey v = some (s, repo)) :
    ∃ get, v.struct [slugKey, "name", "description", urlKey, "default_branch"] = some get ∧
      get slugKey = some (.str s) := by
  simp only [repositoryView, Option.bind_eq_bind, Option.bind_eq_some_iff, Option.some.injEq,
    Prod.mk.injEq] at h
  obtain ⟨get, hget, slug, hslug, -, -, -, -, -, -, -, -, rfl, -⟩ := h
  exact ⟨get, hget, Json.required_string.mp hslug⟩

/-- A struct that requires the repository names it. -/
theorem names_of_struct (kind : ForgeKind) {urlKey : String} {names : List String} {v : Json}
    {get : String → Option Json} {s : String × RepoMeta} (hlen : 2 < names.length)
    (hget : v.struct names = some get)
    (hrepo : Json.required (repositoryView (slugKey kind) urlKey) (get (repositoryKey kind)) =
      some s) : NamesRepository kind v s.1 := by
  cases hr : get (repositoryKey kind) with
  | none =>
    rw [hr] at hrepo
    exact absurd hrepo (by simp [Json.required])
  | some r =>
    rw [hr] at hrepo
    have hview : repositoryView (slugKey kind) urlKey r = some (s.1, s.2) := hrepo
    obtain ⟨get', hget', hslug⟩ := repositoryView_slug hview
    exact ⟨names, get, r, _, get', hlen, hget, hr, by simp, hget', hslug⟩

theorem hubPushView_names {pusher : Json → Option (Option String)} {v : Json} {view : PushView}
    (h : hubPushView pusher v = some view) : NamesRepository .github v view.repository.1 := by
  simp only [hubPushView, Option.bind_eq_bind, Option.bind_eq_some_iff, Option.some.injEq] at h
  obtain ⟨get, hget, -, -, -, -, repository, hrepo, -, -, rfl⟩ := h
  exact names_of_struct .github (by simp) hget hrepo

theorem gitlabPushView_names {v : Json} {view : PushView} (h : gitlabPushView v = some view) :
    NamesRepository .gitlab v view.repository.1 := by
  simp only [gitlabPushView, Option.bind_eq_bind, Option.bind_eq_some_iff, Option.some.injEq] at h
  obtain ⟨get, hget, -, -, -, -, project, hrepo, -, -, rfl⟩ := h
  exact names_of_struct .gitlab (by simp) hget hrepo

theorem hubPrView_names {user : Json → Option String} {action : String → String} {v : Json}
    {view : PrView} (h : hubPrView user action v = some view) :
    NamesRepository .github v view.repository.1 := by
  simp only [hubPrView, Option.bind_eq_bind, Option.bind_eq_some_iff, Option.some.injEq] at h
  obtain ⟨get, hget, -, -, -, -, repository, hrepo, -, -, rfl⟩ := h
  exact names_of_struct .github (by simp) hget hrepo

theorem gitlabMrView_names {v : Json} {view : PrView} (h : gitlabMrView v = some view) :
    NamesRepository .gitlab v view.repository.1 := by
  simp only [gitlabMrView, Option.bind_eq_bind, Option.bind_eq_some_iff, Option.some.injEq] at h
  obtain ⟨get, hget, project, hrepo, -, -, -, -, rfl⟩ := h
  exact names_of_struct .gitlab (by simp) hget hrepo

theorem fromBody_eq_ok {α : Type} {libs : Libraries} {body : List UInt8} {view : Json → Option α}
    {a : α} : fromBody libs body view = .ok a ↔ ∃ v, libs.fromSlice body = some v ∧
      view v = some a := by
  unfold fromBody
  constructor
  · intro h
    split at h
    · rename_i a' ha
      obtain rfl := Except.ok.inj h
      exact Option.bind_eq_some_iff.mp ha
    · exact absurd h (by simp)
  · rintro ⟨v, hv, ha⟩
    rw [hv, Option.bind_some, ha]

theorem parseSlug_eq_ok {s : String} {slug : Slug} (h : parseSlug s = .ok slug) :
    s = slug.asStr := by
  unfold parseSlug at h
  split at h
  · rename_i slug' hs
    rw [← Except.ok.inj h]
    exact Slug.new_eq_ok.mp hs
  · exact absurd h (by simp)

theorem PushView.event_slug {view : PushView} {e : PushEvent} (h : view.event = .ok e) :
    view.repository.1 = e.slug.asStr := by
  simp only [PushView.event, bind_eq_ok, Except.ok.injEq] at h
  obtain ⟨slug, hslug, -, -, rfl⟩ := h
  exact parseSlug_eq_ok hslug

/-- What is left of a view. -/
theorem PrView.event_spec {view : PrView} {e : PullRequestEvent} (h : view.event = .ok e) :
    view.repository.1 = e.slug.asStr ∧ e.author = view.author ∧ e.action = view.action := by
  simp only [PrView.event, bind_eq_ok, Except.ok.injEq] at h
  obtain ⟨slug, hslug, -, -, rfl⟩ := h
  exact ⟨parseSlug_eq_ok hslug, rfl, rfl⟩

/-- The event of a pull request comes from its view. -/
theorem parseEvent_pullRequest {libs : Libraries} {kind : ForgeKind} {headers : Headers}
    {body : List UInt8} {e : PullRequestEvent}
    (h : parseEvent libs kind headers body = .ok (some (.pullRequest e))) :
    ∃ v view, libs.fromSlice body = some v ∧ prView kind v = some view ∧ view.event = .ok e := by
  simp only [parseEvent, bind_eq_ok] at h
  obtain ⟨k, -, h⟩ := h
  cases k with
  | push =>
    obtain ⟨e', -, h⟩ := bind_eq_ok.mp h
    exact absurd (Except.ok.inj h) (by simp)
  | pullRequest =>
    obtain ⟨e', hparse, h⟩ := bind_eq_ok.mp h
    obtain rfl : e' = e := by simpa using Except.ok.inj h
    obtain ⟨view, hview, hevent⟩ := bind_eq_ok.mp hparse
    obtain ⟨v, hv, hview⟩ := fromBody_eq_ok.mp hview
    exact ⟨v, view, hv, hview, hevent⟩
  | ignored => exact absurd (Except.ok.inj h) (by simp)

/-- **The slug of an event is the one its document names.** -/
theorem parseEvent_names {libs : Libraries} {kind : ForgeKind} {headers : Headers}
    {body : List UInt8} {e : NormalizedEvent}
    (h : parseEvent libs kind headers body = .ok (some e)) :
    ∃ v, libs.fromSlice body = some v ∧ NamesRepository kind v e.slug.asStr := by
  cases e with
  | pullRequest e =>
    obtain ⟨v, view, hv, hview, hevent⟩ := parseEvent_pullRequest h
    obtain ⟨hslug, -, -⟩ := PrView.event_spec hevent
    refine ⟨v, hv, ?_⟩
    rw [NormalizedEvent.slug, ← hslug]
    cases kind with
    | github | forgejo => exact hubPrView_names hview
    | gitlab => exact gitlabMrView_names hview
  | push e =>
    simp only [parseEvent, bind_eq_ok] at h
    obtain ⟨k, -, h⟩ := h
    cases k with
    | push =>
      obtain ⟨e', hparse, h⟩ := bind_eq_ok.mp h
      obtain rfl : e' = e := by simpa using Except.ok.inj h
      obtain ⟨view, hview, hevent⟩ := bind_eq_ok.mp hparse
      obtain ⟨v, hv, hview⟩ := fromBody_eq_ok.mp hview
      refine ⟨v, hv, ?_⟩
      rw [NormalizedEvent.slug, ← PushView.event_slug hevent]
      cases kind with
      | github | forgejo => exact hubPushView_names hview
      | gitlab => exact gitlabPushView_names hview
    | pullRequest =>
      obtain ⟨e', -, h⟩ := bind_eq_ok.mp h
      exact absurd (Except.ok.inj h) (by simp)
    | ignored => exact absurd (Except.ok.inj h) (by simp)

/-! ## Who is behind a pull request -/

/-- The account that opened it. GitLab gives its number; `accounts` is the forge's table. -/
def opener (accounts : ℕ → Option String) : ForgeKind → Json → Option String
  | .github, v => v.pathString ["pull_request", "user", "login"]
  | .forgejo, v => (v.pathString ["pull_request", "user", "username"]).or
      (v.pathString ["pull_request", "user", "login"])
  | .gitlab, v => ((v.path ["object_attributes", "author_id"]).bind Json.u64).bind accounts

/-- The account that triggered the event, in a merge request hook. -/
def gitlabActor (v : Json) : Option String := (v.path ["user"]).bind gitlabUser

/-- A path that ends in a text goes through the fields of a struct. -/
theorem pathString_struct {names : List String} {v : Json} {get : String → Option Json}
    {key : String} {keys : List String} {s : String} (h : v.struct names = some get)
    (hpath : v.pathString (key :: keys) = some s) :
    ∃ w, get key = some w ∧ w.pathString keys = some s := by
  obtain ⟨x, hx, hs⟩ := Option.bind_eq_some_iff.mp hpath
  obtain ⟨w, hw, hpath⟩ := Json.path_struct h hx
  exact ⟨w, hw, Option.bind_eq_some_iff.mpr ⟨x, hpath, hs⟩⟩

theorem pathString_nil {v : Json} {s : String} : v.pathString [] = some s ↔ v = .str s :=
  Json.string_eq_some

theorem githubUser_of_path {v : Json} {s name : String} (h : githubUser v = some name)
    (hpath : v.pathString ["login"] = some s) : name = s := by
  simp only [githubUser, Option.bind_eq_bind, Option.bind_eq_some_iff, Json.required_string] at h
  obtain ⟨get, hget, hname⟩ := h
  obtain ⟨w, hw, hs⟩ := pathString_struct hget hpath
  rw [pathString_nil.mp hs, hname] at hw
  simpa using hw

/-- A name that is given is the name. -/
theorem optional_string_of_path {names : List String} {v : Json} {get : String → Option Json}
    {key s : String} {name : Option String} (hget : v.struct names = some get)
    (h : Json.optional Json.string (get key) = some name)
    (hpath : v.pathString [key] = some s) : name = some s := by
  obtain ⟨w, hw, hs⟩ := pathString_struct hget hpath
  rw [hw, pathString_nil.mp hs] at h
  exact (Option.some.inj h).symm

theorem forgejoUser_of_path {v : Json} {s name : String} (h : forgejoUser v = some name)
    (hpath : (v.pathString ["username"]).or (v.pathString ["login"]) = some s) : name = s := by
  simp only [forgejoUser, forgejoPerson, Option.bind_eq_bind, Option.map_eq_some_iff,
    Option.bind_eq_some_iff, Option.some.injEq] at h
  obtain ⟨-, ⟨get, hget, username, husername, login, hlogin, rfl⟩, rfl⟩ := h
  cases hu : v.pathString ["username"] with
  | some u =>
    rw [hu] at hpath
    obtain rfl : u = s := by simpa using hpath
    rw [optional_string_of_path hget husername hu]
    rfl
  | none =>
    rw [hu] at hpath
    have hl : v.pathString ["login"] = some s := by simpa using hpath
    rw [optional_string_of_path hget hlogin hl]
    -- an object: its `username` is not a text, so it is missing or null
    obtain ⟨members, rfl, rfl⟩ := Json.obj_of_path hget (Json.pathString_eq_some.mp hl)
    obtain rfl : username = none := by
      cases hm : Json.member members "username" with
      | none =>
        rw [hm] at husername
        exact (Option.some.inj husername).symm
      | some w =>
        simp only [Json.pathString, Json.path, hm, Option.bind_some] at hu
        cases w with
        | null =>
          rw [hm] at husername
          exact (Option.some.inj husername).symm
        | str t => exact absurd hu (by simp [Json.string])
        | bool | int | real | arr | obj =>
          rw [hm] at husername
          exact absurd husername (by simp [Json.optional, Json.string])
    rfl

/-- The author of GitHub's and Forgejo's pull requests is under `pull_request.user`. -/
theorem hubPrView_author {user : Json → Option String} {action : String → String} {v : Json}
    {view : PrView} (h : hubPrView user action v = some view) {keys : List String} {s : String}
    (hpath : v.pathString ("pull_request" :: "user" :: keys) = some s) :
    ∃ w, user w = some view.author ∧ w.pathString keys = some s ∧
      ∀ keys', v.pathString ("pull_request" :: "user" :: keys') = w.pathString keys' := by
  simp only [hubPrView, Option.bind_eq_bind, Option.bind_eq_some_iff, Option.some.injEq] at h
  obtain ⟨get, hget, -, -, -, -, -, -, ⟨head, base, author⟩, hpr, rfl⟩ := h
  obtain ⟨pr, hprv, hpath'⟩ := pathString_struct hget hpath
  rw [hprv] at hpr
  simp only [Json.required, hubPullRequest, Option.bind_eq_bind, Option.bind_eq_some_iff,
    Option.some.injEq, Prod.mk.injEq] at hpr
  obtain ⟨get', hget', -, -, -, -, author', hauthor, -, -, rfl⟩ := hpr
  obtain ⟨w, hw, hpath''⟩ := pathString_struct hget' hpath'
  rw [hw] at hauthor
  refine ⟨w, hauthor, hpath'', fun keys' => ?_⟩
  obtain ⟨members, rfl, rfl⟩ := Json.obj_of_path hget (Json.pathString_eq_some.mp hpath)
  obtain ⟨members', rfl, rfl⟩ := Json.obj_of_path hget' (Json.pathString_eq_some.mp hpath')
  simp [Json.pathString, Json.path, hprv, hw]

/-- **The author of a pull request is the account that opened it, on GitHub and Forgejo.** -/
theorem author_eq_opener {accounts : ℕ → Option String} {kind : ForgeKind} {v : Json}
    {view : PrView} {s : String} (hkind : kind ≠ .gitlab) (hview : prView kind v = some view)
    (hopener : opener accounts kind v = some s) : view.author = s := by
  cases kind with
  | github =>
    obtain ⟨w, hw, hpath, -⟩ := hubPrView_author hview hopener
    exact githubUser_of_path hw hpath
  | forgejo =>
    have hor : ∃ keys s', v.pathString ("pull_request" :: "user" :: keys) = some s' := by
      cases hu : v.pathString ["pull_request", "user", "username"] with
      | some u => exact ⟨_, u, hu⟩
      | none =>
        refine ⟨["login"], s, ?_⟩
        simpa [opener, hu] using hopener
    obtain ⟨keys, s', hpath⟩ := hor
    obtain ⟨w, hw, -, hsame⟩ := hubPrView_author hview hpath
    refine forgejoUser_of_path hw ?_
    rw [← hsame, ← hsame]
    exact hopener
  | gitlab => exact absurd rfl hkind

/-- **On GitLab it is the account that triggered the event.** -/
theorem author_eq_actor {v : Json} {view : PrView} {keys : List String} {key : String} {x : Json}
    (hview : prView .gitlab v = some view) (hpath : v.path (key :: keys) = some x) :
    gitlabActor v = some view.author := by
  simp only [prView, gitlabMrView, Option.bind_eq_bind, Option.bind_eq_some_iff,
    Option.some.injEq] at hview
  obtain ⟨get, hget, -, -, user, huser, -, -, rfl⟩ := hview
  obtain ⟨members, rfl, rfl⟩ := Json.obj_of_path hget hpath
  cases hm : Json.member members "user" with
  | none =>
    rw [hm] at huser
    exact absurd huser (by simp [Json.required])
  | some w =>
    rw [hm] at huser
    simpa [gitlabActor, Json.path, Json.required, hm] using huser

end Argunix.Forge
