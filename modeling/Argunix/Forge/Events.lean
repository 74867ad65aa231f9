import Argunix.Lib.Json
import Argunix.Web.Persist

/-!
# `argunix-forge`: what every forge is brought down to

Three forges, one vocabulary: slugs and SHAs that have been checked, push and pull request events,
and a permission ladder. The permission of an account is asked of the forge over HTTP; the forge is
the function `Api` from URLs to responses, and `queryUserPermission` is what each provider makes of
them.
-/

set_option autoImplicit false

namespace Argunix.Forge

open Argunix.Lib Argunix.Web

/-- The forges that there is a provider for. -/
inductive ForgeKind
  | github
  | gitlab
  | forgejo
deriving DecidableEq, Repr

/-! ## Text -/

/-- `char::is_whitespace`: the Unicode property `White_Space`. -/
def isWhitespace (c : Char) : Bool :=
  let n := c.toNat
  (0x09 ≤ n && n ≤ 0x0d) || n = 0x20 || n = 0x85 || n = 0xa0 || n = 0x1680 ||
    (0x2000 ≤ n && n ≤ 0x200a) || n = 0x2028 || n = 0x2029 || n = 0x202f || n = 0x205f || n = 0x3000

/-- `char::is_control`: the Unicode category `Cc`. -/
def isControl (c : Char) : Bool := c.toNat ≤ 0x1f || (0x7f ≤ c.toNat && c.toNat ≤ 0x9f)

/-- `is_ascii_hexdigit` -/
def isHexDigit (c : Char) : Bool :=
  ('0' ≤ c && c ≤ '9') || ('a' ≤ c && c ≤ 'f') || ('A' ≤ c && c ≤ 'F')

/-- Hex digits are gone through one by one, among the ASCII characters. -/
theorem of_isHexDigit {P : Char → Prop} [DecidablePred P] {c : Char} (h : isHexDigit c = true)
    (hall : ((List.range 128).all fun n =>
      !isHexDigit (Char.ofNat n) || decide (P (Char.ofNat n))) = true) : P c := by
  have hlt : c.toNat < 128 := by
    simp only [isHexDigit, Bool.or_eq_true, Bool.and_eq_true, decide_eq_true_eq, Char.le_def,
      UInt32.le_iff_toNat_le] at h
    have h9 : '9'.val.toNat = 57 := rfl
    have hf : 'f'.val.toNat = 102 := rfl
    have hF : 'F'.val.toNat = 70 := rfl
    have hc : c.toNat = c.val.toNat := rfl
    omega
  have hone := List.all_eq_true.mp hall c.toNat (List.mem_range.mpr hlt)
  rw [Char.ofNat_toNat, h, Bool.not_true, Bool.false_or] at hone
  exact of_decide_eq_true hone

/-- The bytes of a string. -/
def utf8 (s : String) : List UInt8 := s.toUTF8.data.toList

/-! ## Slugs and SHAs -/

/-- Why a slug is refused. -/
inductive SlugError
  | empty
  | missingSeparator
  | invalidSlashes
  | invalidChars
deriving DecidableEq, Repr

/-- `contains("//")` -/
def hasDoubleSlash : List Char → Bool
  | '/' :: '/' :: _ => true
  | _ :: cs => hasDoubleSlash cs
  | [] => false

/-- What is wrong with a slug. -/
def slugError (s : String) : Option SlugError :=
  if s = "" then some .empty
  else if s.toList.head? = some '/' ∨ s.toList.getLast? = some '/' ∨
      hasDoubleSlash s.toList = true then some .invalidSlashes
  else if s.toList.any fun c => isWhitespace c || isControl c then some .invalidChars
  else if '/' ∉ s.toList then some .missingSeparator
  else none

/-- A slug that was checked. -/
@[ext]
structure Slug where
  asStr : String
  valid : slugError asStr = none
deriving DecidableEq

/-- `Slug::new` -/
def Slug.new (s : String) : Except SlugError Slug :=
  match h : slugError s with
  | some e => .error e
  | none => .ok ⟨s, h⟩

theorem Slug.new_eq_ok {s : String} {slug : Slug} : Slug.new s = .ok slug ↔ s = slug.asStr := by
  unfold Slug.new
  constructor
  · intro h
    split at h
    · exact absurd h (by simp)
    · exact congrArg Slug.asStr (Except.ok.inj h)
  · rintro rfl
    split
    · rename_i e he
      exact absurd (slug.valid.symm.trans he) (by simp)
    · rfl

/-- `Sha::new` -/
def shaNew (s : String) : Option Sha :=
  if s.toList.length ≠ 40 ∨ s.toList.all isHexDigit = false then none
  else some ⟨String.ofList (s.toList.map Char.toLower)⟩

/-! ## Errors -/

/-- Without the texts that come from the libraries. -/
inductive ForgeError
  | missingHeader (name : String)
  | invalidHeader (name reason : String)
  | badSignature
  | badPayload
  | invalidSlug (slug : String) (source : SlugError)
  | invalidSha (sha : String)
  | http
  | api (status : ℕ) (url body : String)
  | unauthorised
deriving DecidableEq, Repr

/-! ## Events -/

/-- What the payload says about the repository. -/
structure RepoMeta where
  name : Option String
  description : Option String
  webUrl : Option String
  defaultBranch : Option String
deriving DecidableEq, Repr

/-- A push, in the same form for every forge. -/
structure PushEvent where
  slug : Slug
  gitRef : String
  sha : Sha
  pusher : Option String
  repo : RepoMeta
deriving DecidableEq

/-- What has become of a pull request. -/
inductive PullRequestAction
  | opened
  | reopened
  | synchronize
  | closed
  | edited
  | other
deriving DecidableEq, Repr

namespace PullRequestAction

/-- `from_str` -/
def ofStr : String → PullRequestAction
  | "opened" => opened
  | "reopened" => reopened
  | "synchronize" => synchronize
  | "closed" => closed
  | "edited" => edited
  | _ => other

/-- `should_evaluate`: the actions that bring new commits. -/
def shouldEvaluate : PullRequestAction → Bool
  | opened | reopened | synchronize => true
  | closed | edited | other => false

end PullRequestAction

/-- A pull request, in the same form for every forge. -/
structure PullRequestEvent where
  slug : Slug
  prNumber : ℕ
  headSha : Sha
  headRef : String
  baseRef : String
  /-- Whose permission is asked for. -/
  author : String
  action : PullRequestAction
  isFork : Bool
  repo : RepoMeta
deriving DecidableEq

/-- What a delivery comes to. -/
inductive NormalizedEvent
  | push (event : PushEvent)
  | pullRequest (event : PullRequestEvent)
deriving DecidableEq

namespace NormalizedEvent

/-- The repository it is about. -/
def slug : NormalizedEvent → Slug
  | push event => event.slug
  | pullRequest event => event.slug

/-- The metadata it carries. -/
def repo : NormalizedEvent → RepoMeta
  | push event => event.repo
  | pullRequest event => event.repo

/-- What `persist` reads of it, besides the slug. -/
def toPersist : NormalizedEvent → Web.NormalizedEvent
  | push event => .push event.gitRef event.sha
  | pullRequest event => .pullRequest event.prNumber event.headSha event.headRef

end NormalizedEvent

/-! ## Permissions -/

/-- The levels of all forges in one order. -/
inductive Permission
  | none
  | read
  | triage
  | write
  | maintain
  | admin
deriving DecidableEq, Repr

namespace Permission

/-- `can_trigger_ci` -/
def canTriggerCi : Permission → Bool
  | write | maintain | admin => true
  | none | read | triage => false

/-- `from_github` -/
def fromGithub : String → Permission
  | "admin" => admin
  | "maintain" => maintain
  | "write" => write
  | "triage" => triage
  | "read" => read
  | _ => none

/-- `from_gitea` -/
def fromGitea : String → Permission
  | "admin" | "owner" => admin
  | "write" => write
  | "read" => read
  | _ => none

/-- `from_gitlab_access_level`: a level between two of them is none. -/
def fromGitlabAccessLevel : ℕ → Permission
  | 50 => admin
  | 40 => maintain
  | 30 => write
  | 20 => triage
  | 10 => read
  | _ => none

end Permission

/-! ## Asking the forge -/

/-- `json` is the body if it is JSON. -/
structure Response where
  status : ℕ
  text : String
  json : Option Json
deriving Repr

/-- The forge's API, with `send_with_retry` around every call. -/
def Api := String → Except ForgeError Response

/-- One hex digit, upper case. -/
def hexUpper (n : ℕ) : Char := if n < 10 then Char.ofNat (48 + n) else Char.ofNat (55 + n)

/-- The bytes that a segment of a URL may have as they are. -/
def isUnreserved (b : UInt8) : Bool :=
  let n := b.toNat
  (65 ≤ n && n ≤ 90) || (97 ≤ n && n ≤ 122) || (48 ≤ n && n ≤ 57) || n = 45 || n = 95 || n = 46 ||
    n = 126

/-- `url_encode_segment` -/
def urlEncodeSegment (s : String) : String :=
  String.ofList ((utf8 s).flatMap fun b =>
    if isUnreserved b then [Char.ofNat b.toNat]
    else ['%', hexUpper (b.toNat / 16), hexUpper (b.toNat % 16)])

/-- A response that is used: not 401, and a success. `absent` is what 404 means, if anything. -/
def checked {α : Type} (url : String) (absent : Option α) (decode : Json → Option α)
    (response : Response) : Except ForgeError α :=
  if response.status = 401 then .error .unauthorised
  else match response.status, absent with
    | 404, some a => .ok a
    | _, _ =>
      if response.status < 200 ∨ 300 ≤ response.status then
        .error (.api response.status url response.text)
      else match response.json.bind decode with
        | some a => .ok a
        | none => .error .http

/-- GitHub and Forgejo have the same endpoint. -/
def collaboratorPermission (ofStr : String → Permission) (apiUrl : String) (api : Api) (slug : Slug)
    (user : String) : Except ForgeError Permission := do
  let url := apiUrl ++ "/repos/" ++ slug.asStr ++ "/collaborators/" ++ user ++ "/permission"
  let response ← api url
  checked url (some .none) (fun v => do
    let get ← v.struct ["permission"]
    (Json.required Json.string (get "permission")).map ofStr) response

/-- A list whose elements decode. -/
def decodeList {α : Type} (decode : Json → Option α) : Json → Option (List α)
  | .arr elements => elements.mapM decode
  | _ => none

/-- GitLab needs the numeric id of the account first. -/
def gitlabPermission (apiUrl : String) (api : Api) (slug : Slug) (user : String) :
    Except ForgeError Permission := do
  let usersUrl := apiUrl ++ "/users?username=" ++ urlEncodeSegment user
  let users ← checked usersUrl none (decodeList fun v => do
    let get ← v.struct ["id"]
    Json.required Json.u64 (get "id")) (← api usersUrl)
  match users.head? with
  | none => .ok .none
  | some userId =>
    let membersUrl := apiUrl ++ "/projects/" ++ urlEncodeSegment slug.asStr ++ "/members/all/" ++
      toString userId
    checked membersUrl (some .none) (fun v => do
      let get ← v.struct ["access_level"]
      let level ← Json.required Json.u64 (get "access_level")
      if level < 2 ^ 32 then some (Permission.fromGitlabAccessLevel level) else none) (← api membersUrl)

/-- A provider for one configured forge. -/
structure Provider where
  kind : ForgeKind
  apiUrl : String
  api : Api

/-- `query_user_permission` -/
def Provider.queryUserPermission (p : Provider) (slug : Slug) (user : String) :
    Except ForgeError Permission :=
  match p.kind with
  | .github => collaboratorPermission Permission.fromGithub p.apiUrl p.api slug user
  | .forgejo => collaboratorPermission Permission.fromGitea p.apiUrl p.api slug user
  | .gitlab => gitlabPermission p.apiUrl p.api slug user

end Argunix.Forge
