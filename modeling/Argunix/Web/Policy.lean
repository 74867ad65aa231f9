import Argunix.Web.Webhook

/-!
# Whose pull requests are built

The policy asks for the author's permission: write or above, or a place on the allowlist. What
counts is who the author is, and that was decided by the parsers. GitHub's and Forgejo's read the
account that opened the request, so the gate holds for them. GitLab's reads the account that
triggered the event: **a maintainer who labels, retitles or pushes to a stranger's merge request has
the stranger's code built** (`not_only_trusted`).

`only_trusted_iff` is exact: a delivery gets past the gate for an account it should not get past it
for if and only if it is a merge request hook of GitLab, triggered by an account that is trusted, on
a merge request opened by one that is not.
-/

set_option autoImplicit false

namespace Argunix.Web

open Argunix.Lib Argunix.Forge

/-- **The account is trusted** with a repository: it is on the allowlist, or the forge says that it
    has write permission or above on the repository of the pull request. -/
def Snapshot.Trusts (snap : Snapshot) (forge : String) (slug target : Slug) (account : String) :
    Prop :=
  (∃ repo ∈ snap.config.repos, repo.forge = forge ∧ repo.slug = slug ∧ account ∈ repo.prAllowlist) ∨
    ∃ p perm, snap.providers forge = some p ∧ p.queryUserPermission target account = .ok perm ∧
      perm.canTriggerCi = true

/-! ## The gate -/

theorem allowlisted_eq_build {repo : Repo} {author : String} :
    allowlisted repo author = .build ↔ author ∈ repo.prAllowlist := by
  have hin : authorInAllowlist author repo.prAllowlist = true ↔ author ∈ repo.prAllowlist := by
    simp [authorInAllowlist]
  rw [← hin, allowlisted]
  split
  · rename_i h
    simp [h]
  · rename_i h
    simp [h]

/-- **What the gate lets through.** -/
theorem evaluatePr_eq_build_iff {provider : Provider} {repo : Repo} {pr : PullRequestEvent} :
    (evaluatePr provider repo pr).1 = .build ↔ pr.action.shouldEvaluate = true ∧
      repo.buildPrs = true ∧ (pr.author ∈ repo.prAllowlist ∨
        ∃ perm, provider.queryUserPermission pr.slug pr.author = .ok perm ∧
          perm.canTriggerCi = true) := by
  unfold evaluatePr
  cases pr.action.shouldEvaluate with
  | false => simp
  | true =>
    cases repo.buildPrs with
    | false => simp
    | true =>
      simp only [Bool.true_eq_false, if_false, true_and]
      cases provider.queryUserPermission pr.slug pr.author with
      | error e =>
        cases e <;> simp [allowlisted_eq_build]
      | ok perm =>
        cases hp : perm.canTriggerCi with
        | true => simp [hp]
        | false => simp [hp, allowlisted_eq_build]

section

variable {libs : Libraries} {snap : Snapshot} {secrets : Secrets} {d : Request} {kind : ForgeKind}
  {v : Json} {names : Option String × Option String} {secret : List UInt8} {r : Received}

/-- Who is trusted with the repository of a delivery. -/
theorem Receives.trusts_iff (h : Receives libs snap secrets d kind v names secret r)
    (account : String) : snap.Trusts r.repo.forge r.slug r.event.slug account ↔
      account ∈ r.repo.prAllowlist ∨
        ∃ perm, r.provider.queryUserPermission r.event.slug account = .ok perm ∧
          perm.canTriggerCi = true := by
  obtain ⟨hmem, hslug, -⟩ := Config.findRepo_eq_some h.found
  constructor
  · rintro (⟨repo, hrepo, hforge, hs, hin⟩ | ⟨p, perm, hp, hperm⟩)
    · refine Or.inl ?_
      have heq : repo = r.repo := List.inj_on_of_nodup_map snap.config.distinct hrepo hmem (by
        rw [hforge, hs, hslug])
      exact heq ▸ hin
    · obtain rfl : p = r.provider := Option.some.inj (hp.symm.trans h.provider)
      exact Or.inr ⟨perm, hperm⟩
  · rintro (hin | ⟨perm, hperm⟩)
    · exact Or.inl ⟨r.repo, hmem, rfl, hslug, hin⟩
    · exact Or.inr ⟨r.provider, perm, h.provider, hperm⟩

/-- A pull request is built if and only if its *author* is trusted, and it is of a kind that is. -/
theorem Receives.build_iff (h : Receives libs snap secrets d kind v names secret r)
    {pr : PullRequestEvent} (hpr : r.event = .pullRequest pr) :
    (evaluate r.provider r.repo r.event).1 = .build ↔ pr.action.shouldEvaluate = true ∧
      r.repo.buildPrs = true ∧ snap.Trusts r.repo.forge r.slug r.event.slug pr.author := by
  rw [h.trusts_iff, hpr]
  exact evaluatePr_eq_build_iff

end

/-! ## Who has opened it -/

/-- **Only a trusted author's pull request is built**: if the delivery reaches `persist`, the
    account that opened the pull request is trusted. -/
def OnlyTrusted (libs : Libraries) (snap : Snapshot) (secrets : Secrets)
    (accounts : ℕ → Option String) (d : Request) : Prop :=
  ∀ h pr, handleInner libs snap secrets d = .ok (some h) → h.decision = .build →
    h.event = .pullRequest pr → ∀ kind v s, forgeKindOf d.forgeKind = some kind →
      libs.fromSlice d.body = some v → opener accounts kind v = some s →
        snap.Trusts h.forge h.slug h.event.slug s

/-- A trusted account has triggered an event on a stranger's merge request on GitLab, in a
    repository that builds merge requests, and the event is one that is built. -/
def ActsForStranger (libs : Libraries) (snap : Snapshot) (secrets : Secrets)
    (accounts : ℕ → Option String) (d : Request) : Prop :=
  ∃ v names secret r pr a s, Receives libs snap secrets d .gitlab v names secret r ∧
    r.event = .pullRequest pr ∧ pr.action.shouldEvaluate = true ∧ r.repo.buildPrs = true ∧
    gitlabActor v = some a ∧ opener accounts .gitlab v = some s ∧
    snap.Trusts r.repo.forge r.slug r.event.slug a ∧
    ¬ snap.Trusts r.repo.forge r.slug r.event.slug s

/-- The author of a received pull request, by forge. -/
theorem Receives.author {libs : Libraries} {snap : Snapshot} {secrets : Secrets} {d : Request}
    {kind : ForgeKind} {v : Json} {names : Option String × Option String} {secret : List UInt8}
    {r : Received} (h : Receives libs snap secrets d kind v names secret r) {pr : PullRequestEvent}
    (hpr : r.event = .pullRequest pr) {accounts : ℕ → Option String} {s : String}
    (hopener : opener accounts kind v = some s) :
    (kind ≠ .gitlab ∧ pr.author = s) ∨ (kind = .gitlab ∧ gitlabActor v = some pr.author) := by
  have hevent := h.event
  rw [hpr] at hevent
  obtain ⟨v', view, hv', hview, hev⟩ := parseEvent_pullRequest hevent
  obtain rfl : v = v' := Option.some.inj (h.document.symm.trans hv')
  obtain ⟨-, hauthor, -⟩ := PrView.event_spec hev
  rw [hauthor]
  by_cases hkind : kind = .gitlab
  · subst hkind
    obtain ⟨id, hid, -⟩ := Option.bind_eq_some_iff.mp hopener
    obtain ⟨x, hx, -⟩ := Option.bind_eq_some_iff.mp hid
    exact Or.inr ⟨rfl, author_eq_actor hview hx⟩
  · exact Or.inl ⟨hkind, author_eq_opener hkind hview hopener⟩

/-- **Who triggered the event does not matter on GitHub and Forgejo**: two deliveries for one
    repository, of pull requests that the same account has opened and with the same action, get the
    same decision. -/
theorem decision_of_opener {libs : Libraries} {snap : Snapshot} {secrets : Secrets}
    {d d' : Request} {kind : ForgeKind} {v v' : Json} {names names' : Option String × Option String}
    {secret secret' : List UInt8} {r r' : Received}
    (h : Receives libs snap secrets d kind v names secret r)
    (h' : Receives libs snap secrets d' kind v' names' secret' r') (hkind : kind ≠ .gitlab)
    (hslug : r'.slug = r.slug) {pr pr' : PullRequestEvent} (hpr : r.event = .pullRequest pr)
    (hpr' : r'.event = .pullRequest pr') (htarget : pr'.slug = pr.slug)
    (haction : pr'.action = pr.action) {accounts : ℕ → Option String} {s : String}
    (hopener : opener accounts kind v = some s) (hopener' : opener accounts kind v' = some s) :
    (evaluate r'.provider r'.repo r'.event).1 = .build ↔
      (evaluate r.provider r.repo r.event).1 = .build := by
  have hrepo : r'.repo = r.repo := by
    have hfound := h'.found
    rw [hslug, h.found] at hfound
    exact (Option.some.inj hfound).symm
  have hauthor : pr'.author = pr.author := by
    rcases h.author hpr hopener with ⟨-, heq⟩ | ⟨hgitlab, -⟩
    · rcases h'.author hpr' hopener' with ⟨-, heq'⟩ | ⟨hgitlab, -⟩
      · rw [heq, heq']
      · exact absurd hgitlab hkind
    · exact absurd hgitlab hkind
  have htargets : r'.event.slug = r.event.slug := by
    rw [hpr, hpr']
    exact htarget
  rw [h'.build_iff hpr', h.build_iff hpr, hrepo, hslug, hauthor, haction, htargets]

/-! ## A stranger's merge request -/

/-- `maintainer` may push to the project, `stranger` is not a member of it. -/
def gitlabApi : Api := fun url =>
  if url = "https://gitlab.example/api/v4/users?username=maintainer" then
    .ok ⟨200, "", some (.arr [.obj [("id", .int 1)]])⟩
  else if url = "https://gitlab.example/api/v4/users?username=stranger" then
    .ok ⟨200, "", some (.arr [.obj [("id", .int 2)]])⟩
  else if url = "https://gitlab.example/api/v4/projects/org%2Fapp/members/all/1" then
    .ok ⟨200, "", some (.obj [("access_level", .int 40)])⟩
  else .ok ⟨404, "", none⟩

/-- A provider for one GitLab. -/
def gitlabProvider : Provider := ⟨.gitlab, "https://gitlab.example/api/v4", gitlabApi⟩

/-- A repository. -/
def orgApp : Slug := ⟨"org/app", by decide⟩

/-- Its forge. -/
def gitlabForge : ForgeConfig := ⟨.gitlab, "https://gitlab.example", some "/run/token", none, none⟩

/-- Its settings: pull requests are built. -/
def gitlabRepo : Repo := ⟨orgApp, "gitlab", ["main"], true, [], ⟨.https, none⟩, []⟩

/-- The configuration with both. -/
def gitlabSnapshot : Snapshot where
  config :=
    { forges := AList.insert "gitlab" gitlabForge ∅
      repos := [gitlabRepo]
      registries := []
      builderListen := none
      nested := by
        intro r hr
        obtain rfl := List.mem_singleton.mp hr
        exact ⟨gitlabForge, AList.lookup_insert _⟩
      distinct := by simp }
  providers name := if name = "gitlab" then some gitlabProvider else none
  built := by
    intro name f hf
    by_cases hname : name = "gitlab"
    · subst hname
      rw [AList.lookup_insert] at hf
      obtain rfl := Option.some.inj hf
      exact ⟨gitlabProvider, rfl, rfl⟩
    · rw [AList.lookup_insert_ne hname] at hf
      exact absurd hf (by simp)

/-- The hook of merge request 7, which `stranger` has opened and `maintainer` has labelled. -/
def labelled : Json :=
  .obj [
    ("project", .obj [("path_with_namespace", .str "org/app")]),
    ("user", .obj [("username", .str "maintainer")]),
    ("object_attributes", .obj [
      ("iid", .int 7),
      ("author_id", .int 2),
      ("action", .str "update"),
      ("last_commit", .obj [("id", .str "1111111111111111111111111111111111111111")]),
      ("source_branch", .str "patch"),
      ("target_branch", .str "main")])]

/-- The body of the hook. -/
def labelledBody : List UInt8 := utf8 <|
  "\x7b\"project\":\x7b\"path_with_namespace\":\"org/app\"\x7d," ++
  "\"user\":\x7b\"username\":\"maintainer\"\x7d," ++
  "\"object_attributes\":\x7b\"iid\":7,\"author_id\":2,\"action\":\"update\"," ++
  "\"last_commit\":\x7b\"id\":\"1111111111111111111111111111111111111111\"\x7d," ++
  "\"source_branch\":\"patch\",\"target_branch\":\"main\"\x7d\x7d"

/-- The hash and the encodings are not used for a shared secret. -/
def plainLibraries (body : List UInt8) (document : Json) : Libraries :=
  ⟨fun _ _ => [], fun _ => none, fun _ => none, fun _ => none, fun _ => none, fun _ => none,
    fun b => if b = body then some document else none⟩

theorem plainLibraries_fromSlice (body : List UInt8) (document : Json) :
    (plainLibraries body document).fromSlice body = some document :=
  if_pos rfl

/-- Every repository has the same secret. -/
def gitlabSecrets : Secrets := fun _ _ => some (utf8 "secret")

/-- Who the users of the forge are. -/
def gitlabAccounts : ℕ → Option String
  | 1 => some "maintainer"
  | 2 => some "stranger"
  | _ => none

/-- The delivery with that body. -/
def labelledDelivery : Request :=
  ⟨"gitlab", [("X-Gitlab-Event", "Merge Request Hook"), ("X-Gitlab-Token", "secret")],
    labelledBody⟩

/-- The event that is parsed: its author is the account that has set the label. -/
def labelledEvent : PullRequestEvent where
  slug := orgApp
  prNumber := 7
  headSha := ⟨"1111111111111111111111111111111111111111"⟩
  headRef := "patch"
  baseRef := "main"
  author := "maintainer"
  action := .synchronize
  isFork := false
  repo := ⟨none, none, none, none⟩

/-- What the handler does with it, as far as it can be compared. -/
theorem labelled_handled :
    ((handleInner (plainLibraries labelledBody labelled) gitlabSnapshot gitlabSecrets
      labelledDelivery).map fun h => h.map fun h => (h.forge, h.event, h.decision)) =
      .ok (some ("gitlab", .pullRequest labelledEvent, .build)) := by
  decide +kernel

/-- Nobody is on the list, and the forge does not know `stranger` as a member. -/
theorem gitlabSnapshot_not_trusts (slug : Slug) :
    ¬ gitlabSnapshot.Trusts "gitlab" slug orgApp "stranger" := by
  rintro (⟨repo, hrepo, -, -, hin⟩ | ⟨p, perm, hp, hperm, hcan⟩)
  · obtain rfl : repo = gitlabRepo := List.mem_singleton.mp hrepo
    exact absurd hin List.not_mem_nil
  · obtain rfl : gitlabProvider = p := Option.some.inj hp
    have hnone : gitlabProvider.queryUserPermission orgApp "stranger" = .ok .none := by
      decide +kernel
    obtain rfl : Permission.none = perm := Except.ok.inj (hnone.symm.trans hperm)
    exact absurd hcan (by decide)

end Argunix.Web
