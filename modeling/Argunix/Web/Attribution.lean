import Argunix.Web.Policy

/-!
# Which repository a delivery is attributed to

A delivery has a sender, the repository of a forge that has signed it with its secret, and the
handler has to find out which. It does not go by the secret: it takes the first configured
repository with the slug that the preview reads and a forge of the kind in the URL, and only then
looks at the signature. Two things can go wrong.

**A slug that is configured under two forges of one kind belongs to the first of them**
(`Config.Shadowed`): what the second one signs is checked against the secret of the first, and
refused.

**The preview and GitLab's parser do not read the same member** (`Diverted`). The preview prefers
`repository.full_name`, which GitLab does not send, to `project.path_with_namespace`, which its
parser reads. A body with both is checked and stored for one repository, while the permission query
and the checks are for the other. GitHub's and Forgejo's parsers read what the preview prefers.

`attributed_iff` says that nothing else can.
-/

set_option autoImplicit false

namespace Argunix.Web

open Argunix.Lib Argunix.Forge

/-! ## What a forge sends -/

/-- **The document describes a repository in the way of a forge**: under its own member, and not
    under the member that forges of another kind use. -/
def Describes (kind : ForgeKind) (v : Json) (s : String) : Prop :=
  ∃ get r get', v.fields = some get ∧ get (repositoryKey kind) = some r ∧ r.fields = some get' ∧
    get' (slugKey kind) = some (.str s) ∧
    ∀ other r', repositoryKey other ≠ repositoryKey kind → get (repositoryKey other) = some r' →
      ∃ get', r'.fields = some get' ∧ get' (slugKey other) = none

/-- **The delivery is an event that the forge of `repo` sends and signs for it.** -/
structure Genuine (libs : Libraries) (snap : Snapshot) (secrets : Secrets) (d : Request)
    (repo : Repo) (kind : ForgeKind) (v : Json) (secret : List UInt8) (e : Forge.NormalizedEvent) :
    Prop where
  configured : repo ∈ snap.config.repos
  ofKind : snap.config.isOfKind kind repo = true
  url : forgeKindOf d.forgeKind = some kind
  document : libs.fromSlice d.body = some v
  describes : Describes kind v repo.slug.asStr
  stored : secrets repo.forge repo.slug = some secret
  signed : verifySignature libs kind d.headers d.body secret = .ok ()
  event : parseEvent libs kind d.headers d.body = .ok (some e)

/-- **A delivery is attributed to exactly the repository that signed it.** If it is genuine, it is
    received for its repository, with that repository's provider and settings, and the event has its
    slug. If it gets to `persist`, it is signed with the secret of the repository it is stored for,
    and the event has its slug. -/
structure Attributed (libs : Libraries) (snap : Snapshot) (secrets : Secrets) (d : Request) :
    Prop where
  received : ∀ repo kind v secret e, Genuine libs snap secrets d repo kind v secret e →
    ∃ p, snap.providers repo.forge = some p ∧
      handleInner libs snap secrets d = .ok (some ⟨repo.forge, repo.slug, e,
        (evaluate p repo e).1, (evaluate p repo e).2⟩) ∧ e.slug = repo.slug
  persisted : ∀ h, handleInner libs snap secrets d = .ok (some h) → h.decision = .build →
    (∃ kind secret, forgeKindOf d.forgeKind = some kind ∧ secrets h.forge h.slug = some secret ∧
      verifySignature libs kind d.headers d.body secret = .ok ()) ∧ h.event.slug = h.slug

/-! ## The two ways to go wrong -/

/-- An earlier repository has the slug of this one, under a forge of the same kind. -/
def Config.Shadowed (c : Config) (kind : ForgeKind) (repo : Repo) : Prop :=
  ∃ before after, c.repos = before ++ repo :: after ∧
    ∃ other ∈ before, other.slug = repo.slug ∧ c.isOfKind kind other = true

/-- The delivery is genuine, of a repository that another one shadows. -/
def FromShadowed (libs : Libraries) (snap : Snapshot) (secrets : Secrets) (d : Request) : Prop :=
  ∃ repo kind v secret e, Genuine libs snap secrets d repo kind v secret e ∧
    snap.config.Shadowed kind repo

/-- A GitLab delivery that is accepted and built names one repository as `repository.full_name` and
    another as `project.path_with_namespace`. -/
def Diverted (libs : Libraries) (snap : Snapshot) (secrets : Secrets) (d : Request) : Prop :=
  ∃ v a b secret r, Receives libs snap secrets d .gitlab v (some a, some b) secret r ∧ a ≠ b ∧
    (evaluate r.provider r.repo r.event).1 = .build

/-- **The repository of a slug is the one that none comes before.** -/
theorem Config.findRepo_eq_iff {c : Config} {kind : ForgeKind} {repo : Repo} (hmem : repo ∈ c.repos)
    (hkind : c.isOfKind kind repo = true) :
    c.findRepo kind repo.slug = some repo ↔ ¬ c.Shadowed kind repo := by
  have hnodup : c.repos.Nodup := List.Nodup.of_map _ c.distinct
  constructor
  · rintro hfound ⟨before, after, hrepos, other, hother, hslug, hok⟩
    rw [Config.findRepo, hrepos, List.find?_append] at hfound
    obtain ⟨first, hfirst⟩ : ∃ first, before.find? (fun r => r.slug = repo.slug &&
        c.isOfKind kind r) = some first := by
      rw [← Option.isSome_iff_exists, List.find?_isSome]
      exact ⟨other, hother, by simp [hslug, hok]⟩
    rw [hfirst, Option.some_or] at hfound
    obtain rfl := Option.some.inj hfound
    rw [hrepos] at hnodup
    exact (List.disjoint_of_nodup_append hnodup (List.mem_of_find?_eq_some hfirst)
      List.mem_cons_self)
  · intro hnot
    obtain ⟨before, after, hrepos⟩ := List.append_of_mem hmem
    have hnone : before.find? (fun r => r.slug = repo.slug && c.isOfKind kind r) = none := by
      rw [List.find?_eq_none]
      intro other hother hok
      simp only [Bool.and_eq_true, decide_eq_true_eq] at hok
      exact hnot ⟨before, after, hrepos, other, hother, hok⟩
    rw [Config.findRepo, hrepos, List.find?_append, hnone, Option.none_or]
    exact List.find?_cons_of_pos (by simp [hkind])

/-! ## The two readings of the body -/

theorem preview_eq_some_iff {v : Json} {names : Option String × Option String} :
    preview v = some names ↔ ∃ get repository project,
      v.struct ["repository", "project"] = some get ∧
      Json.optional (namePreview "full_name") (get "repository") = some repository ∧
      Json.optional (namePreview "path_with_namespace") (get "project") = some project ∧
      names = (repository.join, project.join) := by
  simp only [preview, Option.bind_eq_bind, Option.bind_eq_some_iff, Option.some.injEq]
  constructor
  · rintro ⟨get, hget, repository, hrepository, project, hproject, rfl⟩
    exact ⟨get, repository, project, hget, hrepository, hproject, rfl⟩
  · rintro ⟨get, repository, project, hget, hrepository, hproject, rfl⟩
    exact ⟨get, hget, repository, hrepository, project, hproject, rfl⟩

section

variable {key s : String} {r : Json} {get : String → Option Json}

/-- An object is not `null`, and its one field is read. -/
theorem optional_namePreview (h : r.fields = some get) :
    Json.optional (namePreview key) (some r) =
      (Json.optional Json.string (get key)).map some := by
  have hname : namePreview key r = Json.optional Json.string (get key) := by
    rw [namePreview, Json.struct_of_fields h]
    rfl
  cases r with
  | obj members => exact congrArg (Option.map some) hname
  | null | bool | int | real | str | arr => exact absurd h (by simp [Json.fields])

/-- A member that does not name the repository, or is not there. -/
theorem optional_namePreview_absent {o : Option Json}
    (h : ∀ r, o = some r → ∃ get, r.fields = some get ∧ get key = none) :
    ∃ x, Json.optional (namePreview key) o = some x ∧ x.join = none := by
  cases o with
  | none => exact ⟨none, rfl, rfl⟩
  | some r =>
    obtain ⟨get, hget, hkey⟩ := h r rfl
    refine ⟨some none, ?_, rfl⟩
    rw [optional_namePreview hget, hkey]
    rfl

/-- A member that another struct has read a name from. -/
theorem optional_namePreview_named {names : List String} {x : Option (Option String)}
    (hlen : 1 < names.length) (h : r.struct names = some get) (hkey : get key = some (.str s))
    (hx : Json.optional (namePreview key) (some r) = some x) : x.join = some s := by
  have hmap : (namePreview key r).map some = some x := by
    cases r with
    | null => exact absurd h (by simp [Json.struct])
    | obj | arr | bool | int | real | str => exact hx
  obtain ⟨y, hy, rfl⟩ := Option.map_eq_some_iff.mp hmap
  obtain ⟨get', hget', hy⟩ := Option.bind_eq_some_iff.mp hy
  obtain ⟨members, -, rfl, rfl⟩ := Json.struct_agree h hget' (by
    simp only [List.length_singleton]
    omega)
  rw [hkey] at hy
  exact (Option.some.inj hy).symm

end

/-- **The preview names the repository that a forge describes.** -/
theorem Describes.preview {kind : ForgeKind} {v : Json} {s : String} (h : Describes kind v s) :
    ∃ names, preview v = some names ∧ names.1.or names.2 = some s := by
  obtain ⟨get, r, get', hget, hr, hget', hs, hother⟩ := h
  have hstruct := Json.struct_of_fields hget ["repository", "project"]
  have hnamed : Json.optional (namePreview (slugKey kind)) (get (repositoryKey kind)) =
      some (some (some s)) := by
    rw [hr, optional_namePreview hget', hs]
    rfl
  cases kind with
  | github | forgejo =>
    obtain ⟨project, hproject, hjoin⟩ := optional_namePreview_absent fun r' hr' =>
      hother .gitlab r' (by decide) hr'
    refine ⟨_, preview_eq_some_iff.mpr ⟨get, _, project, hstruct, hnamed, hproject, rfl⟩, ?_⟩
    rw [hjoin]
    rfl
  | gitlab =>
    obtain ⟨repository, hrepository, hjoin⟩ := optional_namePreview_absent fun r' hr' =>
      hother .github r' (by decide) hr'
    refine ⟨_, preview_eq_some_iff.mpr ⟨get, repository, _, hstruct, hrepository, hnamed, rfl⟩, ?_⟩
    rw [hjoin]
    rfl

/-- **What the parsers read, the preview reads**, in the member of the forge. -/
theorem preview_of_names {kind : ForgeKind} {v : Json} {s : String}
    {names : Option String × Option String} (h : NamesRepository kind v s)
    (hpreview : preview v = some names) :
    (kind ≠ .gitlab ∧ names.1 = some s) ∨ (kind = .gitlab ∧ names.2 = some s) := by
  obtain ⟨fields, get, r, fields', get', hlen, hget, hr, hlen', hget', hs⟩ := h
  obtain ⟨gets, repository, project, hgets, hrepository, hproject, rfl⟩ :=
    preview_eq_some_iff.mp hpreview
  obtain ⟨members, -, rfl, rfl⟩ := Json.struct_agree hget hgets (by
    simp only [List.length_cons, List.length_nil]
    omega)
  cases kind with
  | github | forgejo =>
    rw [show Json.member members "repository" = some r from hr] at hrepository
    exact Or.inl ⟨by decide, optional_namePreview_named hlen' hget' hs hrepository⟩
  | gitlab =>
    rw [show Json.member members "project" = some r from hr] at hproject
    exact Or.inr ⟨rfl, optional_namePreview_named hlen' hget' hs hproject⟩

/-! ## The repository of a delivery -/

section

variable {libs : Libraries} {snap : Snapshot} {secrets : Secrets} {d : Request} {kind : ForgeKind}
  {v : Json} {secret : List UInt8}

/-- The slug of a received event, among the names that the preview has read. -/
theorem Receives.names_event {names : Option String × Option String} {r : Received}
    (h : Receives libs snap secrets d kind v names secret r) :
    (kind ≠ .gitlab ∧ names.1 = some r.event.slug.asStr) ∨
      (kind = .gitlab ∧ names.2 = some r.event.slug.asStr) := by
  obtain ⟨v', hv', hnames⟩ := parseEvent_names h.event
  obtain rfl : v = v' := Option.some.inj (h.document.symm.trans hv')
  exact preview_of_names hnames h.preview

/-- **The slug of a received event is the slug it was received for**, or the delivery is GitLab's
    and names two repositories. -/
theorem Receives.event_slug {names : Option String × Option String} {r : Received}
    (h : Receives libs snap secrets d kind v names secret r) :
    r.event.slug = r.slug ∨ (kind = .gitlab ∧ ∃ a b, names = (some a, some b) ∧ a ≠ b) := by
  have hnamed := h.named
  rcases h.names_event with ⟨-, hone⟩ | ⟨rfl, htwo⟩
  · rw [hone, Option.some_or] at hnamed
    exact Or.inl (Slug.ext (Option.some.inj hnamed))
  · obtain ⟨full, path⟩ := names
    obtain rfl : path = some r.event.slug.asStr := htwo
    cases full with
    | none => exact Or.inl (Slug.ext (Option.some.inj hnamed))
    | some a =>
      obtain rfl : a = r.slug.asStr := Option.some.inj hnamed
      by_cases heq : r.event.slug = r.slug
      · exact Or.inl heq
      · refine Or.inr ⟨rfl, _, _, rfl, ?_⟩
        intro hstr
        exact heq (Slug.ext hstr.symm)

/-- A genuine delivery of a repository that is not shadowed is received for it. -/
theorem Genuine.receives {repo : Repo} {e : Forge.NormalizedEvent}
    (h : Genuine libs snap secrets d repo kind v secret e)
    (hnot : ¬ snap.config.Shadowed kind repo) :
    ∃ p names, snap.providers repo.forge = some p ∧
      Receives libs snap secrets d kind v names secret ⟨repo, p, repo.slug, e⟩ := by
  obtain ⟨names, hpreview, hnamed⟩ := h.describes.preview
  obtain ⟨p, hp, hpkind⟩ := snap.provider_of_kind h.ofKind
  have hfound := (Config.findRepo_eq_iff h.configured h.ofKind).mpr hnot
  exact ⟨p, names, hp, h.url, h.document, hpreview, hnamed, hfound, hp, hpkind, h.stored, h.signed,
    h.event⟩

/-- The event of a genuine delivery has the slug of its repository. -/
theorem Genuine.event_slug {repo : Repo} {e : Forge.NormalizedEvent}
    (h : Genuine libs snap secrets d repo kind v secret e) : e.slug = repo.slug := by
  obtain ⟨v', hv', hnames⟩ := parseEvent_names h.event
  obtain rfl : v = v' := Option.some.inj (h.document.symm.trans hv')
  obtain ⟨get, r, get', hget, hr, hget', hs, -⟩ := h.describes
  obtain ⟨names, gets, r', names', gets', -, hgets, hr', -, hgets', hs'⟩ := hnames
  obtain rfl : get = gets := Option.some.inj ((Json.struct_of_fields hget names).symm.trans hgets)
  obtain rfl : r = r' := Option.some.inj (hr.symm.trans hr')
  obtain rfl : get' = gets' :=
    Option.some.inj ((Json.struct_of_fields hget' names').symm.trans hgets')
  exact Slug.ext (Json.str.inj (Option.some.inj (hs'.symm.trans hs)))

end

/-- **A delivery is attributed to the repository that signed it, unless that repository is shadowed
    or the delivery names two repositories.** -/
theorem attributed_iff (libs : Libraries) (snap : Snapshot) (secrets : Secrets) (d : Request) :
    Attributed libs snap secrets d ↔
      ¬ FromShadowed libs snap secrets d ∧ ¬ Diverted libs snap secrets d := by
  constructor
  · intro hatt
    refine ⟨?_, ?_⟩
    · rintro ⟨repo, kind, v, secret, e, hgenuine, hshadowed⟩
      obtain ⟨p, -, hh, -⟩ := hatt.received repo kind v secret e hgenuine
      obtain ⟨r, hr, heq⟩ := handleInner_eq_some_iff.mp hh
      obtain ⟨kind', v', names, secret', hrec⟩ := receive_eq_some_iff.mp hr
      obtain rfl : kind = kind' := Option.some.inj (hgenuine.url.symm.trans hrec.url)
      obtain ⟨hforge, hslug⟩ : repo.forge = r.repo.forge ∧ repo.slug = r.slug := by
        simp only [Judged.mk.injEq] at heq
        exact ⟨heq.1, heq.2.1⟩
      obtain ⟨hmem, hrslug, -⟩ := Config.findRepo_eq_some hrec.found
      -- the forge and the slug make the repository
      obtain rfl : repo = r.repo := List.inj_on_of_nodup_map snap.config.distinct
        hgenuine.configured hmem (by rw [hforge, hslug, hrslug])
      have hfound := hrec.found
      rw [← hslug] at hfound
      exact (Config.findRepo_eq_iff hgenuine.configured hgenuine.ofKind).mp hfound hshadowed
    · rintro ⟨v, a, b, secret, r, hrec, hne, hbuild⟩
      have hr := receive_eq_some_iff.mpr ⟨_, _, _, _, hrec⟩
      obtain ⟨-, hslug⟩ := hatt.persisted _ (handleInner_eq_some_iff.mpr ⟨r, hr, rfl⟩) hbuild
      rcases hrec.names_event with ⟨hgitlab, -⟩ | ⟨-, hevent⟩
      · exact hgitlab rfl
      · obtain rfl : a = r.slug.asStr := Option.some.inj hrec.named
        obtain rfl : b = r.event.slug.asStr := Option.some.inj hevent
        exact hne (congrArg Slug.asStr hslug.symm)
  · rintro ⟨hshadowed, hdiverted⟩
    refine ⟨?_, ?_⟩
    · intro repo kind v secret e hgenuine
      have hnot : ¬ snap.config.Shadowed kind repo :=
        fun hs => hshadowed ⟨repo, kind, v, secret, e, hgenuine, hs⟩
      obtain ⟨p, names, hp, hrec⟩ := hgenuine.receives hnot
      have hr := receive_eq_some_iff.mpr ⟨_, _, _, _, hrec⟩
      exact ⟨p, hp, handleInner_eq_some_iff.mpr ⟨_, hr, rfl⟩, hgenuine.event_slug⟩
    · intro h hh hbuild
      obtain ⟨r, hr, rfl⟩ := handleInner_eq_some_iff.mp hh
      obtain ⟨kind, v, names, secret, hrec⟩ := receive_eq_some_iff.mp hr
      refine ⟨⟨kind, secret, hrec.url, hrec.stored, hrec.signed⟩, ?_⟩
      rcases hrec.event_slug with hslug | ⟨rfl, a, b, rfl, hne⟩
      · exact hslug
      · exact absurd ⟨v, a, b, secret, r, hrec, hne, hbuild⟩ hdiverted

/-! ## Two forges of one kind -/

/-- No two configured repositories have the same secret. -/
def Snapshot.SecretsDistinct (snap : Snapshot) (secrets : Secrets) : Prop :=
  ∀ r ∈ snap.config.repos, ∀ r' ∈ snap.config.repos, ∀ secret,
    secrets r.forge r.slug = some secret → secrets r'.forge r'.slug = some secret → r = r'

/-- The repository of the same name on the other GitLab. -/
def mirrorRepo : Repo := { gitlabRepo with forge := "mirror" }

def mirrorForge : ForgeConfig := { gitlabForge with webUrl := "https://mirror.example" }

def twinSnapshot : Snapshot where
  config :=
    { forges := AList.insert "gitlab" gitlabForge (AList.insert "mirror" mirrorForge ∅)
      repos := [gitlabRepo, mirrorRepo]
      registries := []
      builderListen := none
      nested := by
        intro r hr
        rcases List.mem_pair.mp hr with rfl | rfl
        · exact ⟨gitlabForge, AList.lookup_insert _⟩
        · exact ⟨mirrorForge, by decide⟩
      distinct := by decide }
  providers _ := some gitlabProvider
  built := by
    intro name f hf
    refine ⟨gitlabProvider, rfl, ?_⟩
    by_cases hname : name = "gitlab"
    · subst hname
      rw [AList.lookup_insert] at hf
      obtain rfl := Option.some.inj hf
      rfl
    · rw [AList.lookup_insert_ne hname] at hf
      by_cases hmirror : name = "mirror"
      · subst hmirror
        rw [AList.lookup_insert] at hf
        obtain rfl := Option.some.inj hf
        rfl
      · rw [AList.lookup_insert_ne hmirror] at hf
        exact absurd hf (by simp)

def twinSecrets : Secrets := fun forge _ =>
  if forge = "gitlab" then some (utf8 "first") else some (utf8 "second")

/-- A push to the repository on the other GitLab. -/
def pushed : Json :=
  .obj [
    ("ref", .str "refs/heads/main"),
    ("after", .str "2222222222222222222222222222222222222222"),
    ("project", .obj [("path_with_namespace", .str "org/app")])]

def pushedBody : List UInt8 := utf8 <|
  "\x7b\"ref\":\"refs/heads/main\",\"after\":\"2222222222222222222222222222222222222222\"," ++
  "\"project\":\x7b\"path_with_namespace\":\"org/app\"\x7d\x7d"

def pushedDelivery : Request :=
  ⟨"gitlab", [("X-Gitlab-Event", "Push Hook"), ("X-Gitlab-Token", "second")], pushedBody⟩

def pushedEvent : PushEvent where
  slug := orgApp
  gitRef := "refs/heads/main"
  sha := ⟨"2222222222222222222222222222222222222222"⟩
  pusher := none
  repo := ⟨none, none, none, none⟩

theorem pushed_describes : Describes .gitlab pushed "org/app" := by
  refine ⟨_, _, _, rfl, rfl, rfl, rfl, ?_⟩
  intro other r' hne hr'
  cases other with
  | github | forgejo => exact absurd hr' (by simp [Json.member, repositoryKey])
  | gitlab => exact absurd rfl hne

theorem pushed_genuine : Genuine (plainLibraries pushedBody pushed) twinSnapshot twinSecrets
    pushedDelivery mirrorRepo .gitlab pushed (utf8 "second") (.push pushedEvent) where
  configured := List.mem_cons_of_mem _ List.mem_cons_self
  ofKind := by decide
  url := by decide
  document := plainLibraries_fromSlice _ _
  describes := pushed_describes
  stored := rfl
  signed := by rfl
  event := by rfl

theorem twin_secretsDistinct : twinSnapshot.SecretsDistinct twinSecrets := by
  have hne : utf8 "first" ≠ utf8 "second" := by decide
  intro r hr r' hr' secret hs hs'
  rcases List.mem_pair.mp hr with rfl | rfl <;> rcases List.mem_pair.mp hr' with rfl | rfl
  · rfl
  · exact absurd (Option.some.inj (hs.trans hs'.symm)) hne
  · exact absurd (Option.some.inj (hs'.trans hs.symm)) hne
  · rfl

/-- **What the second GitLab signs is refused.** -/
theorem not_attributed :
    ¬ ∀ (isSocketAddr : String → Bool) (libs : Libraries) (snap : Snapshot) (secrets : Secrets)
      (d : Request), snap.config.validateReferences isSocketAddr = .ok () →
        snap.SecretsDistinct secrets → Attributed libs snap secrets d := by
  intro hall
  have hatt := hall (fun _ => false) (plainLibraries pushedBody pushed) twinSnapshot twinSecrets
    pushedDelivery (by rfl) twin_secretsDistinct
  obtain ⟨p, -, hh, -⟩ := hatt.received _ _ _ _ _ pushed_genuine
  have hrefused : (handleInner (plainLibraries pushedBody pushed) twinSnapshot twinSecrets
      pushedDelivery).isOk = false := by
    rfl
  rw [hh] at hrefused
  exact absurd hrefused (by simp [Except.isOk, Except.toBool])

end Argunix.Web
