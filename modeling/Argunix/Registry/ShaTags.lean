import Argunix.Registry.Tags

/-!
# `argunix-registry`: the tags of a commit

`sha-<short>` is documented as an immutable tag. The registry resolves it with one query: the rows
of the image whose commit is `LIKE '<short>%'`. What a client sends is the pattern, so it may have
wildcards, capital letters and a NUL, which ends it; a short prefix may be that of several commits;
and a commit may have been built more than once, as the head of a branch and of a pull request or in
a rebuild. The query for branches takes the newest row of each system, and this one takes them all.

`oneCommit_iff` says when the tag is what it is documented to be: nothing matches, or the prefix is
plain and the rows of the commits that start with it are of one commit and of different systems.
Otherwise the index names a platform twice (`not_oneCommit_rebuilt`).
-/

set_option autoImplicit false

namespace Argunix.Registry

open Argunix.Lib Argunix.Forge Argunix.Web

/-! ## The index -/

/-- `OciPlatform` -/
structure OciPlatform where
  architecture : String
  os : String
deriving DecidableEq, Repr

/-- `nix_system_to_platform` -/
def nixSystemToPlatform (system : String) : Option OciPlatform :=
  if system = "x86_64-linux" then some ⟨"amd64", "linux"⟩
  else if system = "aarch64-linux" then some ⟨"arm64", "linux"⟩
  else if system = "x86_64-darwin" then some ⟨"amd64", "darwin"⟩
  else if system = "aarch64-darwin" then some ⟨"arm64", "darwin"⟩
  else none

/-- A line of an index. -/
structure OciIndexEntry where
  digest : String
  size : ℕ
  platform : OciPlatform
deriving DecidableEq, Repr

/-- The entries that `assemble_index` writes. `stat` is the length of a manifest file; one that
    cannot be read is a server error. -/
def assembleIndex (stat : String → Option ℕ) : List DockerImage → Option (List OciIndexEntry)
  | [] => some []
  | row :: rows =>
    match nixSystemToPlatform row.system with
    | none => assembleIndex stat rows
    | some platform =>
      (stat row.manifestPath).bind fun size =>
        (assembleIndex stat rows).map fun entries => ⟨row.manifestDigest, size, platform⟩ :: entries

/-! ## What is wanted -/

/-- **What a commit's tag should resolve to.** -/
structure OneCommit (t : ImageTable) (name short : String) (rows : List DockerImage) : Prop where
  literal : ∀ d ∈ rows, short.toList <+: d.sha.asStr.toList
  commit : ∀ d ∈ rows, ∀ d' ∈ rows, d.sha = d'.sha
  systems : (rows.map DockerImage.system).Nodup
  newest : ∀ d ∈ rows, ∀ d' ∈ t.rows, d'.imageName = name → d'.sha = d.sha →
    d'.system = d.system → d'.id ≤ d.id
  platforms : ∀ stat entries, assembleIndex stat rows = some entries →
    (entries.map OciIndexEntry.platform).Nodup

/-- What `Sha::new` accepts, in lower case. -/
def ValidSha (sha : Sha) : Prop := ∃ s, shaNew s = some sha

/-- A row that the pattern matches. -/
def Matches (t : ImageTable) (name short : String) (d : DockerImage) : Prop :=
  d ∈ t.rows ∧ d.imageName = name ∧ likePlain (short.toList ++ ['%']) d.sha.asStr.toList = true

/-- A row of a commit that starts with this. -/
def StartsWith (t : ImageTable) (name short : String) (d : DockerImage) : Prop :=
  d ∈ t.rows ∧ d.imageName = name ∧ short.toList <+: d.sha.asStr.toList

/-- Nothing matches; or the prefix is plain, it is the prefix of one commit, and this was published
    once for each system. -/
def PublishedOnce (t : ImageTable) (name short : String) : Prop :=
  (∀ d, ¬ Matches t name short d) ∨
    (PlainText short.toList ∧ ∀ d d', StartsWith t name short d → StartsWith t name short d' →
      d.sha = d'.sha ∧ (d.system = d'.system → d = d'))

/-! ## Commits are plain -/

theorem plain_toLower_of_isHexDigit {c : Char} (h : isHexDigit c = true) :
    c.toLower ≠ '%' ∧ c.toLower ≠ '_' ∧ c.toLower ≠ nul ∧ c.toLower.toLower = c.toLower :=
  of_isHexDigit (P := fun c => c.toLower ≠ '%' ∧ c.toLower ≠ '_' ∧ c.toLower ≠ nul ∧
    c.toLower.toLower = c.toLower) h (by decide +kernel)

theorem ValidSha.plain {sha : Sha} (h : ValidSha sha) : PlainText sha.asStr.toList := by
  obtain ⟨s, hs⟩ := h
  unfold shaNew at hs
  split at hs
  · exact absurd hs (by simp)
  · rename_i hvalid
    obtain rfl := Option.some.inj hs
    intro c hc
    rw [String.toList_ofList] at hc
    obtain ⟨x, hx, rfl⟩ := List.mem_map.mp hc
    have hhex : s.toList.all isHexDigit = true := by
      simpa using (not_or.mp hvalid).2
    exact plain_toLower_of_isHexDigit (List.all_eq_true.mp hhex x hx)

/-! ## The rows -/

section

variable {t : ImageTable} {name short : String}

theorem mem_rowsByShaPrefix {d : DockerImage} :
    d ∈ t.rowsByShaPrefix name short ↔ Matches t name short d := by
  rw [ImageTable.rowsByShaPrefix, List.mem_insertionSort, List.mem_filter, decide_eq_true_eq,
    Matches]

theorem nodup_rowsByShaPrefix : (t.rowsByShaPrefix name short).Nodup := by
  have hnodup : t.rows.Nodup := t.increasing.imp fun hlt heq => absurd hlt (by simp [heq])
  exact (List.perm_insertionSort _ _).nodup_iff.mpr (hnodup.filter _)

theorem matches_iff_startsWith (hsha : ∀ d ∈ t.rows, ValidSha d.sha) (hp : PlainText short.toList)
    {d : DockerImage} : Matches t name short d ↔ StartsWith t name short d := by
  refine and_congr_right fun hd => and_congr_right fun _ => ?_
  exact likePlain_percent_iff hp (hsha d hd).plain

theorem nixSystemToPlatform_cases {s : String} {platform : OciPlatform}
    (h : nixSystemToPlatform s = some platform) :
    (s = "x86_64-linux" ∧ platform = ⟨"amd64", "linux"⟩) ∨
      (s = "aarch64-linux" ∧ platform = ⟨"arm64", "linux"⟩) ∨
      (s = "x86_64-darwin" ∧ platform = ⟨"amd64", "darwin"⟩) ∨
      (s = "aarch64-darwin" ∧ platform = ⟨"arm64", "darwin"⟩) := by
  unfold nixSystemToPlatform at h
  split at h
  · exact .inl ⟨‹_›, (Option.some.inj h).symm⟩
  split at h
  · exact .inr (.inl ⟨‹_›, (Option.some.inj h).symm⟩)
  split at h
  · exact .inr (.inr (.inl ⟨‹_›, (Option.some.inj h).symm⟩))
  split at h
  · exact .inr (.inr (.inr ⟨‹_›, (Option.some.inj h).symm⟩))
  · exact absurd h (by simp)

/-- A platform is that of one system. -/
theorem nixSystemToPlatform_injective {s s' : String} {platform : OciPlatform}
    (h : nixSystemToPlatform s = some platform) (h' : nixSystemToPlatform s' = some platform) :
    s = s' := by
  rcases nixSystemToPlatform_cases h with ⟨rfl, hp⟩ | ⟨rfl, hp⟩ | ⟨rfl, hp⟩ | ⟨rfl, hp⟩ <;>
    rcases nixSystemToPlatform_cases h' with ⟨rfl, hp'⟩ | ⟨rfl, hp'⟩ | ⟨rfl, hp'⟩ | ⟨rfl, hp'⟩ <;>
    first | rfl | exact absurd (hp.symm.trans hp') (by decide)

theorem mem_platforms {stat : String → Option ℕ} {rows : List DockerImage}
    {entries : List OciIndexEntry} (h : assembleIndex stat rows = some entries)
    {platform : OciPlatform} (hp : platform ∈ entries.map OciIndexEntry.platform) :
    ∃ d ∈ rows, nixSystemToPlatform d.system = some platform := by
  induction rows generalizing entries with
  | nil =>
    obtain rfl := Option.some.inj h
    exact absurd hp List.not_mem_nil
  | cons row rows ih =>
    rw [assembleIndex] at h
    cases hrow : nixSystemToPlatform row.system with
    | none =>
      rw [hrow] at h
      obtain ⟨d, hd, hplatform⟩ := ih h hp
      exact ⟨d, List.mem_cons_of_mem row hd, hplatform⟩
    | some platform' =>
      rw [hrow] at h
      obtain ⟨size, -, hrest⟩ := Option.bind_eq_some_iff.mp h
      obtain ⟨entries', hentries, rfl⟩ := Option.map_eq_some_iff.mp hrest
      rcases List.mem_cons.mp hp with rfl | hp
      · exact ⟨row, List.mem_cons_self, hrow⟩
      · obtain ⟨d, hd, hplatform⟩ := ih hentries hp
        exact ⟨d, List.mem_cons_of_mem row hd, hplatform⟩

/-- **Rows of different systems make an index that names each platform once.** -/
theorem nodup_platforms {stat : String → Option ℕ} {rows : List DockerImage}
    {entries : List OciIndexEntry} (hsystems : (rows.map DockerImage.system).Nodup)
    (h : assembleIndex stat rows = some entries) :
    (entries.map OciIndexEntry.platform).Nodup := by
  induction rows generalizing entries with
  | nil =>
    obtain rfl := Option.some.inj h
    exact List.nodup_nil
  | cons row rows ih =>
    obtain ⟨hnew, hsystems⟩ := List.nodup_cons.mp hsystems
    rw [assembleIndex] at h
    cases hrow : nixSystemToPlatform row.system with
    | none =>
      rw [hrow] at h
      exact ih hsystems h
    | some platform =>
      rw [hrow] at h
      obtain ⟨size, -, hrest⟩ := Option.bind_eq_some_iff.mp h
      obtain ⟨entries', hentries, rfl⟩ := Option.map_eq_some_iff.mp hrest
      refine List.nodup_cons.mpr ⟨fun hm => hnew ?_, ih hsystems hentries⟩
      obtain ⟨d, hd, hplatform⟩ := mem_platforms hentries hm
      rw [nixSystemToPlatform_injective hrow hplatform]
      exact List.mem_map_of_mem hd

/-- Two rows of one system are one row. -/
theorem eq_of_nodup_systems {rows : List DockerImage} (h : (rows.map DockerImage.system).Nodup)
    {d d' : DockerImage} (hd : d ∈ rows) (hd' : d' ∈ rows) (hsys : d.system = d'.system) :
    d = d' :=
  List.inj_on_of_nodup_map h hd hd' hsys

theorem oneCommit_iff_publishedOnce (hsha : ∀ d ∈ t.rows, ValidSha d.sha) :
    OneCommit t name short (t.rowsByShaPrefix name short) ↔ PublishedOnce t name short := by
  constructor
  · intro h
    by_cases hnone : ∀ d, ¬ Matches t name short d
    · exact .inl hnone
    · obtain ⟨d, hd⟩ := not_forall_not.mp hnone
      -- a row that starts with the prefix shows that it is plain
      have hplain : PlainText short.toList :=
        PlainText.of_start (hsha d hd.1).plain (h.literal d (mem_rowsByShaPrefix.mpr hd))
      refine .inr ⟨hplain, fun d₁ d₂ h₁ h₂ => ?_⟩
      have hm₁ := mem_rowsByShaPrefix.mpr ((matches_iff_startsWith hsha hplain).mpr h₁)
      have hm₂ := mem_rowsByShaPrefix.mpr ((matches_iff_startsWith hsha hplain).mpr h₂)
      exact ⟨h.commit d₁ hm₁ d₂ hm₂, eq_of_nodup_systems h.systems hm₁ hm₂⟩
  · intro h
    rcases h with hnone | ⟨hplain, hone⟩
    · have hnil : t.rowsByShaPrefix name short = [] :=
        List.eq_nil_iff_forall_not_mem.mpr fun d hd => hnone d (mem_rowsByShaPrefix.mp hd)
      rw [hnil]
      refine ⟨by simp, by simp, List.nodup_nil, by simp, fun stat entries h => ?_⟩
      obtain rfl := Option.some.inj h
      exact List.nodup_nil
    · have hstarts : ∀ d ∈ t.rowsByShaPrefix name short, StartsWith t name short d :=
        fun d hd => (matches_iff_startsWith hsha hplain).mp (mem_rowsByShaPrefix.mp hd)
      have hsystems : ((t.rowsByShaPrefix name short).map DockerImage.system).Nodup :=
        (List.nodup_map_iff_inj_on nodup_rowsByShaPrefix).mpr
          fun d hd d' hd' => (hone d d' (hstarts d hd) (hstarts d' hd')).2
      refine ⟨fun d hd => (hstarts d hd).2.2,
        fun d hd d' hd' => (hone d d' (hstarts d hd) (hstarts d' hd')).1, hsystems,
        fun d hd d' hd' hname hcommit hsys => ?_, fun stat entries h => nodup_platforms hsystems h⟩
      have hstart' : StartsWith t name short d' := ⟨hd', hname, hcommit ▸ (hstarts d hd).2.2⟩
      rw [(hone d' d hstart' (hstarts d hd)).2 hsys]

/-- **A commit's tag is what it should be if and only if nothing matches it, or it is plain, the
    prefix of one commit, and this was published once for each system.** -/
theorem oneCommit_iff {w : World} {name short : String}
    (hsha : ∀ d ∈ w.images.rows, ValidSha d.sha) :
    (∃ rows, w.resolveTag name ("sha-" ++ short) = .ok rows ∧
      OneCommit w.images name short rows) ↔ PublishedOnce w.images name short := by
  have hresolve : w.resolveTag name ("sha-" ++ short) =
      .ok (w.images.rowsByShaPrefix name short) := by
    simp [World.resolveTag, stripPrefix]
  rw [← oneCommit_iff_publishedOnce hsha, hresolve]
  constructor
  · rintro ⟨rows, hok, h⟩
    exact (Except.ok.inj hok) ▸ h
  · intro h
    exact ⟨_, rfl, h⟩

end

/-! ## A commit that is built twice -/

def commit : Sha := ⟨"3333333333333333333333333333333333333333"⟩

theorem commit_valid : ValidSha commit := ⟨commit.asStr, by decide +kernel⟩

def webImage (id : ℕ) (gitRef : String) : DockerImage where
  id := id
  repoId := ⟨1⟩
  evalId := ⟨id⟩
  jobId := ⟨id⟩
  imageName := "github/acme/app/web"
  system := "x86_64-linux"
  gitRef := gitRef
  sha := commit
  manifestDigest := "sha256:" ++ toString id
  manifestPath := "/var/lib/argunix/registry/" ++ toString id
  createdAt := id

/-- The commit was pushed to `main`. -/
def builtOnce : World :=
  { World.fresh 300 with images := ⟨[webImage 1 "refs/heads/main"], List.pairwise_singleton _ _⟩ }

/-- It is the head of a pull request, too. -/
def builtTwice : World :=
  { World.fresh 300 with
    images := ⟨[webImage 1 "refs/heads/main", webImage 2 "refs/pull/7/head:fix"], by decide⟩ }

theorem oneCommit_iff_once : ∃ rows, builtOnce.resolveTag "github/acme/app/web" "sha-3333333" =
    .ok rows ∧ OneCommit builtOnce.images "github/acme/app/web" "3333333" rows := by
  refine (@oneCommit_iff builtOnce "github/acme/app/web" "3333333" fun d hd => ?_).mpr
    (.inr ⟨by decide +kernel, ?_⟩)
  · rw [List.mem_singleton.mp hd]
    exact commit_valid
  · intro d d' hd hd'
    rw [List.mem_singleton.mp hd.1, List.mem_singleton.mp hd'.1]
    exact ⟨rfl, fun _ => rfl⟩

/-- **Two rows of one system, and an index that names the platform twice.** -/
theorem not_oneCommit_rebuilt : (∀ d ∈ builtTwice.images.rows, ValidSha d.sha) ∧
    ¬ ∃ rows, builtTwice.resolveTag "github/acme/app/web" "sha-3333333" = .ok rows ∧
      OneCommit builtTwice.images "github/acme/app/web" "3333333" rows := by
  constructor
  · intro d hd
    simp only [builtTwice, List.mem_cons, List.not_mem_nil, or_false] at hd
    rcases hd with rfl | rfl
    · exact commit_valid
    · exact commit_valid
  · rintro ⟨rows, hok, h⟩
    have hresolve : (builtTwice.resolveTag "github/acme/app/web" "sha-3333333").toOption.map
        (List.map DockerImage.system) = some ["x86_64-linux", "x86_64-linux"] := by decide +kernel
    rw [hok] at hresolve
    have hsystems := h.systems
    rw [show rows.map DockerImage.system = _ from Option.some.inj hresolve] at hsystems
    exact absurd hsystems (by decide)

end Argunix.Registry
