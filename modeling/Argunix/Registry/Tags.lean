import Argunix.Registry.Images
import Argunix.Web.Policy

/-!
# Do tags follow publication?

A client that pulls `<image>:main` should get what was last published for the branch `main`. The
name of the branch passes through three components. `persist` strips `refs/heads/` from the ref of a
push, so the row of its evaluation says `main`; the worker copies that into the image's row; and the
resolver looks for `refs/heads/main`. **Nothing that is published under a branch is ever found under
its tag** (`not_follows_of_published`). `follows_iff` is exact: the tag is right only as long as
there is nothing to find, neither for the branch nor for one that is really called
`refs/heads/main`. The same goes for `latest`.

A `History` remembers what the tables do not: which evaluation was a push to which branch. `Inv` is
the invariant of the runs: the rows of a branch are those with its bare name in `git_ref`.
-/

set_option autoImplicit false

namespace Argunix.Registry

open Argunix.Lib Argunix.Store Argunix.Forge Argunix.Web

/-! ## Runs -/

/-- The branch that was pushed to. -/
def branchOf : Forge.NormalizedEvent → Option String
  | .push event => stripPrefix "refs/heads/" event.gitRef
  | .pullRequest _ => none

/-- **What has happened**: the evaluations of pushes, each with its branch, and the images in the
    order of their publication. -/
structure History where
  pushes : List (EvalId × String)
  published : List DockerImage

namespace History

/-- The images of this name that were published for a branch. -/
def of (hist : History) (name branch : String) : List DockerImage :=
  hist.published.filter fun d => d.imageName = name ∧ (d.evalId, branch) ∈ hist.pushes

def pushed (hist : History) (outcome : Option Outcome) (event : Forge.NormalizedEvent) : History :=
  match outcome, branchOf event with
  | some (.queued id), some branch => { hist with pushes := hist.pushes ++ [(id, branch)] }
  | _, _ => hist

def recorded (hist : History) (row : Option DockerImage) : History :=
  { hist with published := hist.published ++ row.toList }

end History

/-- **Every sequence of deliveries, of writes of the worker to an evaluation, and of publications**,
    from an empty database. -/
inductive Reaches (window : ℕ) : History → World → Prop
  | start : Reaches window ⟨[], []⟩ (.fresh window)
  | handle {hist : History} {w : World} (now : ℕ) (r : Received) (listOk createOk : Bool)
      (h : Reaches window hist w) :
      Reaches window (hist.pushed (w.handle now r listOk createOk).1 r.event)
        (w.handle now r listOk createOk).2
  | settle {hist : History} {w : World} (id : EvalId) (status : EvalStatus)
      (h : Reaches window hist w) : Reaches window hist (w.setEvalStatus id status)
  | publish {hist : History} {w : World} (b : World.Built) (h : Reaches window hist w) :
      Reaches window (hist.recorded (w.tryPublishDockerImage b).1) (w.tryPublishDockerImage b).2

/-! ## What a tag answers with -/

/-- The tags of a branch: its name, and `latest` if it is the default branch of the repository. -/
def TagOf (w : World) (name branch tag : String) : Prop :=
  tag = branch ∨ (tag = "latest" ∧ ∃ repo ∈ w.repos, ∃ leaf,
    name = World.imageName repo.forge repo.slug.asStr leaf ∧ repo.defaultBranch = some branch)

/-- **The tags of a branch give, for each system, the last image published for the branch.** -/
def Follows (w : World) (hist : History) (name branch : String) : Prop :=
  ∀ tag, TagOf w name branch tag → ∀ system,
    ((w.served name tag).filter fun d => d.system = system) =
      (newest DockerImage.system system (hist.of name branch)).toList

/-- What has to be the case for a tag to be right. A commit's tag: the commits that fit are those
    that were published last. Any other: it stands for no ref, or for another one than the branch,
    and then there is nothing to find in both places. -/
def Harmless (w : World) (hist : History) (name branch tag : String) : Prop :=
  match stripPrefix "sha-" tag with
  | some short => ∀ d ∈ hist.published, d.imageName = name →
      (likePlain (short.toList ++ ['%']) d.sha.asStr.toList = true ↔
        newest DockerImage.system d.system (hist.of name branch) = some d)
  | none =>
    match w.tagRef name tag with
    | some gitRef => gitRef = branch ∨ (hist.of name branch = [] ∧ hist.of name gitRef = [])
    | none => hist.of name branch = []

/-! ## The refs of evaluations -/

/-- The columns that a publication reads. -/
def refs (t : EvalTable) : List (EvalId × String) := t.rows.map fun e => (e.id, e.gitRef)

theorem refs_setGuarded (t : EvalTable) (id : EvalId) (status : EvalStatus) :
    refs (t.setGuarded id status) = refs t := by
  simp only [refs, EvalTable.setGuarded, EvalTable.mapRows, List.map_map]
  refine List.map_congr_left fun e _ => ?_
  simp only [Function.comp, EvalTable.guarded]
  split <;> rfl

/-- An id has one ref. -/
theorem refs_unique {t : EvalTable} {id : EvalId} {a b : String} (ha : (id, a) ∈ refs t)
    (hb : (id, b) ∈ refs t) : a = b := by
  obtain ⟨e, he, heq⟩ := List.mem_map.mp ha
  obtain ⟨e', he', heq'⟩ := List.mem_map.mp hb
  obtain ⟨rfl, rfl⟩ := Prod.mk.inj heq
  obtain ⟨hid, rfl⟩ := Prod.mk.inj heq'
  rw [EvalTable.eq_of_id he' he hid]

theorem map_ref_afterEvent (rows : List EvalRecord) (repoId : RepoId)
    (event : Web.NormalizedEvent) :
    (rows.map (AppState.afterEvent repoId event)).map (fun e => (e.id, e.gitRef)) =
      rows.map fun e => (e.id, e.gitRef) := by
  rw [List.map_map]
  refine List.map_congr_left fun e _ => ?_
  simp only [Function.comp, AppState.afterEvent]
  split <;> rfl

/-- **`persist` writes one ref, or none.** -/
theorem refs_persist (st : AppState) (now : ℕ) (repoId : RepoId) (event : Web.NormalizedEvent)
    (listOk createOk : Bool) :
    let res := st.persist now repoId event listOk createOk
    (∃ id, res.1 = .queued id ∧ refs res.2.evals = refs st.evals ++ [(id, event.gitRef)]) ∨
      ((∀ id, res.1 ≠ .queued id) ∧ refs res.2.evals = refs st.evals) := by
  have hcases := AppState.persist_cases st now repoId event listOk createOk
  simp only at hcases
  rcases hcases with ⟨-, hout, hevals⟩ | ⟨-, -, hout, hevals⟩ | ⟨-, -, -, hout, hrows⟩ |
    ⟨-, -, -, e, he, hout, hrows⟩
  · exact Or.inr ⟨by simp [hout], by rw [hevals]⟩
  · exact Or.inr ⟨by simp [hout], by rw [hevals]⟩
  · refine Or.inr ⟨by simp [hout], ?_⟩
    rw [refs, hrows, map_ref_afterEvent]
    rfl
  · refine Or.inl ⟨e.id, hout, ?_⟩
    rw [refs, hrows, List.map_append, map_ref_afterEvent, List.map_singleton, he.gitRef]
    rfl

/-! ## What is persisted -/

/-- **An accepted push is stored under its branch**, an accepted pull request under no branch. -/
theorem gitRef_of_build {provider : Provider} {repo : Repo} {event : Forge.NormalizedEvent}
    (h : (evaluate provider repo event).1 = .build) :
    branchOf event = some event.toPersist.gitRef ∨
      (branchOf event = none ∧ "refs/pull/".toList <+: event.toPersist.gitRef.toList) := by
  cases event with
  | push e =>
    have hmatch : branchMatches e.gitRef repo.watchedBranches = true := by
      by_contra hno
      exact absurd h (by simp [evaluate, evaluatePush, hno])
    rw [branchMatches, Bool.and_eq_true] at hmatch
    have hstrip : (stripPrefix "refs/heads/" e.gitRef).isSome = true := by
      rw [stripPrefix, if_pos hmatch.1]
      rfl
    obtain ⟨branch, hbranch⟩ := Option.isSome_iff_exists.mp hstrip
    refine Or.inl ?_
    simp only [branchOf, Forge.NormalizedEvent.toPersist, Web.NormalizedEvent.gitRef, hbranch,
      Option.getD_some]
  | pullRequest e =>
    refine Or.inr ⟨rfl, ?_⟩
    simp only [Forge.NormalizedEvent.toPersist, Web.NormalizedEvent.gitRef, String.toList_append,
      List.append_assoc]
    exact List.prefix_append _ _

/-- What `publish` records copies the ref of the evaluation. -/
theorem publish_spec {repo : RepoRecord} {eval : EvalRecord} {b : World.Built} {row : DockerImage}
    (h : World.publish repo eval b = some row) :
    row.evalId = b.evalId ∧ row.gitRef = eval.gitRef := by
  simp only [World.publish, Option.bind_eq_bind, Option.bind_eq_some_iff, Option.some.injEq] at h
  obtain ⟨-, -, converted, -, rfl⟩ := h
  exact ⟨rfl, rfl⟩

/-- **A publication records one row, with the ref of its evaluation, or none.** -/
theorem tryPublishDockerImage_cases (w : World) (b : World.Built) :
    w.tryPublishDockerImage b = (none, w) ∨
      ∃ row, (row.evalId, row.gitRef) ∈ refs w.app.evals ∧ w.tryPublishDockerImage b =
        (some (w.images.newRow row), { w with images := w.images.create row }) := by
  unfold World.tryPublishDockerImage
  split
  · rename_i repo eval _ heval
    split
    · rename_i row hrow
      refine Or.inr ⟨row, ?_, rfl⟩
      split at hrow
      · obtain ⟨hid, href⟩ := publish_spec hrow
        have heq : eval.id = b.evalId := by simpa using List.find?_some heval
        rw [hid, href, ← heq]
        exact List.mem_map_of_mem (List.mem_of_find?_eq_some heval)
      · exact absurd hrow (by simp)
    · exact Or.inl rfl
  · exact Or.inl rfl

/-! ## The invariant -/

/-- **The rows of a branch are those with its bare name in `git_ref`.** -/
structure Inv (hist : History) (w : World) : Prop where
  rows : w.images.rows = hist.published
  pushed : ∀ p ∈ hist.pushes, p ∈ refs w.app.evals
  pulled : ∀ p ∈ refs w.app.evals, p ∈ hist.pushes ∨ "refs/pull/".toList <+: p.2.toList
  copied : ∀ d ∈ hist.published, (d.evalId, d.gitRef) ∈ refs w.app.evals

namespace Inv

variable {hist : History} {w : World}

/-- The refs are all that the invariant knows of the evaluations. -/
theorem frame {w' : World} (h : Inv hist w) (himages : w'.images = w.images)
    (hrefs : refs w'.app.evals = refs w.app.evals) : Inv hist w' := by
  refine ⟨?_, ?_, ?_, ?_⟩
  · rw [himages]
    exact h.rows
  · rw [hrefs]
    exact h.pushed
  · rw [hrefs]
    exact h.pulled
  · rw [hrefs]
    exact h.copied

/-- A new evaluation, of a push or not. -/
theorem queued {w' : World} (h : Inv hist w) {id : EvalId} {gitRef : String}
    {event : Forge.NormalizedEvent} (himages : w'.images = w.images)
    (hrefs : refs w'.app.evals = refs w.app.evals ++ [(id, gitRef)])
    (hevent : branchOf event = some gitRef ∨
      (branchOf event = none ∧ "refs/pull/".toList <+: gitRef.toList)) :
    Inv (hist.pushed (some (.queued id)) event) w' := by
  have hold : ∀ p ∈ refs w.app.evals, p ∈ refs w'.app.evals := by
    intro p hp
    rw [hrefs]
    exact List.mem_append_left _ hp
  have hnew : (id, gitRef) ∈ refs w'.app.evals := by
    rw [hrefs]
    simp
  rcases hevent with hpush | ⟨hpull, hslash⟩
  · simp only [History.pushed, hpush]
    refine ⟨?_, ?_, ?_, fun d hd => hold _ (h.copied d hd)⟩
    · rw [himages]
      exact h.rows
    · intro p hp
      rcases List.mem_append.mp hp with hp | hp
      · exact hold p (h.pushed p hp)
      · rwa [List.mem_singleton.mp hp]
    · intro p hp
      rw [hrefs] at hp
      rcases List.mem_append.mp hp with hp | hp
      · exact (h.pulled p hp).imp_left (List.mem_append_left _)
      · exact Or.inl (List.mem_append_right _ hp)
  · simp only [History.pushed, hpull]
    refine ⟨?_, fun p hp => hold p (h.pushed p hp), ?_, fun d hd => hold _ (h.copied d hd)⟩
    · rw [himages]
      exact h.rows
    · intro p hp
      rw [hrefs] at hp
      rcases List.mem_append.mp hp with hp | hp
      · exact h.pulled p hp
      · rw [List.mem_singleton.mp hp]
        exact Or.inr hslash

theorem handle (h : Inv hist w) (now : ℕ) (r : Received) (listOk createOk : Bool) :
    Inv (hist.pushed (w.handle now r listOk createOk).1 r.event)
      (w.handle now r listOk createOk).2 := by
  unfold World.handle
  simp only
  split
  · rename_i hbuild
    rcases refs_persist w.app now (w.repos.upsert r.repo.forge r.slug).1 r.event.toPersist listOk
      createOk with ⟨id, hout, hrefs⟩ | ⟨hout, hrefs⟩
    · simp only [hout]
      exact h.queued rfl hrefs (gitRef_of_build hbuild)
    · have hsame : hist.pushed (some (w.app.persist now (w.repos.upsert r.repo.forge r.slug).1
          r.event.toPersist listOk createOk).1) r.event = hist := by
        unfold History.pushed
        split
        · rename_i id branch hid _
          exact absurd (Option.some.inj hid) (hout id)
        · rfl
      rw [hsame]
      exact h.frame rfl hrefs
  · exact h.frame rfl rfl

theorem settle (h : Inv hist w) (id : EvalId) (status : EvalStatus) :
    Inv hist (w.setEvalStatus id status) :=
  h.frame rfl (refs_setGuarded _ id status)

theorem publish (h : Inv hist w) (b : World.Built) :
    Inv (hist.recorded (w.tryPublishDockerImage b).1) (w.tryPublishDockerImage b).2 := by
  rcases tryPublishDockerImage_cases w b with heq | ⟨row, hrow, heq⟩
  · rw [heq]
    simpa only [History.recorded, Option.toList_none, List.append_nil] using h
  · rw [heq]
    refine ⟨?_, h.pushed, h.pulled, ?_⟩
    · exact congrArg (· ++ [w.images.newRow row]) h.rows
    · intro d hd
      rcases List.mem_append.mp hd with hd | hd
      · exact h.copied d hd
      · obtain rfl : d = w.images.newRow row := by simpa using hd
        exact hrow

/-- **Every run.** -/
theorem reaches {window : ℕ} (h : Reaches window hist w) : Inv hist w := by
  induction h with
  | start => exact ⟨rfl, by simp, by simp [refs, World.fresh, AppState.start], by simp⟩
  | handle now r listOk createOk _ ih => exact ih.handle now r listOk createOk
  | settle id status _ ih => exact ih.settle id status
  | publish b _ ih => exact ih.publish b

/-- What was published for a branch has its name. -/
theorem gitRef_of_push (h : Inv hist w) {d : DockerImage} (hd : d ∈ hist.published)
    {branch : String} (hpush : (d.evalId, branch) ∈ hist.pushes) : d.gitRef = branch :=
  refs_unique (h.copied d hd) (h.pushed _ hpush)

/-- **What has a `refs/heads/` in its ref was published for a branch of that very name.** -/
theorem of_eq (h : Inv hist w) (name branch : String) :
    hist.of name ("refs/heads/" ++ branch) =
      w.images.rows.filter fun d => d.imageName = name ∧ d.gitRef = "refs/heads/" ++ branch := by
  rw [h.rows, History.of, List.filter_congr]
  intro d hd
  have hiff : (d.evalId, "refs/heads/" ++ branch) ∈ hist.pushes ↔
      d.gitRef = "refs/heads/" ++ branch := by
    constructor
    · exact h.gitRef_of_push hd
    · intro href
      have hcopied := h.copied d hd
      rw [href] at hcopied
      rcases h.pulled _ hcopied with hpush | hpull
      · exact hpush
      · exact absurd hpull (by simp [List.cons_prefix_cons])
  rw [decide_eq_decide, hiff]

end Inv

/-! ## The answers -/

/-- **The query selects, for each system, the last row of the image and the ref.** -/
theorem filter_latestPerSystemForBranch (t : ImageTable) (name gitRef system : String) :
    ((t.latestPerSystemForBranch name gitRef).filter fun d => d.system = system) =
      (newest DockerImage.system system
        (t.rows.filter fun d => d.imageName = name ∧ d.gitRef = gitRef)).toList := by
  have hgroup : ∀ d : DockerImage, d.imageName = name → d.gitRef = gitRef →
      (t.rows.filter fun e => e.imageName = d.imageName ∧ e.gitRef = d.gitRef ∧
        e.system = d.system) =
      (t.rows.filter fun e => e.imageName = name ∧ e.gitRef = gitRef).filter fun e =>
        e.system = d.system := by
    rintro d rfl rfl
    rw [List.filter_filter]
    refine List.filter_congr fun e _ => ?_
    rw [← Bool.decide_and, decide_eq_decide]
    tauto
  have hquery : (t.rows.filter fun d => d.imageName = name ∧ d.gitRef = gitRef ∧
      some d.id = ((t.rows.filter fun e => e.imageName = d.imageName ∧ e.gitRef = d.gitRef ∧
        e.system = d.system).map DockerImage.id).max?) =
      perGroup DockerImage.id DockerImage.system
        (t.rows.filter fun d => d.imageName = name ∧ d.gitRef = gitRef) := by
    rw [perGroup, List.filter_filter]
    refine List.filter_congr fun d _ => ?_
    rw [← Bool.decide_and, decide_eq_decide]
    constructor
    · rintro ⟨hname, href, hmax⟩
      exact ⟨hgroup d hname href ▸ hmax, hname, href⟩
    · rintro ⟨hmax, hname, href⟩
      exact ⟨hname, href, (hgroup d hname href).symm ▸ hmax⟩
  refine eq_toList_of_perm ?_
  rw [← filter_perGroup (t.increasing.filter _), ← hquery]
  exact (List.perm_insertionSort _ _).filter _

theorem toList_eq_iff {α : Type} {o o' : Option α} : o.toList = o'.toList ↔ o = o' := by
  constructor
  · intro h
    simpa using congrArg List.head? h
  · rintro rfl
    rfl

/-- The ref of a tag always starts with `refs/heads/`. -/
theorem tagRef_eq_some {w : World} {name tag gitRef : String}
    (h : w.tagRef name tag = some gitRef) : ∃ branch, gitRef = "refs/heads/" ++ branch := by
  unfold World.tagRef at h
  split at h
  · unfold World.resolveDefaultBranch at h
    simp only at h
    split at h
    · obtain ⟨branch, -, rfl⟩ := Option.map_eq_some_iff.mp h
      exact ⟨branch, rfl⟩
    · exact absurd h (by simp)
  · exact ⟨tag, (Option.some.inj h).symm⟩

section

variable {hist : History} {w : World} {name branch tag : String}

/-- A tag that stands for a ref. -/
theorem Inv.branch_tag (h : Inv hist w) {gitRef : String} (hsha : stripPrefix "sha-" tag = none)
    (href : w.tagRef name tag = some gitRef) (system : String) :
    ((w.served name tag).filter fun d => d.system = system) =
      (newest DockerImage.system system (hist.of name gitRef)).toList := by
  obtain ⟨b, rfl⟩ := tagRef_eq_some href
  have hserved : w.served name tag =
      w.images.latestPerSystemForBranch name ("refs/heads/" ++ b) := by
    simp only [World.served, World.resolveTag, hsha, href]
  rw [hserved, filter_latestPerSystemForBranch, h.of_eq]

/-- What was published for two branches is different. -/
theorem Inv.of_disjoint (h : Inv hist w) {branch' : String} (hne : branch' ≠ branch) :
    ∀ d ∈ hist.of name branch', d ∉ hist.of name branch := by
  intro d hd' hd
  obtain ⟨hmem', hp'⟩ := List.mem_filter.mp hd'
  obtain ⟨hmem, hp⟩ := List.mem_filter.mp hd
  have hbranch' := h.gitRef_of_push hmem' (of_decide_eq_true hp').2
  have hbranch := h.gitRef_of_push hmem (of_decide_eq_true hp).2
  exact hne (hbranch'.symm.trans hbranch)

/-- The tag of a commit. -/
theorem Inv.commit_tag (h : Inv hist w) {short : String}
    (hsha : stripPrefix "sha-" tag = some short) :
    (∀ system, ((w.served name tag).filter fun d => d.system = system) =
      (newest DockerImage.system system (hist.of name branch)).toList) ↔
    ∀ d ∈ hist.published, d.imageName = name →
      (likePlain (short.toList ++ ['%']) d.sha.asStr.toList = true ↔
        newest DockerImage.system d.system (hist.of name branch) = some d) := by
  have hserved : w.served name tag = w.images.rowsByShaPrefix name short := by
    simp only [World.served, World.resolveTag, hsha]
  have hmem : ∀ d, d ∈ w.served name tag ↔ d ∈ hist.published ∧ d.imageName = name ∧
      likePlain (short.toList ++ ['%']) d.sha.asStr.toList = true := by
    intro d
    rw [hserved, ImageTable.rowsByShaPrefix, List.mem_insertionSort, List.mem_filter, h.rows,
      decide_eq_true_eq]
  constructor
  · intro hall d hd hname
    have hd' : d ∈ (w.served name tag).filter (fun e => e.system = d.system) ↔
        newest DockerImage.system d.system (hist.of name branch) = some d := by
      rw [hall, Option.mem_toList]
    rw [← hd', List.mem_filter, hmem]
    simp [hd, hname]
  · intro hall system
    refine eq_toList_of_perm ((List.perm_ext_iff_of_nodup ?_ ?_).mpr ?_)
    · have hnodup : w.images.rows.Nodup :=
        w.images.increasing.imp fun hlt heq => absurd hlt (by simp [heq])
      rw [hserved]
      exact ((List.perm_insertionSort _ _).nodup_iff.mpr (hnodup.filter _)).filter _
    · cases newest DockerImage.system system (hist.of name branch) <;> simp
    · intro d
      rw [List.mem_filter, hmem, Option.mem_toList, decide_eq_true_eq]
      constructor
      · rintro ⟨⟨hd, hname, hlike⟩, rfl⟩
        exact (hall d hd hname).mp hlike
      · intro hnewest
        obtain ⟨hd, rfl⟩ := newest_mem hnewest
        obtain ⟨hpub, hp⟩ := List.mem_filter.mp hd
        have hname := (of_decide_eq_true hp).1
        exact ⟨⟨hpub, hname, (hall d hpub hname).mpr hnewest⟩, rfl⟩

/-- **When a tag is right.** -/
theorem Inv.tag_iff (h : Inv hist w) :
    (∀ system, ((w.served name tag).filter fun d => d.system = system) =
      (newest DockerImage.system system (hist.of name branch)).toList) ↔
    Harmless w hist name branch tag := by
  unfold Harmless
  cases hsha : stripPrefix "sha-" tag with
  | some short => exact h.commit_tag hsha
  | none =>
    cases href : w.tagRef name tag with
    | some gitRef =>
      simp only [h.branch_tag hsha href, toList_eq_iff]
      by_cases heq : gitRef = branch
      · simp [heq]
      · rw [newest_eq_iff_of_disjoint (h.of_disjoint heq)]
        simp only [heq, false_or]
        exact and_comm
    | none =>
      have hserved : w.served name tag = [] := by
        simp only [World.served, World.resolveTag, hsha, href]
      simp only [hserved, List.filter_nil]
      constructor
      · intro hall
        refine List.eq_nil_iff_forall_not_mem.mpr ?_
        intro d hd
        have hnone := Option.toList_eq_nil_iff.mp (hall d.system).symm
        exact newest_eq_none.mp hnone d hd rfl
      · intro hnil system
        rw [hnil]
        rfl

end

/-- **The tags of a branch follow publication if and only if there is nothing to find**, in every
    run (or, for the tag of a commit, if the commits that fit are the ones to find). -/
theorem follows_iff {window : ℕ} {hist : History} {w : World} (h : Reaches window hist w)
    (name branch : String) :
    Follows w hist name branch ↔
      ∀ tag, TagOf w name branch tag → Harmless w hist name branch tag := by
  constructor
  · intro hfollows tag htag
    exact (Inv.reaches h).tag_iff.mp (hfollows tag htag)
  · intro hall tag htag
    exact (Inv.reaches h).tag_iff.mpr (hall tag htag)

/-- **Nothing that was published under a branch is found under its tag.** -/
theorem not_follows_of_published {window : ℕ} {hist : History} {w : World}
    (h : Reaches window hist w) {name branch : String} (hplain : stripPrefix "sha-" branch = none)
    (hpublished : hist.of name branch ≠ []) : ¬ Follows w hist name branch := by
  intro hfollows
  have hharmless := (Inv.reaches h).tag_iff.mp (hfollows branch (Or.inl rfl))
  simp only [Harmless, hplain] at hharmless
  cases href : w.tagRef name branch with
  | none =>
    rw [href] at hharmless
    exact hpublished hharmless
  | some gitRef =>
    rw [href] at hharmless
    rcases hharmless with rfl | ⟨hnone, -⟩
    · -- the ref of a tag is longer than the tag, and `latest` is no ref
      obtain ⟨b, hb⟩ := tagRef_eq_some href
      by_cases hlatest : gitRef = "latest"
      · rw [hlatest] at hb
        exact absurd (congrArg String.toList hb) (by simp [String.toList_append])
      · rw [World.tagRef, if_neg hlatest] at href
        have hlen := congrArg String.length (Option.some.inj href)
        rw [String.length_append] at hlen
        exact absurd hlen (by simp)
    · exact hpublished hnone

/-! ## A push and its image -/

/-- A push to the default branch. -/
def pushToMain : Received where
  repo := gitlabRepo
  provider := gitlabProvider
  slug := orgApp
  event := .push
    { slug := orgApp
      gitRef := "refs/heads/main"
      sha := ⟨"3333333333333333333333333333333333333333"⟩
      pusher := none
      repo := ⟨none, none, none, some "main"⟩ }

/-- The image Job of its evaluation, built. -/
def helloBuilt : World.Built where
  repoId := ⟨1⟩
  evalId := ⟨1⟩
  jobId := ⟨1⟩
  spec :=
    { attrPath := "packages.x86_64-linux.hello"
      drvPath := some "/nix/store/hello.drv"
      system := some "x86_64-linux"
      error := none
      isCached := false
      requiredSystemFeatures := []
      imageFormat := some .docker }
  outputPath := some "/nix/store/hello.tar.gz"
  converted := some ("sha256:abc", "/var/lib/argunix/registry/manifest.json")
  now := 1

def mainPushed : Option Outcome × World := (World.fresh 300).handle 0 pushToMain true true

def helloPublished : Option DockerImage × World := mainPushed.2.tryPublishDockerImage helloBuilt

def helloHistory : History :=
  ((⟨[], []⟩ : History).pushed mainPushed.1 pushToMain.event).recorded helloPublished.1

theorem hello_reaches : Reaches 300 helloHistory helloPublished.2 :=
  .publish helloBuilt (.handle 0 pushToMain true true .start)

/-- The tag of a branch that has no image. -/
theorem follows_unpublished : Reaches 300 helloHistory helloPublished.2 ∧
    Follows helloPublished.2 helloHistory "gitlab/org/app/hello" "dev" := by
  refine ⟨hello_reaches, (follows_iff hello_reaches _ _).mpr ?_⟩
  have hdefault : ∀ repo ∈ helloPublished.2.repos, repo.defaultBranch ≠ some "dev" := by
    decide
  rintro tag (rfl | ⟨-, repo, hrepo, leaf, -, hdev⟩)
  · have hsha : stripPrefix "sha-" "dev" = none := by decide
    have href : helloPublished.2.tagRef "gitlab/org/app/hello" "dev" = some "refs/heads/dev" := by
      decide
    simp only [Harmless, hsha, href]
    exact Or.inr (by decide)
  · exact absurd hdev (hdefault repo hrepo)

/-- **What was pushed to `main` and published is not found under `main`.** -/
theorem not_follows : ¬ ∀ (window : ℕ) (hist : History) (w : World) (name branch : String),
    Reaches window hist w → Follows w hist name branch := by
  intro hall
  have hmain := hall _ _ _ "gitlab/org/app/hello" "main" hello_reaches "main" (Or.inl rfl)
    "x86_64-linux"
  revert hmain
  decide +kernel

end Argunix.Registry
