import Argunix.Lib.Segments
import Argunix.Daemon.Settled
import Argunix.Web.FlakeText

/-!
# `argunix-web`: serving the synthetic flake

`GET /flake/<forge>/<slug>/eval/<id>` names one evaluation, and its answer is marked `immutable`:
Nix may keep it for a year. The marking is decided by the form of the URL. The body is decided by
the Job rows of the evaluation at the time of the request, and these change until the last build of
the evaluation has ended.

The history here is the daemon's (`Daemon.World`: the worker, its build phases, boot recovery and
crashes), with requests in between. A log keeps every answer that was given. **`immutable_of_run`**:
if an evaluation is asked for only when each of its Job rows has a verdict, and no Job row is
inserted for an evaluation that has been asked for, then all answers to one URL are the same. The
code does not see to either.

The columns that only an `INSERT` writes are not part of the state: ids are not used twice, so
`Columns` is a function of the id.
-/

set_option autoImplicit false

namespace Argunix.Web.Flake

open Argunix.Lib Argunix.Store Argunix.Forge Argunix.Registry Argunix.Daemon

/-! ## The URL -/

/-- Which evaluation of a repository is asked for. -/
inductive Selector
  | evalId (id : EvalId)
  | latestOnRef (branch : String)
  | latestDefault
deriving DecidableEq, Repr

/-- What a URL asks for. -/
structure ParsedTail where
  slug : String
  selector : Selector
deriving DecidableEq, Repr

/-- `str::trim_end_matches` -/
def trimEndMatches (c : Char) (s : List Char) : List Char := (s.reverse.dropWhile (· = c)).reverse

/-- The value of a string of digits. -/
def digits (cs : List Char) : Option ℕ :=
  if cs ≠ [] ∧ cs.all Char.isDigit then
    some (cs.foldl (fun n c => 10 * n + (c.toNat - '0'.toNat)) 0)
  else none

/-- `i64::from_str` -/
def parseI64 (cs : List Char) : Option ℤ :=
  match cs with
  | '-' :: ds => (digits ds).bind fun n => if n ≤ 2 ^ 63 then some (-(n : ℤ)) else none
  | '+' :: ds => (digits ds).bind fun n => if n < 2 ^ 63 then some (n : ℤ) else none
  | ds => (digits ds).bind fun n => if n < 2 ^ 63 then some (n : ℤ) else none

/-- `parse_tail`: the last marker in the path counts. -/
def parseTail (tail : String) : Option ParsedTail :=
  let tail := trimEndMatches '/' tail.toList
  if tail = [] then none
  else
    match rfind "/eval/".toList tail with
    | some marker =>
      let slug := tail.take marker
      let idStr := tail.drop (marker + "/eval/".toList.length)
      if slug = [] ∨ idStr = [] ∨ '/' ∈ idStr then none
      else (parseI64 idStr).map fun id => ⟨String.ofList slug, .evalId ⟨id⟩⟩
    | none =>
      match rfind "/ref/".toList tail with
      | some marker =>
        let slug := tail.take marker
        let branch := tail.drop (marker + "/ref/".toList.length)
        if slug = [] ∨ branch = [] then none
        else some ⟨String.ofList slug, .latestOnRef (String.ofList branch)⟩
      | none => some ⟨String.ofList tail, .latestDefault⟩

/-- `normalize_branch_to_git_ref` -/
def normalizeBranchToGitRef (branch : String) : String :=
  (stripPrefix "refs/heads/" branch).getD branch

/-- The evaluation that an `/eval/<id>` URL names. -/
def evalOf (tail : String) : Option EvalId :=
  match parseTail tail with
  | some ⟨_, .evalId e⟩ => some e
  | _ => none

/-! ## The answer -/

/-- A cache of the configuration, as far as it is public. -/
structure BinaryCache where
  publicUrl : Option String
  publicKey : Option String

/-- `usable_public_caches`: those with a URL and a key. -/
def usablePublicCaches (all : List BinaryCache) : List UsableCache :=
  all.filterMap fun c =>
    match c.publicUrl, c.publicKey with
    | some url, some key => some ⟨url, key⟩
    | _, _ => none

/-- The columns that no `UPDATE` names. -/
structure Columns where
  sha : EvalId → Sha
  gitRef : EvalId → String
  mainProgram : EvalId → JobId → Option String
  outputs : EvalId → JobId → HashMap String String

/-- The configuration, and the archiver. -/
structure Site (Body : Type) where
  binaryCaches : List BinaryCache
  columns : Columns
  /-- `tar_single_file` -/
  tarSingleFile : String → String → Body

/-- Why there is no flake. -/
inductive SyntheticFlakeError
  | notFound
  | noPublicCache
  | emptyEval
deriving DecidableEq, Repr

/-- A 200. -/
structure Response (Body : Type) where
  body : Body
  cacheControl : String

/-- `Sha::short` -/
def short (sha : Sha) : String := String.ofList (sha.asStr.toList.take 7)

namespace Site

variable {Body : Type} (site : Site Body)

/-- `WHERE repo_id = ?1 AND git_ref = ?2 AND status = 'done' ORDER BY id DESC LIMIT 1` -/
def latestDoneForRef (w : Daemon.World) (repoId : RepoId) (gitRef : String) : Option EvalId :=
  (((w.evals.entries.filter fun x => x.2.repoId = repoId ∧ site.columns.gitRef x.1 = gitRef ∧
    x.2.status = .done).map fun x => x.1.get).max?).map EvalId.mk

/-- The evaluation, and whether a later request may find another one. -/
def resolve (w : Daemon.World) (repo : RepoRecord) : Selector → Option (EvalId × Bool)
  | .evalId id =>
    match w.evals.lookup id with
    | some row => if row.repoId = repo.id then some (id, false) else none
    | none => none
  | .latestOnRef branch =>
    (site.latestDoneForRef w repo.id (normalizeBranchToGitRef branch)).map (·, true)
  | .latestDefault =>
    repo.defaultBranch.bind fun branch =>
      (site.latestDoneForRef w repo.id (normalizeBranchToGitRef branch)).map (·, true)

/-- `list_by_eval`, with the columns that the endpoint reads. -/
def jobRecords (e : EvalId) (row : EvalRow) : List JobRecord :=
  row.listByEval.map fun (jobId, job) =>
    { attrPath := job.attrPath
      system := job.system
      status := job.status
      mainProgram := site.columns.mainProgram e jobId
      outputs := site.columns.outputs e jobId }

/-- The packages of an evaluation, as its rows are now. -/
def entries (e : EvalId) (row : EvalRow) : List FlakeEntry :=
  (site.jobRecords e row).filterMap FlakeEntry.fromJob

/-- The archive for the rows of an evaluation. -/
def bodyOf (forge : String) (slug : Slug) (e : EvalId) (row : EvalRow) : Body :=
  site.tarSingleFile "flake.nix" (renderFlakeNix
    ("argunix cached: " ++ forge ++ "/" ++ slug.asStr ++ " @ " ++ short (site.columns.sha e))
    (usablePublicCaches site.binaryCaches) (site.entries e row))

/-- How long a client may keep the answer. -/
def cacheControl (isMutable : Bool) : String :=
  if isMutable then "public, max-age=60" else "public, max-age=31536000, immutable"

/-- `GET /flake/<forge>/<tail>` -/
def serve (repos : RepoTable) (w : Daemon.World) (forge tail : String) :
    Except SyntheticFlakeError (Response Body) :=
  match parseTail tail with
  | none => .error .notFound
  | some parsed =>
    match Slug.new parsed.slug with
    | .error _ => .error .notFound
    | .ok slug =>
      if (usablePublicCaches site.binaryCaches).isEmpty then .error .noPublicCache
      else
        match repos.find forge slug with
        | none => .error .notFound
        | some repo =>
          match site.resolve w repo parsed.selector with
          | none => .error .notFound
          | some (e, isMutable) =>
            match w.evals.lookup e with
            | none => .error .notFound
            | some row =>
              if (site.entries e row).isEmpty then .error .emptyEval
              else .ok ⟨site.bodyOf forge slug e row, cacheControl isMutable⟩

end Site

/-! ## A history with requests -/

section

variable {Body : Type}

/-- A 200 with what was asked. -/
structure Answer (Body : Type) where
  forge : String
  tail : String
  response : Response Body

/-- `Cache-Control` is that of the immutable form. -/
def Answer.IsImmutable (a : Answer Body) : Prop :=
  a.response.cacheControl = Site.cacheControl false

/-- The daemon, the repositories, and what was answered so far. -/
structure Served (Body : Type) where
  world : Daemon.World
  repos : RepoTable
  /-- Every 200, in the order in which they were given. -/
  answers : List (Answer Body)

/-- No daemon, the given database, and nothing asked for. -/
def Served.start (evals : HashMap EvalId EvalRow) (repos : RepoTable) : Served Body :=
  ⟨World.down evals, repos, []⟩

/-- What happens while the daemon serves. -/
inductive Event
  | daemon (a : Action)
  | repos
  | get (forge tail : String)

/-- One event. Webhooks and the configuration may change the table of repositories in any way. The
    statements of a request that come before `list_by_eval` read nothing that the answer depends on
    and that changes, so a request is one event. -/
inductive Serves (site : Site Body) (s : Served Body) : Event → Served Body → Prop
  | daemon {a : Action} {w' : Daemon.World} : Does s.world a w' →
      Serves site s (.daemon a) { s with world := w' }
  | repos (repos' : RepoTable) : Serves site s .repos { s with repos := repos' }
  | answered {forge tail : String} {r : Response Body} : s.world.main = .serving →
      site.serve s.repos s.world forge tail = .ok r →
      Serves site s (.get forge tail) { s with answers := s.answers ++ [⟨forge, tail, r⟩] }
  | refused {forge tail : String} {err : SyntheticFlakeError} : s.world.main = .serving →
      site.serve s.repos s.world forge tail = .error err → Serves site s (.get forge tail) s

/-- A history whose every event satisfies `ok` in the state before it. -/
inductive History (site : Site Body) (ok : Served Body → Event → Prop) (s₀ : Served Body) :
    Served Body → Prop
  | refl : History site ok s₀ s₀
  | step {s s' : Served Body} {ev : Event} : History site ok s₀ s → ok s ev → Serves site s ev s' →
      History site ok s₀ s'

/-- **Answers that are marked immutable do not change.** -/
def Served.Immutable (s : Served Body) : Prop :=
  ∀ a ∈ s.answers, ∀ b ∈ s.answers, a.forge = b.forge → a.tail = b.tail → a.IsImmutable →
    b.IsImmutable → a.response.body = b.response.body

/-! ## When they do not -/

/-- The evaluation has been asked for. -/
def Served.Asked (s : Served Body) (e : EvalId) : Prop := ∃ a ∈ s.answers, evalOf a.tail = some e

/-- An evaluation is asked for only when all its Jobs have a verdict, and it gets no more Jobs when
    it has been asked for. -/
def Calm (s : Served Body) : Event → Prop
  | .daemon (.createRow _) => ∀ e, s.world.worker.evalId = some e → ¬ s.Asked e
  | .get _ tail => ∀ e row, evalOf tail = some e → s.world.evals.lookup e = some row → row.Settled
  | _ => True

variable {site : Site Body} {s s' : Served Body}

/-- The body depends on the verdicts only. -/
theorem bodyOf_congr {e : EvalId} {row row' : EvalRow} (h : row'.verdicts = row.verdicts)
    (forge : String) (slug : Slug) :
    site.bodyOf forge slug e row' = site.bodyOf forge slug e row := by
  have hrecords : ∀ row : EvalRow, site.jobRecords e row = row.verdicts.map fun x =>
      ⟨x.2.1, x.2.2.1, x.2.2.2, site.columns.mainProgram e x.1, site.columns.outputs e x.1⟩ := by
    intro row
    rw [EvalRow.verdicts, List.map_map]
    rfl
  rw [Site.bodyOf, Site.bodyOf, Site.entries, Site.entries, hrecords, hrecords, h]

theorem serve_eq_ok {repos : RepoTable} {w : Daemon.World} {forge tail : String}
    {r : Response Body} (h : site.serve repos w forge tail = .ok r) :
    ∃ parsed slug repo e isMutable row, parseTail tail = some parsed ∧
      Slug.new parsed.slug = .ok slug ∧ site.resolve w repo parsed.selector = some (e, isMutable) ∧
      w.evals.lookup e = some row ∧
      r = ⟨site.bodyOf forge slug e row, Site.cacheControl isMutable⟩ := by
  unfold Site.serve at h
  split at h
  · exact absurd h (by simp)
  · rename_i parsed hparsed
    split at h
    · exact absurd h (by simp)
    · rename_i slug hslug
      split at h
      · exact absurd h (by simp)
      · split at h
        · exact absurd h (by simp)
        · rename_i repo hrepo
          split at h
          · exact absurd h (by simp)
          · rename_i e isMutable hresolve
            split at h
            · exact absurd h (by simp)
            · rename_i row hl
              split at h
              · exact absurd h (by simp)
              · exact ⟨parsed, slug, repo, e, isMutable, row, hparsed, hslug, hresolve, hl,
                  (Except.ok.inj h).symm⟩

theorem cacheControl_eq_false {isMutable : Bool}
    (h : Site.cacheControl isMutable = Site.cacheControl false) : isMutable = false := by
  cases isMutable with
  | false => rfl
  | true => exact absurd h (by decide)

/-- The form of the URL decides. -/
theorem resolve_eq_false {w : Daemon.World} {repo : RepoRecord} {selector : Selector} {e : EvalId}
    (h : site.resolve w repo selector = some (e, false)) : selector = .evalId e := by
  cases selector with
  | evalId id =>
    simp only [Site.resolve] at h
    split at h
    · split at h
      · obtain ⟨rfl, -⟩ := Prod.mk.inj (Option.some.inj h)
        rfl
      · exact absurd h (by simp)
    · exact absurd h (by simp)
  | latestOnRef branch =>
    obtain ⟨id, -, hid⟩ := Option.map_eq_some_iff.mp h
    exact absurd (Prod.mk.inj hid).2 (by simp)
  | latestDefault =>
    obtain ⟨branch, -, hbranch⟩ := Option.bind_eq_some_iff.mp h
    obtain ⟨id, -, hid⟩ := Option.map_eq_some_iff.mp hbranch
    exact absurd (Prod.mk.inj hid).2 (by simp)

/-- What was answered is what would be answered now, and the Jobs have their verdicts. -/
def Current (site : Site Body) (w : Daemon.World) (a : Answer Body) : Prop :=
  ∃ slugStr slug e row, parseTail a.tail = some ⟨slugStr, .evalId e⟩ ∧
    Slug.new slugStr = .ok slug ∧ w.evals.lookup e = some row ∧ row.Settled ∧
    a.response.body = site.bodyOf a.forge slug e row

theorem evalOf_eq_some {tail slugStr : String} {e : EvalId}
    (h : parseTail tail = some ⟨slugStr, .evalId e⟩) : evalOf tail = some e := by
  rw [evalOf, h]

/-- A new answer. -/
theorem Current.of_serve {forge tail : String} {r : Response Body}
    (h : site.serve s.repos s.world forge tail = .ok r) (hok : Calm s (.get forge tail))
    (hi : (⟨forge, tail, r⟩ : Answer Body).IsImmutable) :
    Current site s.world ⟨forge, tail, r⟩ := by
  obtain ⟨⟨slugStr, selector⟩, slug, repo, e, isMutable, row, hparsed, hslug, hresolve, hl, rfl⟩ :=
    serve_eq_ok h
  obtain rfl := cacheControl_eq_false hi
  obtain rfl := resolve_eq_false hresolve
  exact ⟨slugStr, slug, e, row, hparsed, hslug, hl, hok e row (evalOf_eq_some hparsed) hl, rfl⟩

/-- An old one, after an action of the daemon. -/
theorem Current.daemon {a : Answer Body} {act : Action} {w' : Daemon.World}
    (h : Current site s.world a) (ha : a ∈ s.answers) (hok : Calm s (.daemon act))
    (hdoes : Does s.world act w') : Current site w' a := by
  obtain ⟨slugStr, slug, e, row, hparsed, hslug, hl, hsettled, hbody⟩ := h
  have hinsert : ∀ j, act = .createRow j → s.world.worker.evalId ≠ some e := by
    rintro j rfl hworker
    exact hok e hworker ⟨a, ha, evalOf_eq_some hparsed⟩
  obtain ⟨row', hl', hv⟩ := hdoes.acts.shows hl hsettled hinsert
  refine ⟨slugStr, slug, e, row', hparsed, hslug, hl', ?_, ?_⟩
  · unfold EvalRow.Settled
    rwa [hv]
  · rw [hbody, bodyOf_congr hv]

/-- What one event keeps. -/
theorem Serves.current {ev : Event} (h : Serves site s ev s') (hok : Calm s ev)
    (hs : ∀ a ∈ s.answers, a.IsImmutable → Current site s.world a) :
    ∀ a ∈ s'.answers, a.IsImmutable → Current site s'.world a := by
  intro a ha hi
  cases h with
  | daemon hdoes => exact (hs a ha hi).daemon ha hok hdoes
  | repos => exact hs a ha hi
  | answered _ hserve =>
    rcases List.mem_append.mp ha with ha | ha
    · exact hs a ha hi
    · obtain rfl := List.mem_singleton.mp ha
      exact .of_serve hserve hok hi
  | refused => exact hs a ha hi

/-- And what a history keeps. -/
theorem History.current {s₀ : Served Body} (h : History site Calm s₀ s) (hnone : s₀.answers = []) :
    ∀ a ∈ s.answers, a.IsImmutable → Current site s.world a := by
  induction h with
  | refl =>
    intro a ha
    exact absurd (hnone ▸ ha) (by simp)
  | step _ hok hstep ih => exact hstep.current hok ih

/-- **In a history in which an evaluation is asked for only when its Jobs have their verdicts, and
    gets no more Jobs after that, the immutable answers to one URL are the same.** -/
theorem immutable_of_run {evals : HashMap EvalId EvalRow} {repos : RepoTable}
    (h : History site Calm (.start evals repos) s) : s.Immutable := by
  intro a ha b hb hforge htail hia hib
  obtain ⟨slugStr, slug, e, row, hparsed, hslug, hl, -, hbody⟩ := h.current rfl a ha hia
  obtain ⟨slugStr', slug', e', row', hparsed', hslug', hl', -, hbody'⟩ := h.current rfl b hb hib
  rw [← htail, hparsed, Option.some.injEq, ParsedTail.mk.injEq, Selector.evalId.injEq] at hparsed'
  obtain ⟨rfl, rfl⟩ := hparsed'
  rw [hslug, Except.ok.injEq] at hslug'
  rw [hl, Option.some.injEq] at hl'
  rw [hbody, hbody', hforge, hslug', hl']

/-! ## Concrete histories -/

theorem History.trans {ok : Served Body → Event → Prop} {s₀ s₁ s₂ : Served Body}
    (h : History site ok s₀ s₁) (h' : History site ok s₁ s₂) : History site ok s₀ s₂ := by
  induction h' with
  | refl => exact h
  | step _ hok hstep ih => exact .step ih hok hstep

theorem History.of_script {ok : Served Body → Event → Prop} :
    ∀ {as : List Action} {s : Served Body} {w : Daemon.World},
      (∀ s : Served Body, ∀ a ∈ as, ok s (.daemon a)) → s.world.script AnyStep as = some w →
      History site ok s { s with world := w }
  | [], s, w, _, h => by
    obtain rfl := Option.some.inj h
    exact .refl
  | a :: as, s, w, hok, h => by
    simp only [World.script, if_pos (show AnyStep s.world a from trivial)] at h
    obtain ⟨w₁, hex, hrest⟩ := Option.bind_eq_some_iff.mp h
    have hfirst : History site ok s { s with world := w₁ } :=
      .step .refl (hok s a List.mem_cons_self) (.daemon (World.exec_does hex))
    exact hfirst.trans
      (History.of_script (fun s b hb => hok s b (List.mem_cons_of_mem a hb)) hrest)

end

/-- One cache, and a package for each Job. -/
def exampleSite : Site (String × String) where
  binaryCaches := [⟨some "https://cache.example.com", some "argunix-1:abc"⟩]
  columns :=
    { sha := fun _ => ⟨"0123456789abcdef0123456789abcdef01234567"⟩
      gitRef := fun _ => "main"
      mainProgram := fun _ _ => none
      outputs := fun _ jobId => AList.insert "out"
        (if jobId = ⟨1⟩ then "/nix/store/zzz-a" else "/nix/store/zzz-b") ∅ }
  tarSingleFile := Prod.mk

/-- One repository. -/
def exampleRepos : RepoTable := [⟨⟨1⟩, "gh", ⟨"o/r", by rfl⟩, some "main"⟩]

/-- A Job without inputs. -/
def exampleJob (attrPath : String) : Eval.JobSpec :=
  ⟨attrPath, some attrPath, some "x86_64-linux", none, false, [], none, []⟩

/-- Evaluation 1 has been done before the daemon starts. -/
def doneAtBoot : HashMap EvalId EvalRow :=
  AList.insert ⟨1⟩
    { repoId := ⟨1⟩
      status := .done
      jobs := AList.insert ⟨1⟩
        ⟨"packages.x86_64-linux.a", none, "x86_64-linux", .success, none⟩ ∅ } ∅

/-- The entries of evaluation 1, while the daemon listens. -/
def entriesNow (w : Daemon.World) : Option (Bool × List FlakeEntry) :=
  if w.main = .serving then
    (w.evals.lookup ⟨1⟩).bind fun row =>
      if row.repoId = ⟨1⟩ then some (decide row.Settled, exampleSite.entries ⟨1⟩ row) else none
  else none

/-- The package of the first Job. -/
def packageA : FlakeEntry :=
  ⟨"x86_64-linux", "a", "/nix/store/zzz-a", "/nix/store/zzz-a", none⟩

/-- The package of the second Job. -/
def packageB : FlakeEntry :=
  ⟨"x86_64-linux", "b", "/nix/store/zzz-b", "/nix/store/zzz-b", none⟩

/-- What the URL of evaluation 1 is answered with. -/
def exampleAnswer (entries : List FlakeEntry) : Answer (String × String) where
  forge := "gh"
  tail := "o/r/eval/1"
  response := ⟨("flake.nix", renderFlakeNix ("argunix cached: " ++ "gh" ++ "/" ++ "o/r" ++ " @ " ++
    short ⟨"0123456789abcdef0123456789abcdef01234567"⟩)
    [⟨"https://cache.example.com", "argunix-1:abc"⟩] entries), Site.cacheControl false⟩

theorem parseTail_example : parseTail "o/r/eval/1" = some ⟨"o/r", .evalId ⟨1⟩⟩ := by
  rfl

theorem entriesNow_eq_some {w : Daemon.World} {settled : Bool} {entries : List FlakeEntry}
    (h : entriesNow w = some (settled, entries)) : w.main = .serving ∧
      ∃ row, w.evals.lookup ⟨1⟩ = some row ∧ row.repoId = ⟨1⟩ ∧ decide row.Settled = settled ∧
        exampleSite.entries ⟨1⟩ row = entries := by
  unfold entriesNow at h
  split at h
  · rename_i hserving
    obtain ⟨row, hl, hrow⟩ := Option.bind_eq_some_iff.mp h
    split at hrow
    · rename_i hrepo
      obtain ⟨hsettled, hentries⟩ := Prod.mk.inj (Option.some.inj hrow)
      exact ⟨hserving, row, hl, hrepo, hsettled, hentries⟩
    · exact absurd hrow (by simp)
  · exact absurd h (by simp)

theorem serves_example {w : Daemon.World} {settled : Bool} {e : FlakeEntry} {es : List FlakeEntry}
    (h : entriesNow w = some (settled, e :: es)) (answers : List (Answer (String × String))) :
    Serves exampleSite ⟨w, exampleRepos, answers⟩ (.get "gh" "o/r/eval/1")
      ⟨w, exampleRepos, answers ++ [exampleAnswer (e :: es)]⟩ := by
  obtain ⟨hserving, row, hl, hrepo, -, hentries⟩ := entriesNow_eq_some h
  refine .answered hserving ?_
  have hslug : Slug.new "o/r" = .ok ⟨"o/r", by rfl⟩ := Slug.new_eq_ok.mpr rfl
  have hfind : exampleRepos.find "gh" ⟨"o/r", by rfl⟩ =
      some ⟨⟨1⟩, "gh", ⟨"o/r", by rfl⟩, some "main"⟩ := by rfl
  have hcaches : usablePublicCaches exampleSite.binaryCaches =
      [⟨"https://cache.example.com", "argunix-1:abc"⟩] := rfl
  simp only [Site.serve, parseTail_example, hslug, hcaches, List.isEmpty_cons, hfind, Site.resolve,
    hl, hrepo, if_true, hentries, Site.bodyOf]
  rfl

theorem calm_example {w : Daemon.World} {entries : List FlakeEntry}
    (h : entriesNow w = some (true, entries)) (answers : List (Answer (String × String))) :
    Calm ⟨w, exampleRepos, answers⟩ (.get "gh" "o/r/eval/1") := by
  intro e row he hl
  obtain rfl := Option.some.inj ((evalOf_eq_some parseTail_example).symm.trans he)
  obtain ⟨-, row', hl', -, hsettled, -⟩ := entriesNow_eq_some h
  obtain rfl := Option.some.inj (hl'.symm.trans hl)
  exact decide_eq_true_eq.mp hsettled

/-- Served before a crash and after it. -/
theorem doneAtBoot_served : ((World.down doneAtBoot).script AnyStep (bootUp 6)).bind (fun w =>
    (w.script AnyStep (.crash :: bootUp 6)).map fun w' => (entriesNow w, entriesNow w')) =
      some (some (true, [packageA]), some (true, [packageA])) := by
  rfl

theorem immutable_of_run_crash : ∃ s : Served (String × String),
    History exampleSite Calm (.start doneAtBoot exampleRepos) s ∧ s.answers.length = 2 ∧
      s.Immutable := by
  obtain ⟨w, hboot, hw⟩ := Option.bind_eq_some_iff.mp doneAtBoot_served
  obtain ⟨w', hcrash, hentries⟩ := Option.map_eq_some_iff.mp hw
  obtain ⟨hfirst, hsecond⟩ := Prod.mk.inj hentries
  have hcalm : ∀ s : Served (String × String), ∀ a ∈ Action.crash :: bootUp 6,
      Calm s (.daemon a) := by
    intro s a ha
    simp only [bootUp, List.mem_cons, List.mem_replicate] at ha
    rcases ha with rfl | rfl | ⟨-, rfl⟩ <;> trivial
  have hrun : History exampleSite Calm (.start doneAtBoot exampleRepos) ⟨w', exampleRepos,
      [] ++ [exampleAnswer [packageA]] ++ [exampleAnswer [packageA]]⟩ := by
    refine .step ((History.step (.of_script (w := w) ?_ hboot) (calm_example hfirst _)
      (serves_example hfirst _)).trans (.of_script hcalm hcrash)) (calm_example hsecond _)
      (serves_example hsecond _)
    exact fun s a ha => hcalm s a (List.mem_cons_of_mem _ ha)
  exact ⟨_, hrun, rfl, immutable_of_run hrun⟩

/-! ## A build in between -/

/-- Evaluation 1 has two packages, and the first one is built. -/
def firstBuilt : List Action :=
  bootUp 7 ++ [Action.receive, .read, .evaluated [exampleJob "packages.x86_64-linux.a",
    exampleJob "packages.x86_64-linux.b"], .createRow ⟨1⟩, .describe, .conclude,
    .createRow ⟨2⟩, .describe, .conclude, .persisted, .spawn noWalk] ++
    phaseScript (spawnTasks 2 ++ buildAndJoin ⟨0⟩ true)

/-- And then the second one. -/
def secondBuilt : List Action := phaseScript (buildAndJoin ⟨1⟩ true)

theorem built_served : ((World.down queuedAtBoot).script AnyStep firstBuilt).bind (fun w =>
    (w.script AnyStep secondBuilt).map fun w' => (entriesNow w, entriesNow w')) =
      some (some (false, [packageA]), some (true, [packageA, packageB])) := by
  rfl

/-- The packages stand between a head and a tail that do not depend on them. -/
theorem renderFlakeNix_eq (description : String) (caches : List UsableCache) :
    ∃ head tail : String, ∀ entries, renderFlakeNix description caches entries =
      head ++ String.join ((groups entries).map fun g => renderPackages g.1 g.2) ++
        String.join ((groups entries).map fun g => renderApps g.1 g.2) ++ tail :=
  ⟨_, _, fun _ => rfl⟩

/-- The flake has grown. -/
theorem exampleAnswer_ne : (exampleAnswer [packageA]).response.body ≠
    (exampleAnswer [packageA, packageB]).response.body := by
  intro h
  obtain ⟨head, tail, hrender⟩ := renderFlakeNix_eq ("argunix cached: " ++ "gh" ++ "/" ++ "o/r" ++
    " @ " ++ short ⟨"0123456789abcdef0123456789abcdef01234567"⟩)
    [⟨"https://cache.example.com", "argunix-1:abc"⟩]
  have hpackages : (String.join ((groups [packageA]).map fun g => renderPackages g.1 g.2)).length <
      (String.join ((groups [packageA, packageB]).map fun g => renderPackages g.1 g.2)).length := by
    decide +kernel
  have happs : String.join ((groups [packageA]).map fun g => renderApps g.1 g.2) =
      String.join ((groups [packageA, packageB]).map fun g => renderApps g.1 g.2) := by
    decide +kernel
  have htext := (Prod.mk.inj h).2
  rw [hrender, hrender, happs] at htext
  have hlength := congrArg String.length htext
  simp only [String.length_append] at hlength
  omega

theorem not_immutable_building :
    ¬ ∀ (site : Site (String × String)) (evals : HashMap EvalId EvalRow) (repos : RepoTable)
      (s : Served (String × String)), History site (fun _ _ => True) (.start evals repos) s →
        s.Immutable := by
  intro h
  obtain ⟨w, hfirst, hw⟩ := Option.bind_eq_some_iff.mp built_served
  obtain ⟨w', hsecond, hentries⟩ := Option.map_eq_some_iff.mp hw
  obtain ⟨hone, htwo⟩ := Prod.mk.inj hentries
  have hrun : History exampleSite (fun _ _ => True) (.start queuedAtBoot exampleRepos)
      ⟨w', exampleRepos, [] ++ [exampleAnswer [packageA]] ++
        [exampleAnswer [packageA, packageB]]⟩ :=
    .step ((History.step (.of_script (fun _ _ _ => trivial) hfirst) trivial
      (serves_example hone _)).trans (.of_script (fun _ _ _ => trivial) hsecond)) trivial
      (serves_example htwo _)
  exact exampleAnswer_ne (h exampleSite queuedAtBoot exampleRepos _ hrun _ (by simp) _ (by simp) rfl
    rfl rfl rfl)

end Argunix.Web.Flake
