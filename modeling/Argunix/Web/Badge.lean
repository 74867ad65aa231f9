import Mathlib.Data.List.TakeWhile
import Argunix.Registry.Images

/-!
# `argunix-web`: the badge

A README shows the state of a repository as a picture. `handle` finds the repository that the URL
names, reads its fifty newest evaluations, picks one and translates its status into a word. With
no branch in the URL it picks by the default branch, and a row belongs to a branch if the text
behind the last colon of its `git_ref` is the branch's name: a push stores the bare name, a pull
request `refs/pull/<n>/head:<branch>`.

What the reader of the README wants to know is how the newest finished push of the default branch
came out. **`handle_truthful_iff`** says when the badge answers that: the push is among the fifty
newest, no newer row of another origin carries the branch's name, and an evaluation that is done
had no Job go wrong. The last one is needed because `classify` reads the status of the evaluation,
and an evaluation whose Jobs failed is done as well.
-/

set_option autoImplicit false

namespace Argunix.Web

open Argunix.Store Argunix.Forge Argunix.Registry

/-- What a badge can show. -/
inductive BadgeStatus
  | passing
  | failing
  | cancelled
  | pending
  | unknown
deriving DecidableEq, Repr

/-- `classify` -/
def classify : EvalStatus → BadgeStatus
  | .done => .passing
  | .evaluationFailed => .failing
  | .cancelled => .cancelled
  | .queued | .evaluating | .building => .pending

/-! ## Picking an evaluation -/

/-- `git_ref.rsplit_once(':').map_or(git_ref, |(_, b)| b)` -/
def refTail (gitRef : String) : String :=
  String.ofList (gitRef.toList.reverse.takeWhile (· ≠ ':')).reverse

/-- The closure `matches` of `pick_eval`. -/
def matchesBranch (branchFilter : Option String) (e : EvalRecord) : Bool :=
  match branchFilter with
  | none => true
  | some branch => refTail e.gitRef = branch

/-- Terminal, and not cancelled. -/
def settled (status : EvalStatus) : Bool := status.isTerminal && status ≠ .cancelled

/-- `pick_eval`: the first that is settled, or else the first. -/
def pickEval (evals : List EvalRecord) (branchFilter : Option String) : Option EvalRecord :=
  (evals.find? fun e => matchesBranch branchFilter e && settled e.status).or
    (evals.find? (matchesBranch branchFilter))

/-- `select_status` -/
def selectStatus (evals : List EvalRecord) (explicitBranch defaultBranch : Option String) :
    BadgeStatus :=
  let branchFilter := explicitBranch.or defaultBranch
  let chosen := (pickEval evals branchFilter).or
    (if branchFilter.isSome then pickEval evals none else none)
  (chosen.map fun e => classify e.status).getD .unknown

/-! ## The endpoint -/

/-- `… WHERE repo_id = ?1 ORDER BY id DESC LIMIT ?2` -/
def EvalTable.listByRepo (t : EvalTable) (repoId : RepoId) (limit : ℕ) : List EvalRecord :=
  (t.rows.filter fun r => r.repoId = repoId).reverse.take limit

/-- `str::strip_suffix` -/
def stripSuffix (ending text : String) : Option String :=
  if ending.toList.isSuffixOf text.toList then
    some (String.ofList (text.toList.take (text.toList.length - ending.toList.length)))
  else none

/-- `parse_badge_tail` -/
def parseBadgeTail (tail : String) : Option String := do
  let stripped ← stripSuffix ".svg" tail
  if stripped = "" then none else some stripped

/-- `str::rsplit_once` -/
def rsplitOnce (sep : Char) (s : String) : Option (String × String) :=
  match s.toList.reverse.span (· ≠ sep) with
  | (_, []) => none
  | (after, _ :: before) => some (String.ofList before.reverse, String.ofList after.reverse)

/-- The repository of a URL. -/
def resolveRepo (repos : RepoTable) (forge slugStr : String) : Option RepoRecord :=
  match Slug.new slugStr with
  | .ok slug => repos.find forge slug
  | .error _ => none

/-- The repository and the branch that the path in front of `.svg` names: the whole path if it is a
    repository's, else all but its last segment. `none` is a 404. -/
def resolvePath (repos : RepoTable) (forge path : String) : Option (RepoRecord × Option String) :=
  match resolveRepo repos forge path with
  | some repo => some (repo, none)
  | none => do
    let (parentSlug, last) ← rsplitOnce '/' path
    let repo ← resolveRepo repos forge parentSlug
    some (repo, some last)

namespace Badge

/-- The status on the badge of `GET /badge/<forge>/<tail>`; `none` is a 404. -/
def handle (repos : RepoTable) (evals : EvalTable) (forge tail : String) : Option BadgeStatus := do
  let path ← parseBadgeTail tail
  let (repo, explicitBranch) ← resolvePath repos forge path
  some (selectStatus (evals.listByRepo repo.id 50) explicitBranch repo.defaultBranch)

/-! ## What a badge should say -/

/-- A push of the branch. -/
def PushOf (repoId : RepoId) (branch : String) (r : EvalRecord) : Prop :=
  r.repoId = repoId ∧ r.trigger = "push" ∧ r.gitRef = branch

instance (repoId : RepoId) (branch : String) (r : EvalRecord) :
    Decidable (PushOf repoId branch r) :=
  inferInstanceAs (Decidable (_ ∧ _ ∧ _))

/-- The newest push of the branch that has finished and was not cancelled. -/
structure NewestSettled (evals : EvalTable) (repoId : RepoId) (branch : String) (e : EvalRecord) :
    Prop where
  mem : e ∈ evals.rows
  push : PushOf repoId branch e
  settled : settled e.status = true
  newest : ∀ r ∈ evals.rows, PushOf repoId branch r → Web.settled r.status = true →
    r.id.get ≤ e.id.get

/-- Two tables with the same pushes of the branch. Of the other rows, the second has some, and with
    other statuses. -/
structure SamePushes (repoId : RepoId) (branch : String) (evals evals' : EvalTable) : Prop where
  pushes : (evals'.rows.filter fun r => PushOf repoId branch r) =
    evals.rows.filter fun r => PushOf repoId branch r
  others : ∀ r' ∈ evals'.rows, ¬ PushOf repoId branch r' →
    ∃ r ∈ evals.rows, ¬ PushOf repoId branch r ∧ ∃ status, r' = { r with status := status }

/-- **The badge tells the truth about the push `e` of the branch.** Its status is that of `e`,
    whatever pull requests and other branches come to, and it says `passing` only if every Job of
    `e` is a success or was cached. `jobs` are the columns `eval_id` and `status`. -/
structure Truthful (repos : RepoTable) (evals : EvalTable) (jobs : List (EvalId × JobStatus))
    (forge tail : String) (repoId : RepoId) (branch : String) (e : EvalRecord) : Prop where
  own : ∀ evals', SamePushes repoId branch evals evals' →
    handle repos evals' forge tail = some (classify e.status)
  green : handle repos evals forge tail = some .passing →
    ∀ job ∈ jobs, job.1 = e.id → job.2.isSuccess = true

/-! ## When it does -/

/-- The rows of the repository that are newer than `e`. -/
def newer (evals : EvalTable) (repoId : RepoId) (e : EvalRecord) : List EvalRecord :=
  evals.rows.filter fun r => r.repoId = repoId ∧ e.id.get < r.id.get

/-- The row carries the branch's name. No row carries a name with a colon in it, and then the
    badge falls back to all rows. -/
def Carries (branch : String) (r : EvalRecord) : Prop :=
  refTail r.gitRef = branch ∨ ':' ∈ branch.toList

instance (branch : String) (r : EvalRecord) : Decidable (Carries branch r) :=
  inferInstanceAs (Decidable (_ ∨ _))

/-- `e` is in the window, and what is newer and carries the branch's name is a push of it. -/
structure Undisturbed (evals : EvalTable) (repoId : RepoId) (branch : String) (e : EvalRecord) :
    Prop where
  recent : (newer evals repoId e).length < 50
  alone : ∀ r ∈ newer evals repoId e, Carries branch r → PushOf repoId branch r

variable {evals evals' : EvalTable} {repoId : RepoId} {branch : String} {e r : EvalRecord}
  {rows : List EvalRecord}

/-! ### Tails -/

theorem refTail_of_no_colon (h : ':' ∉ branch.toList) : refTail branch = branch := by
  have hall : branch.toList.reverse.takeWhile (· ≠ ':') = branch.toList.reverse := by
    rw [List.takeWhile_eq_self_iff]
    intro c hc
    have hne : c ≠ ':' := fun heq => h (heq ▸ List.mem_reverse.mp hc)
    simpa using hne
  rw [refTail, hall, List.reverse_reverse, String.ofList_toList]

theorem no_colon_refTail (gitRef : String) : ':' ∉ (refTail gitRef).toList := by
  intro h
  rw [refTail, String.toList_ofList, List.mem_reverse] at h
  simpa using List.mem_takeWhile_imp h

/-- A push carries its branch. -/
theorem carries_of_push (h : PushOf repoId branch r) : Carries branch r := by
  by_cases hcolon : ':' ∈ branch.toList
  · exact .inr hcolon
  · left
    rw [h.2.2]
    exact refTail_of_no_colon hcolon

/-! ### The choice -/

/-- What the first pass of `pick_eval` looks for. -/
def Candidate (branch : String) (r : EvalRecord) : Prop :=
  Carries branch r ∧ settled r.status = true

instance (branch : String) (r : EvalRecord) : Decidable (Candidate branch r) :=
  inferInstanceAs (Decidable (_ ∧ _))

/-- **The choice is the first candidate**, if there is one. -/
theorem selectStatus_of_candidate {older : List EvalRecord} (hr : Candidate branch r)
    (hfirst : ∀ x ∈ rows, ¬ Candidate branch x) :
    selectStatus (rows ++ r :: older) none (some branch) = classify r.status := by
  by_cases hcolon : ':' ∈ branch.toList
  · -- no tail is the branch: the second call, with no filter
    have hnone : pickEval (rows ++ r :: older) (some branch) = none := by
      have hmiss : ∀ x, matchesBranch (some branch) x = false := by
        intro x
        refine decide_eq_false fun heq => ?_
        exact no_colon_refTail x.gitRef (heq ▸ hcolon)
      simp [pickEval, hmiss]
    have hany : pickEval (rows ++ r :: older) none = some r := by
      have hfind : (rows ++ r :: older).find?
          (fun x => matchesBranch none x && settled x.status) = some r := by
        refine List.find?_eq_some_iff_append.mpr ⟨by simpa [matchesBranch] using hr.2, rows, older,
          rfl, ?_⟩
        intro x hx
        have hx := fun hs => hfirst x hx ⟨.inr hcolon, hs⟩
        simpa [matchesBranch] using hx
      rw [pickEval, hfind, Option.some_or]
    simp [selectStatus, hnone, hany]
  · have hfind : (rows ++ r :: older).find?
        (fun x => matchesBranch (some branch) x && settled x.status) = some r := by
      refine List.find?_eq_some_iff_append.mpr ⟨?_, rows, older, rfl, ?_⟩
      · have htail := hr.1.resolve_right hcolon
        simp [matchesBranch, htail, hr.2]
      · intro x hx
        by_cases htail : refTail x.gitRef = branch
        · have hs := fun hs => hfirst x hx ⟨.inl htail, hs⟩
          simpa [matchesBranch, htail] using hs
        · simp [matchesBranch, htail]
    simp [selectStatus, pickEval, hfind]

/-- What was chosen was read. -/
theorem selectStatus_settled (hs : settled e.status = true)
    (h : selectStatus rows none (some branch) = classify e.status) :
    ∃ x ∈ rows, settled x.status = true := by
  have hpick : ∀ {branchFilter x}, pickEval rows branchFilter = some x → x ∈ rows := by
    intro branchFilter x hx
    rcases Option.or_eq_some_iff.mp hx with hx | ⟨-, hx⟩ <;> exact List.mem_of_find?_eq_some hx
  have hclass : ∀ x : EvalRecord, classify x.status = classify e.status →
      settled x.status = true := by
    intro x hx
    revert hx hs
    cases e.status <;> cases x.status <;> simp [classify, settled, EvalStatus.isTerminal]
  simp only [selectStatus, Option.none_or, Option.isSome_some, if_true] at h
  cases hc : (pickEval rows (some branch)).or (pickEval rows none) with
  | none =>
    rw [hc] at h
    revert h hs
    cases e.status <;> simp [classify, settled, EvalStatus.isTerminal]
  | some x =>
    rw [hc] at h
    refine ⟨x, ?_, hclass x h⟩
    rcases Option.or_eq_some_iff.mp hc with hx | ⟨-, hx⟩
    · exact hpick hx
    · exact hpick hx

/-! ### The window -/

/-- The rows of the repository around `e`, newest first. -/
theorem rows_around (hmem : e ∈ evals.rows) (hrepo : e.repoId = repoId) :
    ∃ older, (evals.rows.filter fun r => r.repoId = repoId).reverse =
      (newer evals repoId e).reverse ++ e :: older := by
  obtain ⟨pre, post, hsplit⟩ := List.append_of_mem hmem
  have hinc := evals.increasing
  rw [hsplit, List.pairwise_append, List.pairwise_cons] at hinc
  obtain ⟨-, ⟨hpost, -⟩, hpre⟩ := hinc
  refine ⟨(pre.filter fun r => r.repoId = repoId).reverse, ?_⟩
  have hnewer : newer evals repoId e = post.filter fun r => r.repoId = repoId := by
    have hnone : (pre.filter fun r => r.repoId = repoId ∧ e.id.get < r.id.get) = [] := by
      rw [List.filter_eq_nil_iff]
      intro r hr
      have := hpre r hr e (by simp)
      simp only [decide_eq_true_eq, not_and]
      omega
    have hall : (post.filter fun r => r.repoId = repoId ∧ e.id.get < r.id.get) =
        post.filter fun r => r.repoId = repoId := by
      refine List.filter_congr fun r hr => ?_
      simp [hpost r hr]
    rw [newer, hsplit, List.filter_append, hnone, List.filter_cons_of_neg (by simp), hall,
      List.nil_append]
  rw [hnewer, hsplit, List.filter_append, List.filter_cons_of_pos (by simpa using hrepo)]
  simp

/-- `e` is in the window. -/
theorem listByRepo_recent (hmem : e ∈ evals.rows) (hrepo : e.repoId = repoId)
    (hrecent : (newer evals repoId e).length < 50) :
    ∃ older, evals.listByRepo repoId 50 = (newer evals repoId e).reverse ++ e :: older := by
  obtain ⟨older, hrows⟩ := rows_around hmem hrepo
  obtain ⟨n, hn⟩ : ∃ n, 50 = (newer evals repoId e).reverse.length + (n + 1) := by
    refine ⟨50 - (newer evals repoId e).reverse.length - 1, ?_⟩
    rw [List.length_reverse]
    omega
  refine ⟨older.take n, ?_⟩
  rw [EvalTable.listByRepo, hrows, hn, List.take_length_add_append, List.take_succ_cons]

/-- `e` is not in the window, and everything in it is newer. -/
theorem listByRepo_full (hmem : e ∈ evals.rows) (hrepo : e.repoId = repoId)
    (hfull : 50 ≤ (newer evals repoId e).length) (hr : r ∈ evals.listByRepo repoId 50) :
    r ∈ newer evals repoId e := by
  obtain ⟨older, hrows⟩ := rows_around hmem hrepo
  rw [EvalTable.listByRepo, hrows, List.take_append_of_le_length (by simpa using hfull)] at hr
  exact List.mem_reverse.mp (List.mem_of_mem_take hr)

/-! ### Both directions -/

/-- The other rows, all with one status. -/
def recast (repoId : RepoId) (branch : String) (status : EvalStatus) (r : EvalRecord) :
    EvalRecord :=
  if PushOf repoId branch r then r else { r with status := status }

theorem recast_id (repoId : RepoId) (branch : String) (status : EvalStatus) (r : EvalRecord) :
    (recast repoId branch status r).id = r.id := by
  unfold recast
  split <;> rfl

theorem pushOf_recast {status : EvalStatus} :
    PushOf repoId branch (recast repoId branch status r) ↔ PushOf repoId branch r := by
  unfold recast
  split
  · rfl
  · exact Iff.rfl

theorem samePushes_recast (evals : EvalTable) (status : EvalStatus) :
    SamePushes repoId branch evals
      (evals.mapRows (recast repoId branch status) (recast_id repoId branch status)) where
  pushes := by
    simp only [EvalTable.mapRows, List.filter_map]
    have hfilter : evals.rows.filter
        ((fun r => decide (PushOf repoId branch r)) ∘ recast repoId branch status) =
          evals.rows.filter fun r => PushOf repoId branch r :=
      List.filter_congr fun r _ => decide_eq_decide.mpr pushOf_recast
    have hkeep : ∀ r ∈ evals.rows.filter (fun r => PushOf repoId branch r),
        recast repoId branch status r = id r := by
      intro r hr
      exact if_pos (of_decide_eq_true (List.mem_filter.mp hr).2)
    rw [hfilter, List.map_congr_left hkeep, List.map_id]
  others := by
    intro r' hr' hpush
    obtain ⟨r, hr, rfl⟩ := List.mem_map.mp hr'
    have hpush := fun h => hpush (pushOf_recast.mpr h)
    exact ⟨r, hr, hpush, status, if_neg hpush⟩

theorem newer_recast (evals : EvalTable) (status : EvalStatus) :
    newer (evals.mapRows (recast repoId branch status) (recast_id repoId branch status)) repoId e =
      (newer evals repoId e).map (recast repoId branch status) := by
  have hrepo : ∀ r, (recast repoId branch status r).repoId = r.repoId := by
    intro r
    unfold recast
    split <;> rfl
  simp only [newer, EvalTable.mapRows, List.filter_map]
  refine congrArg _ (List.filter_congr fun r _ => ?_)
  simp [hrepo, recast_id]

/-- What is newer than `e` and settled after the change has its status from the change. -/
theorem status_of_newer_recast (he : NewestSettled evals repoId branch e) {status : EvalStatus}
    (hr : r ∈ newer (evals.mapRows (recast repoId branch status)
      (recast_id repoId branch status)) repoId e) (hs : settled r.status = true) :
    r.status = status := by
  rw [newer_recast] at hr
  obtain ⟨r, hmem, rfl⟩ := List.mem_map.mp hr
  obtain ⟨hrmem, hnew⟩ := List.mem_filter.mp hmem
  unfold recast at hs ⊢
  split at hs
  case isTrue hpush =>
    have := he.newest r hrmem hpush hs
    simp only [decide_eq_true_eq] at hnew
    omega
  case isFalse hpush => rw [if_neg hpush]

/-- Undisturbed, the badge shows `e`, also after the other rows have changed. -/
theorem selectStatus_of_undisturbed (he : NewestSettled evals repoId branch e)
    (hu : Undisturbed evals repoId branch e) (hsame : SamePushes repoId branch evals evals') :
    selectStatus (evals'.listByRepo repoId 50) none (some branch) = classify e.status := by
  have hpushes : ∀ r, (r ∈ evals'.rows ∧ PushOf repoId branch r) ↔
      r ∈ evals.rows ∧ PushOf repoId branch r := by
    intro r
    simpa using congrArg (r ∈ ·) hsame.pushes
  have hmem : e ∈ evals'.rows := ((hpushes e).mpr ⟨he.mem, he.push⟩).1
  have hback : ∀ r' ∈ newer evals' repoId e,
      ∃ r ∈ newer evals repoId e, r.id = r'.id ∧ r.gitRef = r'.gitRef ∧
        (PushOf repoId branch r → r' = r) := by
    intro r' hr'
    obtain ⟨hr', hnew⟩ := List.mem_filter.mp hr'
    by_cases hpush : PushOf repoId branch r'
    · exact ⟨r', List.mem_filter.mpr ⟨((hpushes r').mp ⟨hr', hpush⟩).1, hnew⟩, rfl, rfl,
        fun _ => rfl⟩
    · obtain ⟨r, hr, hnot, status, rfl⟩ := hsame.others r' hr' hpush
      exact ⟨r, List.mem_filter.mpr ⟨hr, hnew⟩, rfl, rfl, fun h => absurd h hnot⟩
  have hrecent : (newer evals' repoId e).length < 50 := by
    have hsub : (newer evals' repoId e).map (·.id) ⊆ (newer evals repoId e).map (·.id) := by
      intro id hid
      obtain ⟨r', hr', rfl⟩ := List.mem_map.mp hid
      obtain ⟨r, hr, hid, -⟩ := hback r' hr'
      exact hid ▸ List.mem_map_of_mem hr
    have hnodup : ((newer evals' repoId e).map (·.id)).Nodup :=
      List.pairwise_map.mpr
        ((evals'.increasing.filter _).imp fun hlt heq => absurd hlt (by simp [heq]))
    have hle := (List.subperm_of_subset hnodup hsub).length_le
    rw [List.length_map, List.length_map] at hle
    exact hle.trans_lt hu.recent
  obtain ⟨older, hrows⟩ := listByRepo_recent hmem he.push.1 hrecent
  rw [hrows]
  refine selectStatus_of_candidate ⟨carries_of_push he.push, he.settled⟩ ?_
  rintro r' hr' ⟨hcarries, hsettled⟩
  obtain ⟨r, hr, hid, href, hpush⟩ := hback r' (List.mem_reverse.mp hr')
  -- the row carries the branch's name in the first table as well, so it is a newer settled push
  have hp := hu.alone r hr (by rwa [Carries, href])
  obtain rfl := hpush hp
  obtain ⟨hrmem, hnew⟩ := List.mem_filter.mp hr
  have := he.newest r' hrmem hp hsettled
  simp only [decide_eq_true_eq] at hnew
  omega

/-- A badge that shows `e` whatever the other rows come to is undisturbed. -/
theorem undisturbed_of_selectStatus (he : NewestSettled evals repoId branch e)
    (h : ∀ evals', SamePushes repoId branch evals evals' →
      selectStatus (evals'.listByRepo repoId 50) none (some branch) = classify e.status) :
    Undisturbed evals repoId branch e := by
  have hmem : ∀ status, e ∈ (evals.mapRows (recast repoId branch status)
      (recast_id repoId branch status)).rows := by
    intro status
    exact List.mem_map.mpr ⟨e, he.mem, if_pos he.push⟩
  have hrecent : (newer evals repoId e).length < 50 := by
    -- with nothing but `e` settled, the badge has to read `e`
    by_contra hfull
    obtain ⟨x, hx, hs⟩ := selectStatus_settled he.settled (h _ (samePushes_recast evals .queued))
    have hx := listByRepo_full (hmem .queued) he.push.1
      (by rw [newer_recast, List.length_map]; omega) hx
    rw [status_of_newer_recast he hx hs] at hs
    exact absurd hs (by decide)
  refine ⟨hrecent, ?_⟩
  intro r hr hcarries
  by_contra hpush
  -- with the other verdict on all other rows, the badge has that one
  obtain ⟨status, hs, hclass⟩ : ∃ status, settled status = true ∧
      classify status ≠ classify e.status := by
    have hs := he.settled
    cases hst : e.status <;> rw [hst] at hs
    case done => exact ⟨.evaluationFailed, rfl, by decide⟩
    case evaluationFailed => exact ⟨.done, rfl, by decide⟩
    all_goals exact absurd hs (by decide)
  obtain ⟨older, hrows⟩ := listByRepo_recent (hmem status) he.push.1
    (by rwa [newer_recast, List.length_map])
  have hsome : ((newer (evals.mapRows (recast repoId branch status)
      (recast_id repoId branch status)) repoId e).reverse.find?
        fun x => Candidate branch x).isSome := by
    refine List.find?_isSome.mpr ⟨recast repoId branch status r, ?_, decide_eq_true ?_⟩
    · rw [List.mem_reverse, newer_recast]
      exact List.mem_map_of_mem hr
    · rw [recast, if_neg hpush]
      exact ⟨hcarries, hs⟩
  obtain ⟨x, hx⟩ := Option.isSome_iff_exists.mp hsome
  obtain ⟨hxc, pre, post, hsplit, hfirst⟩ := List.find?_eq_some_iff_append.mp hx
  have hxc : Candidate branch x := of_decide_eq_true hxc
  have hshow := h _ (samePushes_recast evals status)
  rw [hrows, hsplit, List.append_assoc, List.cons_append,
    selectStatus_of_candidate hxc (by simpa using hfirst)] at hshow
  have hxmem := List.mem_reverse.mp (hsplit ▸ List.mem_append_right pre (List.mem_cons_self ..))
  rw [status_of_newer_recast he hxmem hxc.2] at hshow
  exact hclass hshow

/-! ## The endpoint, for the default branch -/

theorem parseBadgeTail_svg {path : String} (h : path ≠ "") :
    parseBadgeTail (path ++ ".svg") = some path := by
  have hsuffix : ".svg".toList.isSuffixOf (path ++ ".svg").toList = true := by
    rw [String.toList_append, List.isSuffixOf_iff_suffix]
    exact List.suffix_append ..
  have htake : (path ++ ".svg").toList.take
      ((path ++ ".svg").toList.length - ".svg".toList.length) = path.toList := by
    rw [String.toList_append, List.length_append, Nat.add_sub_cancel, List.take_left]
  simp only [parseBadgeTail, stripSuffix, hsuffix, if_true, htake, String.ofList_toList,
    Option.bind_eq_bind, Option.bind_some, if_neg h]

/-- The whole path names the repository: there is no branch in the URL. -/
theorem handle_default {repos : RepoTable} {forge path : String} {repo : RepoRecord}
    (hrepo : resolveRepo repos forge path = some repo) (hbranch : repo.defaultBranch = some branch)
    (evals : EvalTable) :
    handle repos evals forge (path ++ ".svg") =
      some (selectStatus (evals.listByRepo repo.id 50) none (some branch)) := by
  have hpath : path ≠ "" := by
    rintro rfl
    have hnone : resolveRepo repos forge "" = none := rfl
    exact absurd (hnone.symm.trans hrepo) (by simp)
  simp [handle, parseBadgeTail_svg hpath, resolvePath, hrepo, hbranch]

theorem classify_eq_passing {status : EvalStatus} :
    classify status = .passing ↔ status = .done := by
  cases status <;> simp [classify]

/-- **The badge of the default branch is truthful exactly when nothing disturbs it** and its push
    did not finish with a Job that went wrong. -/
theorem handle_truthful_iff {repos : RepoTable} {jobs : List (EvalId × JobStatus)}
    {forge path : String} {repo : RepoRecord}
    (hrepo : resolveRepo repos forge path = some repo) (hbranch : repo.defaultBranch = some branch)
    (he : NewestSettled evals repo.id branch e) :
    Truthful repos evals jobs forge (path ++ ".svg") repo.id branch e ↔
      Undisturbed evals repo.id branch e ∧
        (e.status = .done → ∀ job ∈ jobs, job.1 = e.id → job.2.isSuccess = true) := by
  have hself : SamePushes repo.id branch evals evals :=
    ⟨rfl, fun r hr hpush => ⟨r, hr, hpush, r.status, rfl⟩⟩
  constructor
  · rintro ⟨hown, hgreen⟩
    refine ⟨undisturbed_of_selectStatus he fun evals' hsame => ?_, fun hdone => ?_⟩
    · have := hown evals' hsame
      rwa [handle_default hrepo hbranch, Option.some_inj] at this
    · exact hgreen (by rw [hown evals hself, classify_eq_passing.mpr hdone])
  · rintro ⟨hu, hjobs⟩
    have hown : ∀ evals', SamePushes repo.id branch evals evals' →
        handle repos evals' forge (path ++ ".svg") = some (classify e.status) := by
      intro evals' hsame
      rw [handle_default hrepo hbranch, selectStatus_of_undisturbed he hu hsame]
    refine ⟨hown, fun hpassing => hjobs ?_⟩
    rw [hown evals hself, Option.some_inj] at hpassing
    exact classify_eq_passing.mp hpassing

/-! ### Tables -/

/-- `o/r` at `github`, with the default branch `main`. -/
def someRepo : RepoRecord := ⟨⟨1⟩, "github", ⟨"o/r", by decide⟩, some "main"⟩

/-- A push of `main` that is done, with a Job that failed. -/
def somePush : EvalRecord := ⟨⟨1⟩, ⟨1⟩, "push", "main", ⟨"a"⟩, .done, none⟩

/-- A pull request from a fork, made on the fork's own `main`. -/
def forkRequest : EvalRecord :=
  ⟨⟨2⟩, ⟨1⟩, "pull_request", "refs/pull/7/head:main", ⟨"b"⟩, .evaluationFailed, some 7⟩

/-- A push to a branch. -/
def onlyPush : EvalTable := ⟨[somePush], by simp⟩

/-- A pull request after it. -/
def pushThenRequest : EvalTable := ⟨[somePush, forkRequest], by simp [somePush, forkRequest]⟩

theorem newestSettled_onlyPush : NewestSettled onlyPush ⟨1⟩ "main" somePush :=
  ⟨by decide, by decide, by decide, by decide⟩

theorem handle_truthful_iff_push :
    resolveRepo [someRepo] "github" "o/r" = some someRepo ∧
    NewestSettled onlyPush ⟨1⟩ "main" somePush ∧
    Truthful [someRepo] onlyPush [(⟨1⟩, .success)] "github" "o/r.svg" ⟨1⟩ "main" somePush := by
  have hrepo : resolveRepo [someRepo] "github" "o/r" = some someRepo := by decide
  have htail : "o/r.svg" = "o/r" ++ ".svg" := by decide
  refine ⟨hrepo, newestSettled_onlyPush, ?_⟩
  rw [htail]
  exact (handle_truthful_iff hrepo rfl newestSettled_onlyPush).mpr
    ⟨⟨by decide, by decide⟩, by decide⟩

/-- **The badge is green over a failed Job.** -/
theorem handle_not_truthful :
    ¬ ∀ (repos : RepoTable) (evals : EvalTable) (jobs : List (EvalId × JobStatus))
      (forge path branch : String) (repo : RepoRecord) (e : EvalRecord),
      resolveRepo repos forge path = some repo → repo.defaultBranch = some branch →
      NewestSettled evals repo.id branch e →
      Truthful repos evals jobs forge (path ++ ".svg") repo.id branch e := by
  intro h
  have hrepo : resolveRepo [someRepo] "github" "o/r" = some someRepo := by decide
  have hgreen := (h [someRepo] onlyPush [(⟨1⟩, .failure)] "github" "o/r" "main" someRepo somePush
    hrepo rfl newestSettled_onlyPush).green (by decide)
  exact absurd (hgreen (⟨1⟩, .failure) (by simp) rfl) (by decide)

-- and red because of a stranger's pull request
example : handle [someRepo] pushThenRequest "github" "o/r.svg" = some .failing := by decide

end Badge

end Argunix.Web
