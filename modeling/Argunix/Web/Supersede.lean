import Mathlib.Data.List.Infix
import Mathlib.Data.List.TakeWhile
import Argunix.Web.Persist

/-!
# Which evaluations an event supersedes

An event is meant to supersede the evaluations of its own branch, or of its own pull request. The
query that finds them goes through text, and the two kinds of names share it: a branch may be
called `refs/pull/7/head`, and a branch name is used as a `LIKE` pattern in which only the
backslash has been escaped. A branch called `%` is every pull request.

`matchesKey_iff` is the exact reading of the query on refs that `persist` wrote: the same branch,
or a name of the other kind that is *confused* with it. `supersedes_same_branch_iff` says when a
call of `persist` hits exactly the same branch.
-/

set_option autoImplicit false

namespace Argunix.Web

open Argunix.Lib

/-! ## Names -/

/-- `git check-ref-format` for a branch name. -/
structure GitValid (name : String) : Prop where
  chars : ∀ c ∈ name.toList, 0x20 < c.toNat ∧ c.toNat ≠ 0x7f ∧
    c ∉ ['~', '^', ':', '?', '*', '[', '\\']
  parts : ∀ part ∈ name.toList.splitOn '/',
    part ≠ [] ∧ part.head? ≠ some '.' ∧ ¬ ".lock".toList <:+ part
  noDots : ¬ "..".toList <:+: name.toList
  noReflog : ¬ ['@', Char.ofNat 0x7b] <:+: name.toList
  noFinalDot : name.toList.getLast? ≠ some '.'
  notAt : name ≠ "@"

theorem GitValid.no_colon {name : String} (h : GitValid name) : ':' ∉ name.toList :=
  fun hc => (h.chars ':' hc).2.2 (by decide)

theorem GitValid.no_nul {name : String} (h : GitValid name) : nul ∉ name.toList :=
  fun hc => absurd (h.chars nul hc).1 (by decide)

theorem GitValid.no_escape {name : String} (h : GitValid name) : '\\' ∉ name.toList :=
  fun hc => (h.chars '\\' hc).2.2 (by decide)

namespace NormalizedEvent

/-- Events as the forges send them and the policy accepts them: a push to a branch, a pull request
    from one. -/
def Valid : NormalizedEvent → Prop
  | push gitRef _ => ∃ name, GitValid name ∧ gitRef = "refs/heads/" ++ name
  | pullRequest _ _ headRef => GitValid headRef

/-- Pushes to one branch, or events of one pull request. -/
def SameBranch : NormalizedEvent → NormalizedEvent → Prop
  | push gitRef _, push gitRef' _ => gitRef = gitRef'
  | pullRequest n _ _, pullRequest n' _ _ => n = n'
  | _, _ => False

end NormalizedEvent

/-- The part of a pull request's ref before the colon. -/
def prKey (n : ℕ) : String := "refs/pull/" ++ toString n ++ "/head"

/-- A branch name that reads, as a pattern, like the key of a pull request, or that is one. -/
def Confused : NormalizedEvent → NormalizedEvent → Prop
  | e@(.push ..), .pullRequest n _ _ => like e.gitRef.toList (prKey n).toList = true
  | .pullRequest n _ _, o@(.push ..) => o.gitRef = prKey n
  | _, _ => False

/-! ## The query, on refs that `persist` wrote -/

theorem gitRef_push (name : String) (sha : Sha) :
    (NormalizedEvent.push ("refs/heads/" ++ name) sha).gitRef = name := by
  simp [NormalizedEvent.gitRef, stripPrefix_append]

theorem toList_prKey (n : ℕ) :
    (prKey n).toList = "refs/pull/".toList ++ Nat.toDigits 10 n ++ "/head".toList := by
  simp [prKey, String.toList_append, Nat.toString_eq_repr, Nat.toList_repr]

theorem mem_prKey {c : Char} {n : ℕ} (h : c ∈ (prKey n).toList) :
    c ∈ "refs/pull/".toList ∨ c.isDigit = true ∨ c ∈ "/head".toList := by
  rw [toList_prKey, List.append_assoc, List.mem_append, List.mem_append] at h
  exact h.imp_right (Or.imp_left (Nat.isDigit_of_mem_toDigits (by decide) (by decide)))

theorem prKey_char {c : Char} {n : ℕ} (h : c ∈ (prKey n).toList) :
    Literal c ∧ c ≠ ':' ∧ c.toLower = c ∧ c ≠ nul := by
  -- the characters are gone through one by one: `Char` is a finite type, and a search through it
  -- does not end
  have hplain : ∀ l : List Char,
      (l.all fun c => Literal c ∧ c ≠ ':' ∧ c.toLower = c ∧ c ≠ nul) = true →
      c ∈ l → Literal c ∧ c ≠ ':' ∧ c.toLower = c ∧ c ≠ nul :=
    fun l hl hc => of_decide_eq_true (List.all_eq_true.mp hl c hc)
  rcases mem_prKey h with h | h | h
  · exact hplain _ (by decide) h
  · have hne : ∀ {x : Char}, x.isDigit = false → c ≠ x := fun hx heq =>
      absurd (hx.symm.trans (heq ▸ h)) (by simp)
    exact ⟨⟨hne rfl, hne rfl, hne rfl⟩, hne rfl, toLower_of_isDigit h, hne rfl⟩
  · exact hplain _ (by decide) h

theorem nul_not_mem_prKey (n : ℕ) : nul ∉ (prKey n).toList := fun h => (prKey_char h).2.2.2 rfl

theorem prKey_injective {n n' : ℕ} (h : (prKey n).toList = (prKey n').toList) : n = n' := by
  rw [toList_prKey, toList_prKey] at h
  have hdigits := List.append_cancel_left (List.append_cancel_right h)
  rw [← Nat.ofDigitChars_ten_toDigits (n := n), hdigits, Nat.ofDigitChars_ten_toDigits]

theorem toList_gitRef_pullRequest (n : ℕ) (sha : Sha) (headRef : String) :
    (NormalizedEvent.pullRequest n sha headRef).gitRef.toList =
      (prKey n).toList ++ ':' :: headRef.toList := by
  simp [NormalizedEvent.gitRef, prKey, String.toList_append]

theorem branchKey_of_no_colon {name : String} (h : ':' ∉ name.toList) : branchKey name = name := by
  unfold branchKey
  rw [List.takeWhile_eq_self_iff.mpr, String.ofList_toList]
  exact fun c hc => decide_eq_true fun heq => h (heq ▸ hc)

theorem branchKey_pullRequest (n : ℕ) (sha : Sha) (headRef : String) :
    branchKey (NormalizedEvent.pullRequest n sha headRef).gitRef = prKey n := by
  unfold branchKey
  rw [toList_gitRef_pullRequest, List.takeWhile_append_of_pos
    fun c hc => decide_eq_true (prKey_char hc).2.1]
  simp

theorem likePattern_of_no_escape {key : String} (h : '\\' ∉ key.toList) :
    likePattern key = key.toList ++ [':', '%'] := by
  unfold likePattern
  congr 1
  have : ∀ l : List Char, '\\' ∉ l →
      (l.flatMap fun c => if c = '\\' then ['\\', '\\'] else [c]) = l := by
    intro l hl
    induction l with
    | nil => rfl
    | cons c l ih =>
      rw [List.flatMap_cons, ih fun hm => hl (List.mem_cons_of_mem c hm), if_neg]
      · rfl
      · exact fun hc => hl (by simp [hc])
  exact this _ h

theorem literal_colon : Literal ':' := by decide

theorem caseless_colon : Caseless ':' := caseless_of_not_lower (by decide) (by decide)

/-- A ref without a colon is only matched by being the key. -/
theorem matchesKey_of_no_colon {key gitRef : String} (hkey : '\\' ∉ key.toList)
    (hnul : nul ∉ key.toList) (h : ':' ∉ gitRef.toList) :
    matchesKey key gitRef = true ↔ gitRef = key := by
  have hlike : like (likePattern key) gitRef.toList = false := by
    rw [likePattern_of_no_escape hkey, Bool.eq_false_iff]
    exact fun hl => h (mem_of_like hkey hnul literal_colon (by decide) caseless_colon hl)
  simp [matchesKey, hlike]

/-- The ref of a pull request is matched through its own key. -/
theorem matchesKey_pullRequest {key headRef : String} {n : ℕ} {sha : Sha}
    (hkey : '\\' ∉ key.toList) (hnul : nul ∉ key.toList) (hcolon : ':' ∉ key.toList)
    (hhead : GitValid headRef) :
    matchesKey key (NormalizedEvent.pullRequest n sha headRef).gitRef = true ↔
      like key.toList (prKey n).toList = true := by
  have hne : (NormalizedEvent.pullRequest n sha headRef).gitRef ≠ key := by
    rintro rfl
    exact hcolon (by simp [toList_gitRef_pullRequest])
  rw [matchesKey, decide_eq_false hne, Bool.false_or, likePattern_of_no_escape hkey,
    toList_gitRef_pullRequest]
  exact like_append_sep hkey hnul literal_colon (by decide) caseless_colon
    (fun hc => (prKey_char hc).2.1 rfl) (nul_not_mem_prKey n) hhead.no_colon

/-- **The query**, on refs of events the policy accepts. -/
theorem matchesKey_iff {e o : NormalizedEvent} (he : e.Valid) (ho : o.Valid) :
    matchesKey (branchKey e.gitRef) o.gitRef = true ↔ e.SameBranch o ∨ Confused e o := by
  cases e with
  | push gitRef sha =>
    obtain ⟨name, hname, rfl⟩ := he
    rw [gitRef_push, branchKey_of_no_colon hname.no_colon]
    cases o with
    | push gitRef' sha' =>
      obtain ⟨name', hname', rfl⟩ := ho
      rw [gitRef_push, matchesKey_of_no_colon hname.no_escape hname.no_nul hname'.no_colon]
      simp [NormalizedEvent.SameBranch, Confused, eq_comm]
    | pullRequest n sha' headRef =>
      rw [matchesKey_pullRequest hname.no_escape hname.no_nul hname.no_colon ho]
      simp [NormalizedEvent.SameBranch, Confused, gitRef_push]
  | pullRequest n sha headRef =>
    rw [branchKey_pullRequest]
    have hesc : '\\' ∉ (prKey n).toList := fun hc => (prKey_char hc).1.2.2 rfl
    have hcolon : ':' ∉ (prKey n).toList := fun hc => (prKey_char hc).2.1 rfl
    cases o with
    | push gitRef' sha' =>
      obtain ⟨name', hname', rfl⟩ := ho
      rw [gitRef_push, matchesKey_of_no_colon hesc (nul_not_mem_prKey n) hname'.no_colon]
      simp [NormalizedEvent.SameBranch, Confused, gitRef_push]
    | pullRequest n' sha' headRef' =>
      rw [matchesKey_pullRequest hesc (nul_not_mem_prKey n) hcolon ho,
        like_of_literal (nul_not_mem_prKey n) (nul_not_mem_prKey n') fun c hc => (prKey_char hc).1]
      -- keys have no letter to fold
      have hfold : ∀ m, (prKey m).toList.map Char.toLower = (prKey m).toList := fun m =>
        (List.map_congr_left fun c hc => (prKey_char hc).2.2.1).trans (List.map_id _)
      rw [hfold, hfold]
      simp only [NormalizedEvent.SameBranch, Confused, or_false]
      exact ⟨prKey_injective, fun h => h ▸ rfl⟩

/-! ## What a call of `persist` hits -/

/-- A table whose rows `persist` wrote: each has the event it came from. -/
structure Written where
  table : EvalTable
  origin : EvalId → NormalizedEvent
  valid : ∀ r ∈ table.rows, (origin r.id).Valid
  gitRef : ∀ r ∈ table.rows, r.gitRef = (origin r.id).gitRef
  sha : ∀ r ∈ table.rows, r.sha = (origin r.id).sha

/-- The row was active before, and is cancelled after. -/
def CancelledBy (after : EvalTable) (r : EvalRecord) : Prop :=
  r.status.isTerminal = false ∧ ∃ r' ∈ after.rows, r'.id = r.id ∧ r'.status = .cancelled

/-- An active evaluation of the repo with another SHA. -/
def Rival (repoId : RepoId) (event : NormalizedEvent) (r : EvalRecord) : Prop :=
  r.repoId = repoId ∧ r.status.isTerminal = false ∧ r.sha ≠ event.sha

/-- **Exactly the same branch** is hit. -/
def HitsSameBranch (w : Written) (after : EvalTable) (repoId : RepoId) (event : NormalizedEvent) :
    Prop :=
  ∀ r ∈ w.table.rows, CancelledBy after r ↔
    Rival repoId event r ∧ event.SameBranch (w.origin r.id)

/-- No rival is confused with the event, if it is admitted; no rival is of its branch, if not. -/
def Unconfused (w : Written) (repoId : RepoId) (event : NormalizedEvent) (admitted : Bool) : Prop :=
  ∀ r ∈ w.table.rows, Rival repoId event r →
    if admitted then ¬ Confused event (w.origin r.id) else ¬ event.SameBranch (w.origin r.id)

theorem not_sameBranch_of_confused {e o : NormalizedEvent} (h : Confused e o) :
    ¬ e.SameBranch o := by
  cases e <;> cases o <;> simp [Confused, NormalizedEvent.SameBranch] at h ⊢

variable {w : Written} {st : AppState} {now : ℕ} {repoId : RepoId} {event : NormalizedEvent}

theorem cancelledBy_self {r : EvalRecord} (hr : r ∈ w.table.rows) :
    ¬ CancelledBy w.table r := by
  rintro ⟨hopen, r', hr', hid, hc⟩
  rw [EvalTable.eq_of_id hr' hr hid] at hc
  rw [hc] at hopen
  exact absurd hopen (by decide)

/-- An admitted call cancels what its query finds. -/
theorem cancelledBy_persist (hst : st.evals = w.table)
    (hadm : (st.coalesce.admitAt repoId event.sha now).1 = true) {r : EvalRecord}
    (hr : r ∈ w.table.rows) :
    CancelledBy (st.persist now repoId event true true).2.evals r ↔
      AppState.Supersedes repoId event r := by
  obtain ⟨hd, -⟩ | ⟨-, hl, -⟩ | ⟨-, -, hc, -⟩ | ⟨-, -, -, new, hnew, -, hrows⟩ :=
    AppState.persist_cases st now repoId event true true
  · exact absurd (hd.symm.trans hadm) (by simp)
  · exact absurd hl (by simp)
  · exact absurd hc (by simp)
  rw [hst] at hrows
  constructor
  · rintro ⟨hopen, r', hr', hrid, hc⟩
    rw [hrows] at hr'
    rcases List.mem_append.mp hr' with hr' | hr'
    · obtain ⟨r₀, hr₀, rfl⟩ := List.mem_map.mp hr'
      obtain rfl := EvalTable.eq_of_id hr₀ hr (by simpa using hrid)
      unfold AppState.afterEvent at hc
      split at hc
      · assumption
      · rw [hc] at hopen
        exact absurd hopen (by decide)
    · rw [List.mem_singleton.mp hr', hnew.status] at hc
      exact absurd hc (by decide)
  · intro hs
    refine ⟨hs.2.1, AppState.afterEvent repoId event r, ?_, by simp, ?_⟩
    · rw [hrows]
      exact List.mem_append_left _ (List.mem_map_of_mem hr)
    · rw [AppState.afterEvent, if_pos hs]

/-- **When an event supersedes exactly its own branch.** -/
theorem supersedes_same_branch_iff (w : Written) (st : AppState) (hst : st.evals = w.table)
    (now : ℕ) (repoId : RepoId) (event : NormalizedEvent) (hvalid : event.Valid) :
    HitsSameBranch w (st.persist now repoId event true true).2.evals repoId event ↔
      Unconfused w repoId event (st.coalesce.admitAt repoId event.sha now).1 := by
  cases hadm : (st.coalesce.admitAt repoId event.sha now).1 with
  | false =>
    have hsame : (st.persist now repoId event true true).2.evals = w.table := by
      rcases AppState.persist_cases st now repoId event true true with
        ⟨-, -, heq⟩ | ⟨ha, -⟩ | ⟨ha, -⟩ | ⟨ha, -⟩
      · exact heq.trans hst
      all_goals exact absurd (hadm.symm.trans ha) (by simp)
    rw [hsame]
    constructor
    · intro h r hr hrival hsame
      exact cancelledBy_self hr ((h r hr).mpr ⟨hrival, hsame⟩)
    · intro h r hr
      exact iff_of_false (cancelledBy_self hr) fun hc => h r hr hc.1 hc.2
  | true =>
    have hquery : ∀ r ∈ w.table.rows, (AppState.Supersedes repoId event r ↔
        Rival repoId event r ∧ (event.SameBranch (w.origin r.id) ∨ Confused event (w.origin r.id))) := by
      intro r hr
      rw [← matchesKey_iff hvalid (w.valid r hr), ← w.gitRef r hr]
      exact ⟨fun h => ⟨⟨h.1, h.2.1, h.2.2.2⟩, h.2.2.1⟩, fun h => ⟨h.1.1, h.1.2.1, h.2, h.1.2.2⟩⟩
    constructor
    · intro h r hr hrival hconf
      have hcancelled := (cancelledBy_persist hst hadm hr).mpr
        ((hquery r hr).mpr ⟨hrival, Or.inr hconf⟩)
      exact not_sameBranch_of_confused hconf ((h r hr).mp hcancelled).2
    · intro h r hr
      rw [cancelledBy_persist hst hadm hr, hquery r hr]
      constructor
      · rintro ⟨hrival, hsame | hconf⟩
        · exact ⟨hrival, hsame⟩
        · exact absurd hconf (h r hr hrival)
      · rintro ⟨hrival, hsame⟩
        exact ⟨hrival, Or.inl hsame⟩

/-! ## Pull request 7, and a branch called `%` -/

theorem chars_of_all {name : String} (h : (name.toList.all fun c => 0x20 < c.toNat ∧
    c.toNat ≠ 0x7f ∧ c ∉ ['~', '^', ':', '?', '*', '[', '\\']) = true) :
    ∀ c ∈ name.toList, 0x20 < c.toNat ∧ c.toNat ≠ 0x7f ∧
      c ∉ ['~', '^', ':', '?', '*', '[', '\\'] :=
  fun c hc => of_decide_eq_true (List.all_eq_true.mp h c hc)

theorem gitValid_feature : GitValid "feature" :=
  ⟨chars_of_all (by decide), by decide, by decide, by decide, by decide, by decide⟩

theorem gitValid_percent : GitValid "%" :=
  ⟨chars_of_all (by decide), by decide, by decide, by decide, by decide, by decide⟩

/-- Pull request 7 is being built. -/
def pullRequestSeven : Written where
  table := { rows := [⟨⟨1⟩, ⟨1⟩, "pull_request", "refs/pull/7/head:feature", ⟨"a"⟩, .building, some 7⟩]
             increasing := List.pairwise_singleton _ _ }
  origin := fun _ => .pullRequest 7 ⟨"a"⟩ "feature"
  valid := fun _ _ => gitValid_feature
  gitRef := by decide
  sha := by decide

/-- The state with that table and a window of 5 s. -/
def pullRequestSevenState : AppState := .start pullRequestSeven.table 5

/-- The pull request is pushed to: its evaluation is superseded. -/
theorem supersedes_same_branch_seven :
    HitsSameBranch pullRequestSeven
      (pullRequestSevenState.persist 0 ⟨1⟩ (.pullRequest 7 ⟨"b"⟩ "feature") true true).2.evals ⟨1⟩
      (.pullRequest 7 ⟨"b"⟩ "feature") := by
  refine (supersedes_same_branch_iff pullRequestSeven pullRequestSevenState rfl 0 ⟨1⟩
    (.pullRequest 7 ⟨"b"⟩ "feature") gitValid_feature).mpr fun r _ _ => ?_
  exact fun hconf => hconf

/-- A push to the branch `%` cancels the evaluation of the pull request. -/
theorem not_same_branch_percent :
    ¬ ∀ (w : Written) (st : AppState), st.evals = w.table → ∀ (now : ℕ) (repoId : RepoId)
      (event : NormalizedEvent), event.Valid →
      HitsSameBranch w (st.persist now repoId event true true).2.evals repoId event := by
  intro h
  have hhits := h pullRequestSeven pullRequestSevenState rfl 0 ⟨1⟩ (.push "refs/heads/%" ⟨"b"⟩)
    ⟨"%", gitValid_percent, by decide⟩
  have hrow := List.mem_singleton_self (⟨⟨1⟩, ⟨1⟩, "pull_request", "refs/pull/7/head:feature", ⟨"a"⟩,
    .building, some 7⟩ : EvalRecord)
  have hcancelled := (@cancelledBy_persist pullRequestSeven pullRequestSevenState 0 ⟨1⟩
    (.push "refs/heads/%" ⟨"b"⟩) rfl (by decide) _ hrow).mpr (by decide +kernel)
  exact ((hhits _ hrow).mp hcancelled).2

end Argunix.Web
