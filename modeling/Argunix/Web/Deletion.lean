import Argunix.Registry.Images
import Argunix.Web.Deliveries
import Argunix.Web.Policy

/-!
# `argunix-web`: a push that deletes a branch

All three forges announce the deletion of a branch as a push whose new commit is forty zeros. Forty
zeros are well-formed for `Sha::new`, and nothing behind it asks: the policy looks at the branch,
the pool at the pair of repository and SHA, `persist` at the branch again. So the deletion of a
watched branch cancels what is being evaluated on it, and gets an evaluation of its own, of a commit
that does not exist.

**`harmless_iff`** says exactly when it does not: when the branch is not watched, when the null SHA
of the repository is still in the coalesce pool, or when the store fails at the right moment. What
the pool remembers of the deletion does no harm: no delivery with a commit is dropped because of it
(`arrivals_filter_real`).
-/

set_option autoImplicit false

namespace Argunix.Web

open Argunix.Lib Argunix.Store Argunix.Forge

/-! ## The null SHA -/

def nullSha : Sha := ⟨String.ofList (List.replicate 40 '0')⟩

theorem caseless_zero : Caseless '0' := caseless_of_not_lower (by decide) (by decide)

theorem shaNew_eq_some {s : String} {sha : Sha} (h : shaNew s = some sha) :
    sha.asStr.toList = s.toList.map Char.toLower := by
  unfold shaNew at h
  split at h
  · exact absurd h (by simp)
  · rw [← Option.some.inj h, String.toList_ofList]

theorem shaNew_eq_null {s : String} (h : shaNew s = some nullSha) :
    s = String.ofList (List.replicate 40 '0') := by
  have htext : List.replicate 40 '0' = s.toList.map Char.toLower :=
    (String.toList_ofList (l := List.replicate 40 '0')).symm.trans (shaNew_eq_some h)
  have hlength := congrArg List.length htext
  rw [List.length_map, List.length_replicate] at hlength
  rw [← String.ofList_toList (s := s)]
  refine congrArg String.ofList (List.eq_replicate_iff.mpr ⟨hlength.symm, fun c hc => ?_⟩)
  have hlower : c.toLower ∈ List.replicate 40 '0' := htext ▸ List.mem_map_of_mem hc
  exact caseless_zero c (List.eq_of_mem_replicate hlower).symm

/-! ## The payload -/

/-- The view of a push, for each forge. -/
def pushView : ForgeKind → Json → Option PushView
  | .github => hubPushView githubPusher
  | .forgejo => hubPushView forgejoPerson
  | .gitlab => gitlabPushView

/-- The event of a push comes from its view. -/
theorem parseEvent_push {libs : Libraries} {kind : ForgeKind} {headers : Headers}
    {body : List UInt8} {e : PushEvent}
    (h : parseEvent libs kind headers body = .ok (some (.push e))) :
    ∃ v view, libs.fromSlice body = some v ∧ pushView kind v = some view ∧ view.event = .ok e := by
  simp only [parseEvent, bind_eq_ok] at h
  obtain ⟨k, -, h⟩ := h
  cases k with
  | push =>
    obtain ⟨e', hparse, h⟩ := bind_eq_ok.mp h
    obtain rfl : e' = e := by simpa using Except.ok.inj h
    have hview : (fromBody libs body (pushView kind) >>= PushView.event) = .ok e' := by
      cases kind <;> exact hparse
    obtain ⟨view, hview, hevent⟩ := bind_eq_ok.mp hview
    obtain ⟨v, hv, hview⟩ := fromBody_eq_ok.mp hview
    exact ⟨v, view, hv, hview, hevent⟩
  | pullRequest =>
    obtain ⟨e', -, h⟩ := bind_eq_ok.mp h
    exact absurd (Except.ok.inj h) (by simp)
  | ignored => exact absurd (Except.ok.inj h) (by simp)

/-- The body is a push that reports a deleted branch. -/
def ReportsDeletion (libs : Libraries) (d : Request) : Prop :=
  ∃ kind v view, forgeKindOf d.forgeKind = some kind ∧ libs.fromSlice d.body = some v ∧
    pushView kind v = some view ∧ view.after = String.ofList (List.replicate 40 '0')

variable {libs : Libraries} {snap : Snapshot} {secrets : Secrets} {d : Request} {r : Received}

theorem PushView.event_sha {view : PushView} {e : PushEvent} (h : view.event = .ok e) :
    shaNew view.after = some e.sha := by
  simp only [PushView.event, bind_eq_ok, Except.ok.injEq] at h
  obtain ⟨slug, -, sha, hsha, rfl⟩ := h
  unfold parseSha at hsha
  split at hsha
  · rename_i sha' hs
    rw [hs, Except.ok.inj hsha]
  · exact absurd hsha (by simp)

/-- A push reports a deleted branch if and only if its event has the null SHA. -/
theorem reportsDeletion_iff {push : PushEvent} (hr : receive libs snap secrets d = .ok (some r))
    (hpush : r.event = .push push) : ReportsDeletion libs d ↔ push.sha = nullSha := by
  obtain ⟨kind, v, names, secret, h⟩ := receive_eq_some_iff.mp hr
  have hevent := h.event
  rw [hpush] at hevent
  obtain ⟨v', view, hv', hview, hparsed⟩ := parseEvent_push hevent
  have hsha := PushView.event_sha hparsed
  constructor
  · rintro ⟨kind', v'', view'', hkind, hv'', hview'', hafter⟩
    obtain rfl := Option.some.inj (h.url.symm.trans hkind)
    obtain rfl := Option.some.inj (hv'.symm.trans hv'')
    obtain rfl := Option.some.inj (hview.symm.trans hview'')
    rw [hafter] at hsha
    have hnull : shaNew (String.ofList (List.replicate 40 '0')) = some nullSha := by
      rfl
    exact Option.some.inj (hsha.symm.trans hnull)
  · intro hnull
    rw [hnull] at hsha
    exact ⟨kind, v', view, h.url, hv', hview, shaNew_eq_null hsha⟩

/-! ## The pool -/

/-- The pools remember the same commits. -/
structure SameCommits (now : ℕ) (p p' : CoalescePool) : Prop where
  window : p'.window = p.window
  lookup : ∀ k, k.2 ≠ nullSha → ∀ deadline, now < deadline →
    (p'.inner.lookup k = some deadline ↔ p.inner.lookup k = some deadline)

namespace SameCommits

variable {now t : ℕ} {p p' : CoalescePool} {repoId : RepoId} {sha : Sha}

/-- A delivery with a commit gets the same answer from both. -/
theorem admitted (h : SameCommits now p p') (ht : now ≤ t) (hsha : sha ≠ nullSha) :
    (p'.admitAt repoId sha t).1 = (p.admitAt repoId sha t).1 := by
  have hiff : (p'.admitAt repoId sha t).1 = false ↔ (p.admitAt repoId sha t).1 = false := by
    rw [CoalescePool.admitAt_eq_false, CoalescePool.admitAt_eq_false]
    refine exists_congr fun deadline => and_congr_left fun hlt => ?_
    exact h.lookup (repoId, sha) hsha deadline (Nat.lt_of_le_of_lt ht hlt)
  cases hp : (p.admitAt repoId sha t).1 with
  | false => exact hiff.mpr hp
  | true =>
    cases hp' : (p'.admitAt repoId sha t).1 with
    | false => exact absurd (hp.symm.trans (hiff.mp hp')) (by simp)
    | true => rfl

/-- And both remember the same commits after any delivery. -/
theorem admitAt (h : SameCommits now p p') (repoId : RepoId) (sha : Sha) (ht : now ≤ t) :
    SameCommits t (p.admitAt repoId sha t).2 (p'.admitAt repoId sha t).2 := by
  refine ⟨?_, fun k hk deadline hlt => ?_⟩
  · rw [CoalescePool.window_admitAt, CoalescePool.window_admitAt, h.window]
  · rw [CoalescePool.lookup_admitAt, CoalescePool.lookup_admitAt]
    by_cases hkey : k = (repoId, sha)
    · subst hkey
      rw [h.admitted ht hk, h.window, h.lookup _ hk deadline (Nat.lt_of_le_of_lt ht hlt)]
    · simp only [hkey, false_and, if_false]
      rw [h.lookup k hk deadline (Nat.lt_of_le_of_lt ht hlt)]

end SameCommits

/-- A deletion leaves the commits in the pool as they are. -/
theorem sameCommits_null (p : CoalescePool) (repoId : RepoId) (now : ℕ) :
    SameCommits now p (p.admitAt repoId nullSha now).2 := by
  refine ⟨CoalescePool.window_admitAt, fun k hk deadline hlt => ?_⟩
  have hne : k ≠ (repoId, nullSha) := fun heq => hk (congrArg Prod.snd heq)
  rw [CoalescePool.lookup_admitAt, if_neg (fun h => hne h.1), and_iff_left hlt]

/-- The delivery carries a commit. -/
def Arrival.isReal (a : Arrival) : Bool := a.delivery.event.sha ≠ nullSha

/-- **The answers to all later deliveries with a commit are the same.** -/
theorem arrivals_filter_real (ds : List Delivery) : ∀ {now : ℕ} {p p' : CoalescePool},
    SameCommits now p p' →
      (arrivals p' now ds).filter Arrival.isReal = (arrivals p now ds).filter Arrival.isReal := by
  induction ds with
  | nil =>
    intro now p p' _
    rfl
  | cons d ds ih =>
    intro now p p' h
    have hle : now ≤ now + d.wait := Nat.le_add_right _ _
    have hrest := ih (h.admitAt d.repoId d.event.sha hle)
    rw [arrivals, arrivals, List.filter_cons, List.filter_cons, hrest]
    by_cases hnull : d.event.sha = nullSha
    · simp [Arrival.isReal, hnull]
    · rw [h.admitted hle hnull]

/-! ## What a delivery changes -/

/-- One delivery is without effect: no evaluation is created or cancelled, the worker is told
    nothing, and no later delivery with a commit is answered differently. -/
structure LeavesAlone (st st' : AppState) (now : ℕ) : Prop where
  rows : st'.evals.rows = st.evals.rows
  cancellations : st'.cancellations = st.cancellations
  sent : st'.sent = st.sent
  later : ∀ ds : List Delivery, (arrivals st'.coalesce now ds).filter Arrival.isReal =
    (arrivals st.coalesce now ds).filter Arrival.isReal

/-- The row was not there before. -/
def Created (st st' : AppState) (row : EvalRecord) : Prop :=
  row ∈ st'.evals.rows ∧ ∀ old ∈ st.evals.rows, old.id ≠ row.id

/-- **A delivery that carries no commit changes no evaluation**, and no evaluation is created
    without a commit. -/
structure Harmless (libs : Libraries) (w : Registry.World) (now : ℕ) (d : Request) (r : Received)
    (listOk createOk : Bool) : Prop where
  deletion : ∀ push, r.event = .push push → ReportsDeletion libs d →
    LeavesAlone w.app (w.handle now r listOk createOk).2.app now
  commits : ∀ row, Created w.app (w.handle now r listOk createOk).2.app row → row.sha ≠ nullSha

/-- The id of the row of the repository. -/
def repoIdOf (w : Registry.World) (r : Received) : RepoId :=
  (w.repos.upsert r.repo.forge r.slug).1

/-- What stops a null SHA: the policy, the pool, or a failure of the store. -/
def Stopped (w : Registry.World) (now : ℕ) (r : Received) (listOk createOk : Bool) : Prop :=
  (evaluate r.provider r.repo r.event).1 ≠ .build ∨
    (∃ deadline, w.app.coalesce.inner.lookup (repoIdOf w r, nullSha) = some deadline ∧
      now < deadline) ∨
    listOk = false ∨
    (createOk = false ∧ ∀ push, r.event = .push push → ∀ row ∈ w.app.evals.rows,
      ¬ AppState.Supersedes (repoIdOf w r) r.event.toPersist row)

namespace AppState

variable {st : AppState} {now : ℕ} {repoId : RepoId} {event : NormalizedEvent}
  {listOk createOk : Bool}

/-- A delivery that is stopped touches the pool only. -/
theorem persist_of_stopped (h : (st.coalesce.admitAt repoId event.sha now).1 = false ∨
    listOk = false ∨
    (createOk = false ∧ ∀ row ∈ st.evals.rows, ¬ Supersedes repoId event row)) :
    (st.persist now repoId event listOk createOk).2 =
      { st with coalesce := (st.coalesce.admitAt repoId event.sha now).2 } := by
  unfold persist
  dsimp only
  split
  · rfl
  · rename_i hadm
    split
    · rfl
    · rename_i hlist
      rcases h with h | h | ⟨hcreate, hnone⟩
      · exact absurd h hadm
      · exact absurd h hlist
      · have hempty : (st.evals.listActiveByBranchKey repoId (branchKey event.gitRef)).filter
            (fun prev => prev.sha ≠ event.sha) = [] := by
          refine List.filter_eq_nil_iff.mpr fun row hrow hsha => ?_
          obtain ⟨hmem, hp⟩ := List.mem_filter.mp hrow
          have hp := of_decide_eq_true hp
          exact hnone row hmem ⟨hp.1, hp.2.1, hp.2.2, of_decide_eq_true hsha⟩
        rw [if_pos hcreate, hempty]
        rfl

/-- A row that is new is the row of the event. -/
theorem created_persist {row : EvalRecord}
    (h : Created st (st.persist now repoId event listOk createOk).2 row) :
    row.sha = event.sha ∧ (st.coalesce.admitAt repoId event.sha now).1 = true ∧ listOk = true ∧
      createOk = true := by
  obtain ⟨hmem, hnew⟩ := h
  have hold : row ∉ st.evals.rows.map (afterEvent repoId event) := by
    intro hrow
    obtain ⟨old, hold, rfl⟩ := List.mem_map.mp hrow
    exact hnew old hold (afterEvent_id repoId event old).symm
  rcases persist_cases st now repoId event listOk createOk with
    ⟨-, -, hrows⟩ | ⟨-, -, -, hrows⟩ | ⟨-, -, -, -, hrows⟩ | ⟨hadm, hlist, hcreate, r, hr, -, hrows⟩
  · rw [hrows] at hmem
    exact absurd rfl (hnew row hmem)
  · rw [hrows] at hmem
    exact absurd rfl (hnew row hmem)
  · rw [hrows] at hmem
    exact absurd hmem hold
  · rw [hrows, List.mem_append, List.mem_singleton] at hmem
    rcases hmem with hmem | rfl
    · exact absurd hmem hold
    · exact ⟨hr.sha, hadm, hlist, hcreate⟩

/-- What `persist` does when nothing stops it. -/
theorem rows_persist_of_admitted (hadm : (st.coalesce.admitAt repoId event.sha now).1 = true) :
    (st.persist now repoId event true false).2.evals.rows =
        st.evals.rows.map (afterEvent repoId event) ∧
      ∃ row, Created st (st.persist now repoId event true true).2 row ∧ row.sha = event.sha := by
  constructor
  · rcases persist_cases st now repoId event true false with
      ⟨hf, -⟩ | ⟨-, hf, -⟩ | ⟨-, -, -, -, hrows⟩ | ⟨-, -, hf, -⟩
    · exact absurd (hadm.symm.trans hf) (by simp)
    · exact absurd hf (by simp)
    · exact hrows
    · exact absurd hf (by simp)
  · rcases persist_cases st now repoId event true true with
      ⟨hf, -⟩ | ⟨-, hf, -⟩ | ⟨-, -, hf, -⟩ | ⟨-, -, -, row, hrow, -, hrows⟩
    · exact absurd (hadm.symm.trans hf) (by simp)
    · exact absurd hf (by simp)
    · exact absurd hf (by simp)
    · refine ⟨row, ⟨?_, fun old hold hid => ?_⟩, hrow.sha⟩
      · rw [hrows]
        exact List.mem_append_right _ (List.mem_singleton.mpr rfl)
      · have hlt := EvalTable.lt_nextId (List.mem_map_of_mem (f := afterEvent repoId event) hold)
        rw [afterEvent_id, hid, hrow.id] at hlt
        exact absurd hlt (lt_irrefl _)

/-- Rows that stay as they are were not superseded. -/
theorem not_supersedes_of_map_eq
    (h : st.evals.rows.map (afterEvent repoId event) = st.evals.rows) :
    ∀ row ∈ st.evals.rows, ¬ Supersedes repoId event row := by
  intro row hrow hsup
  have hmap : st.evals.rows.map (afterEvent repoId event) = st.evals.rows.map id := by
    rw [h, List.map_id]
  have hsame := List.map_inj_left.mp hmap row hrow
  rw [afterEvent, if_pos hsup] at hsame
  have hstatus : EvalStatus.cancelled = row.status := congrArg EvalRecord.status hsame
  exact absurd hsup.2.1 (by rw [← hstatus]; simp [EvalStatus.isTerminal])

end AppState

/-- What becomes of the state that the webhook path and the worker share. -/
theorem app_handle (w : Registry.World) (now : ℕ) (r : Received) (listOk createOk : Bool) :
    (w.handle now r listOk createOk).2.app =
      if (evaluate r.provider r.repo r.event).1 = .build then
        (w.app.persist now (repoIdOf w r) r.event.toPersist listOk createOk).2
      else w.app := by
  unfold Registry.World.handle
  dsimp only
  split <;> rfl

/-- **When the handling of a delivery does no harm**: one with a commit always, and a deletion if it
    is stopped. -/
theorem harmless_iff {w : Registry.World} {now : ℕ} {listOk createOk : Bool}
    (hr : receive libs snap secrets d = .ok (some r)) :
    Harmless libs w now d r listOk createOk ↔
      (r.event.toPersist.sha = nullSha → Stopped w now r listOk createOk) := by
  have happ := app_handle w now r listOk createOk
  constructor
  · intro h hnull
    by_cases hbuild : (evaluate r.provider r.repo r.event).1 = .build
    · rw [if_pos hbuild] at happ
      cases hadm : (w.app.coalesce.admitAt (repoIdOf w r) r.event.toPersist.sha now).1 with
      | false =>
        rw [CoalescePool.admitAt_eq_false, hnull] at hadm
        exact .inr (.inl hadm)
      | true =>
        obtain ⟨hrows, row, hcreated, hsha⟩ := AppState.rows_persist_of_admitted hadm
        cases listOk with
        | false => exact .inr (.inr (.inl rfl))
        | true =>
          refine .inr (.inr (.inr ?_))
          cases createOk with
          | true => exact absurd (hsha.trans hnull) (h.commits row (happ ▸ hcreated))
          | false =>
            refine ⟨rfl, fun push hpush => ?_⟩
            have hdel : ReportsDeletion libs d := by
              refine (reportsDeletion_iff hr hpush).mpr ?_
              rw [hpush] at hnull
              exact hnull
            have halone := (h.deletion push hpush hdel).rows
            rw [happ, hrows] at halone
            exact AppState.not_supersedes_of_map_eq halone
    · exact .inl hbuild
  · intro h
    refine ⟨fun push hpush hdel => ?_, fun row hcreated hsha => ?_⟩
    · have hnull : r.event.toPersist.sha = nullSha := by
        rw [hpush]
        exact (reportsDeletion_iff hr hpush).mp hdel
      by_cases hbuild : (evaluate r.provider r.repo r.event).1 = .build
      · rw [if_pos hbuild] at happ
        have hstop : (w.app.coalesce.admitAt (repoIdOf w r) r.event.toPersist.sha now).1 = false ∨
            listOk = false ∨ (createOk = false ∧ ∀ row ∈ w.app.evals.rows,
              ¬ AppState.Supersedes (repoIdOf w r) r.event.toPersist row) := by
          rcases h hnull with hpolicy | hpool | hlist | ⟨hcreate, hnone⟩
          · exact absurd hbuild hpolicy
          · rw [← hnull] at hpool
            exact .inl (CoalescePool.admitAt_eq_false.mpr hpool)
          · exact .inr (.inl hlist)
          · exact .inr (.inr ⟨hcreate, hnone push hpush⟩)
        rw [happ, AppState.persist_of_stopped hstop, hnull]
        exact ⟨rfl, rfl, rfl, fun ds => arrivals_filter_real ds (sameCommits_null _ _ _)⟩
      · rw [if_neg hbuild] at happ
        rw [happ]
        exact ⟨rfl, rfl, rfl, fun ds => rfl⟩
    · by_cases hbuild : (evaluate r.provider r.repo r.event).1 = .build
      · rw [if_pos hbuild] at happ
        rw [happ] at hcreated
        obtain ⟨hevent, hadm, hlist, hcreate⟩ := AppState.created_persist hcreated
        have hnull : r.event.toPersist.sha = nullSha := hevent.symm.trans hsha
        rcases h hnull with hpolicy | hpool | hlist' | ⟨hcreate', -⟩
        · exact hpolicy hbuild
        · rw [← hnull, ← CoalescePool.admitAt_eq_false, hadm] at hpool
          exact absurd hpool (by simp)
        · exact absurd (hlist.symm.trans hlist') (by simp)
        · exact absurd (hcreate.symm.trans hcreate') (by simp)
      · rw [if_neg hbuild] at happ
        rw [happ] at hcreated
        exact hcreated.2 row hcreated.1 rfl

/-! ## Two deletions -/

/-- The hook of GitLab for a branch that is gone. -/
def deleted (gitRef : String) : Json :=
  .obj [
    ("ref", .str gitRef),
    ("after", .str "0000000000000000000000000000000000000000"),
    ("project", .obj [("path_with_namespace", .str "org/app")])]

def deletedDelivery (body : List UInt8) : Request :=
  ⟨"gitlab", [("X-Gitlab-Event", "Push Hook"), ("X-Gitlab-Token", "secret")], body⟩

def deletedTopicBody : List UInt8 := utf8 <|
  "\x7b\"ref\":\"refs/heads/topic\",\"after\":\"0000000000000000000000000000000000000000\"," ++
  "\"project\":\x7b\"path_with_namespace\":\"org/app\"\x7d\x7d"

def deletedMainBody : List UInt8 := utf8 <|
  "\x7b\"ref\":\"refs/heads/main\",\"after\":\"0000000000000000000000000000000000000000\"," ++
  "\"project\":\x7b\"path_with_namespace\":\"org/app\"\x7d\x7d"

/-- The branch `topic` is not watched. -/
theorem deletedTopic_received :
    ((receive (plainLibraries deletedTopicBody (deleted "refs/heads/topic")) gitlabSnapshot
      gitlabSecrets (deletedDelivery deletedTopicBody)).map fun o => o.map fun r =>
        (r.event.toPersist.sha, (evaluate r.provider r.repo r.event).1)) =
      .ok (some (nullSha, .dropPushUnwatchedBranch "refs/heads/topic")) := by
  rfl

theorem harmless_iff_topic : ∃ r, receive (plainLibraries deletedTopicBody
      (deleted "refs/heads/topic")) gitlabSnapshot gitlabSecrets
        (deletedDelivery deletedTopicBody) = .ok (some r) ∧
    Harmless (plainLibraries deletedTopicBody (deleted "refs/heads/topic")) (.fresh 5) 0
      (deletedDelivery deletedTopicBody) r true true := by
  obtain ⟨o, hr, ho⟩ := map_eq_ok.mp deletedTopic_received
  obtain ⟨r, rfl, hfacts⟩ := Option.map_eq_some_iff.mp ho
  refine ⟨r, hr, (harmless_iff hr).mpr fun _ => .inl ?_⟩
  rw [(Prod.mk.inj hfacts).2]
  simp

/-- The branch `main` is. -/
theorem deletedMain_received :
    ((receive (plainLibraries deletedMainBody (deleted "refs/heads/main")) gitlabSnapshot
      gitlabSecrets (deletedDelivery deletedMainBody)).map fun o => o.map fun r =>
        (((Registry.World.fresh 5).handle 0 r true true).2.app.evals.rows.map
          fun row => (row.id, row.sha))) = .ok (some [(⟨1⟩, nullSha)]) := by
  rfl

/-- **The deletion of a watched branch is evaluated.** -/
theorem not_harmless_main :
    ¬ ∀ (libs : Libraries) (snap : Snapshot) (secrets : Secrets) (d : Request) (r : Received)
      (w : Registry.World) (now : ℕ) (listOk createOk : Bool),
      receive libs snap secrets d = .ok (some r) → Harmless libs w now d r listOk createOk := by
  intro hall
  obtain ⟨o, hr, ho⟩ := map_eq_ok.mp deletedMain_received
  obtain ⟨r, rfl, hrows⟩ := Option.map_eq_some_iff.mp ho
  obtain ⟨row, hrow, hfacts⟩ := List.map_eq_singleton_iff.mp hrows
  have hmem : row ∈ ((Registry.World.fresh 5).handle 0 r true true).2.app.evals.rows := by
    rw [hrow]
    exact List.mem_singleton.mpr rfl
  have hcreated : Created (Registry.World.fresh 5).app
      ((Registry.World.fresh 5).handle 0 r true true).2.app row :=
    ⟨hmem, fun old hold => absurd hold List.not_mem_nil⟩
  exact (hall _ _ _ _ r (.fresh 5) 0 true true hr).commits row hcreated (Prod.mk.inj hfacts).2

end Argunix.Web
