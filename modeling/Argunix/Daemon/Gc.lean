import Mathlib.Algebra.BigOperators.Group.Finset.Basic
import Mathlib.Algebra.Order.BigOperators.Group.Finset
import Mathlib.Data.List.Sort
import Argunix.Domain

/-!
# `argunix-daemon`: retention

A tick of the retention task deletes evaluations in two passes. The age pass goes through the
configured repositories and deletes what is older than the repository allows. The size pass measures
the store paths that the remaining gcroots pin, and while these are more than the cap it deletes the
eight oldest evaluations that are over and measures again.

After each batch the pass asks whether anything was freed, and gives up if not: the gcroots may be
gone, or the sizer may be broken. **But closures are shared**, and eight evaluations whose closures
newer ones hold too free nothing although nothing is wrong. `meetsCap_iff` says that this is the
only way to miss the cap: the tick ends under it, or with nothing left to delete, if and only if
every batch that is deleted over the cap and leaves something behind frees something.

That the loop ends is part of its definition: it goes on only if the last measurement was smaller
than the one before, whatever the sizer measures and whichever deletions fail.
-/

set_option autoImplicit false

namespace Argunix.Daemon.Gc

/-! ## The state -/

/-- A row of `evaluations`. Every write of a terminal status sets `finished_at` with it. -/
structure EvalRecord where
  id : EvalId
  repoId : RepoId
  status : EvalStatus
  finishedAt : Option ℤ
  finished : status.isTerminal = true → finishedAt.isSome = true

/-- The directory `<gc_root_dir>/<repo>/<eval>`, with the store paths that its links reach. -/
structure RootDir where
  repoId : RepoId
  evalId : EvalId
  closure : List String
deriving DecidableEq, Repr

/-- A row of `repos`. -/
structure RepoRow where
  id : RepoId
  forge : String
  slug : String
deriving DecidableEq, Repr

/-- The rows, the logs and the gcroots. -/
structure State where
  repos : List RepoRow
  evals : List EvalRecord
  /-- The id is the primary key. -/
  unique : (evals.map (·.id)).Nodup
  /-- The directories `<log_dir>/<repo>/<eval>`. -/
  logs : List (RepoId × EvalId)
  roots : List RootDir

/-- The parts of a configured repository and of `retention` that a tick reads. -/
structure Repo where
  forge : String
  slug : String
  maxAgeDays : Option ℕ
deriving DecidableEq, Repr

/-- `retention`; what is missing is not limited. -/
structure Retention where
  maxAgeDays : Option ℕ
  maxSizeGb : Option ℕ
deriving DecidableEq, Repr

/-- The configuration, as far as the sweep reads it. -/
structure Config where
  repos : List Repo
  retention : Retention

/-- `effective_max_age_days`: the repository's own bound goes before the global one. -/
def Repo.effectiveMaxAgeDays (repo : Repo) (global : Retention) : Option ℕ :=
  repo.maxAgeDays.or global.maxAgeDays

/-- What a tick meets: the sizer, which may answer anything each time it is asked, and the calls
    that may fail. -/
structure Env where
  rootedBytes : ℕ → List RootDir → ℕ
  find : Repo → Bool
  listOlder : RepoId → Bool
  listOldest : ℕ → Bool
  cascade : EvalId → Bool
  removeLogs : EvalId → Bool
  removeRoots : EvalId → Bool

/-- What a sweep reports. -/
structure TickStats where
  ageDeleted : ℕ := 0
  sizeDeleted : ℕ := 0
  bytesFreed : ℕ := 0
  bytesRemaining : ℕ := 0
deriving DecidableEq, Repr

/-- `u64::MAX` -/
def u64Max : ℕ := 2 ^ 64 - 1

/-! ## The tick -/

/-- `delete_eval`: nothing on disk is removed if the row could not be. -/
def deleteEval (env : Env) (s : State) (e : EvalRecord) : State :=
  if env.cascade e.id then
    { s with
      evals := s.evals.filter fun r => r.id ≠ e.id
      unique := s.unique.sublist (List.filter_sublist.map _)
      logs := if env.removeLogs e.id then s.logs.filter fun d => d ≠ (e.repoId, e.id) else s.logs
      roots :=
        if env.removeRoots e.id then s.roots.filter fun d => (d.repoId, d.evalId) ≠ (e.repoId, e.id)
        else s.roots }
  else s

/-- `ORDER BY finished_at ASC, id ASC` -/
def older (a b : EvalRecord) : Bool :=
  a.finishedAt.getD 0 < b.finishedAt.getD 0 ||
    a.finishedAt.getD 0 = b.finishedAt.getD 0 && a.id.get ≤ b.id.get

/-- The evaluations that are over, the oldest first. -/
def terminalEvals (evals : List EvalRecord) : List EvalRecord :=
  (evals.filter fun r => r.status.isTerminal && r.finishedAt.isSome).mergeSort older

/-- `list_terminal_evals_older_than` -/
def listTerminalEvalsOlderThan (s : State) (repoId : RepoId) (cutoff : ℤ) : List EvalRecord :=
  (s.evals.filter fun r => r.repoId = repoId && (r.status.isTerminal &&
    r.finishedAt.any (· ≤ cutoff))).mergeSort older

/-- `list_terminal_evals_oldest_first` -/
def listTerminalEvalsOldestFirst (s : State) (limit : ℕ) : List EvalRecord :=
  (terminalEvals s.evals).take limit

/-- A day. -/
def secondsPerDay : ℤ := 24 * 60 * 60

/-- The age pass for one repository. -/
def ageRepo (env : Env) (retention : Retention) (now : ℤ) (acc : State × TickStats) (repo : Repo) :
    State × TickStats :=
  match repo.effectiveMaxAgeDays retention with
  | none => acc
  | some days =>
    let cutoff := now - days * secondsPerDay
    if env.find repo then
      match acc.1.repos.find? fun r => r.forge = repo.forge ∧ r.slug = repo.slug with
      | none => acc
      | some row =>
        if env.listOlder row.id then
          let stale := listTerminalEvalsOlderThan acc.1 row.id cutoff
          (stale.foldl (deleteEval env) acc.1,
            { acc.2 with ageDeleted := acc.2.ageDeleted + stale.length })
        else acc
    else acc

/-- The first pass goes through the configured repositories. -/
def agePass (config : Config) (s : State) (env : Env) (now : ℤ) : State × TickStats :=
  config.repos.foldl (ageRepo env config.retention now) (s, {})

/-- `BATCH` -/
def batchSize : ℕ := 8

/-- A batch is deleted. -/
def deleteBatch (env : Env) (s : State) : State :=
  (listTerminalEvalsOldestFirst s batchSize).foldl (deleteEval env) s

/-- The `while current_bytes > cap` loop. `n` is how often the store was asked for a batch. -/
def sizeLoop (env : Env) (cap : ℕ) (s : State) (stats : TickStats) (currentBytes n : ℕ) :
    State × TickStats × ℕ :=
  if currentBytes > cap then
    if env.listOldest n then
      let batch := listTerminalEvalsOldestFirst s batchSize
      if _hbatch : batch = [] then (s, stats, currentBytes)
      else
        let bytesAfter := env.rootedBytes (n + 1) (deleteBatch env s).roots
        let freed := currentBytes - bytesAfter
        let stats' := { stats with
          sizeDeleted := stats.sizeDeleted + batch.length
          bytesFreed := min (stats.bytesFreed + freed) u64Max }
        if _hfreed : freed = 0 ∧ 0 < batch.length then (deleteBatch env s, stats', bytesAfter)
        else sizeLoop env cap (deleteBatch env s) stats' bytesAfter (n + 1)
    else (s, stats, currentBytes)
  else (s, stats, currentBytes)
termination_by currentBytes
decreasing_by
  have := List.length_pos_iff.mpr _hbatch
  omega

/-- A gigabyte. -/
def bytesPerGb : ℕ := 1024 * 1024 * 1024

/-- `max_gb.saturating_mul(1024 * 1024 * 1024)` -/
def capOf (maxGb : ℕ) : ℕ := min (maxGb * bytesPerGb) u64Max

/-- `tick` -/
def tick (config : Config) (s : State) (env : Env) (now : ℤ) : State × TickStats :=
  let (s, stats) := agePass config s env now
  let currentBytes := env.rootedBytes 0 s.roots
  match config.retention.maxSizeGb with
  | none => (s, { stats with bytesRemaining := currentBytes })
  | some maxGb =>
    let (s, stats, currentBytes) := sizeLoop env (capOf maxGb) s stats currentBytes 0
    (s, { stats with bytesRemaining := currentBytes })

/-! ## What is wanted -/

/-- The bytes of the store paths that these directories pin, each path once. -/
def unionBytes (narSize : String → ℕ) (roots : List RootDir) : ℕ :=
  ∑ path ∈ (roots.flatMap (·.closure)).toFinset, narSize path

/-- The sizer is exact and nothing fails. -/
structure Env.Exact (env : Env) (narSize : String → ℕ) : Prop where
  bytes : ∀ n roots, env.rootedBytes n roots = unionBytes narSize roots
  list : ∀ n, env.listOldest n = true
  cascade : ∀ e, env.cascade e = true
  roots : ∀ e, env.removeRoots e = true

/-- The state without these evaluations and their directories. -/
def State.without (s : State) (es : List EvalRecord) : State :=
  { s with
    evals := s.evals.filter fun r => r.id ∉ es.map (·.id)
    unique := s.unique.sublist (List.filter_sublist.map _)
    logs := s.logs.filter fun d => d ∉ es.map fun e => (e.repoId, e.id)
    roots := s.roots.filter fun d => (d.repoId, d.evalId) ∉ es.map fun e => (e.repoId, e.id) }

/-- **The size pass meets its cap**: it ends under it or with no evaluation left that is over, and
    what it has deleted are the oldest ones that the age pass left. -/
def MeetsCap (narSize : String → ℕ) (maxGb : ℕ) (config : Config) (s : State) (env : Env)
    (now : ℤ) : Prop :=
  let before := (agePass config s env now).1
  let ended := (tick config s env now).1
  (unionBytes narSize ended.roots ≤ capOf maxGb ∨ ∀ r ∈ ended.evals, r.status.isTerminal = false) ∧
    ∃ k, ended.evals = (before.without ((terminalEvals before.evals).take k)).evals ∧
      ended.roots = (before.without ((terminalEvals before.evals).take k)).roots

/-- What is pinned after the `k` oldest evaluations are deleted. -/
def bytesAfter (narSize : String → ℕ) (s : State) (k : ℕ) : ℕ :=
  unionBytes narSize (s.without ((terminalEvals s.evals).take k)).roots

/-- Every batch that is over the cap and leaves something to delete frees something. -/
def EveryBatchFrees (narSize : String → ℕ) (cap : ℕ) (s : State) : Prop :=
  ∀ i, batchSize * (i + 1) < (terminalEvals s.evals).length →
    cap < bytesAfter narSize s (batchSize * i) →
    bytesAfter narSize s (batchSize * (i + 1)) < bytesAfter narSize s (batchSize * i)

/-! ## The oldest first -/

theorem older_trans (a b c : EvalRecord) (h₁ : older a b = true) (h₂ : older b c = true) :
    older a c = true := by
  simp only [older, Bool.or_eq_true, Bool.and_eq_true, decide_eq_true_eq] at *
  omega

theorem older_total (a b : EvalRecord) : (older a b || older b a) = true := by
  simp only [older, Bool.or_eq_true, Bool.and_eq_true, decide_eq_true_eq]
  omega

theorem id_eq_of_older {a b : EvalRecord} (h₁ : older a b = true) (h₂ : older b a = true) :
    a.id = b.id := by
  simp only [older, Bool.or_eq_true, Bool.and_eq_true, decide_eq_true_eq] at h₁ h₂
  have hid : a.id.get = b.id.get := by omega
  cases ha : a.id
  cases hb : b.id
  rw [ha, hb] at hid
  exact congrArg EvalId.mk hid

theorem pairwise_terminalEvals (evals : List EvalRecord) :
    (terminalEvals evals).Pairwise fun a b => older a b = true :=
  List.pairwise_mergeSort older_trans older_total _

theorem perm_terminalEvals (evals : List EvalRecord) :
    (terminalEvals evals).Perm
      (evals.filter fun r => r.status.isTerminal && r.finishedAt.isSome) :=
  List.mergeSort_perm _ _

theorem mem_terminalEvals {evals : List EvalRecord} {r : EvalRecord} :
    r ∈ terminalEvals evals ↔ r ∈ evals ∧ r.status.isTerminal = true := by
  rw [(perm_terminalEvals evals).mem_iff, List.mem_filter, Bool.and_eq_true]
  exact and_congr_right fun _ => ⟨fun h => h.1, fun h => ⟨h, r.finished h⟩⟩

theorem forall_not_terminal_iff {evals : List EvalRecord} :
    (∀ r ∈ evals, r.status.isTerminal = false) ↔ terminalEvals evals = [] := by
  rw [List.eq_nil_iff_forall_not_mem]
  refine forall_congr' fun r => ?_
  rw [mem_terminalEvals, not_and, Bool.not_eq_true]

theorem nodup_terminalEvals {evals : List EvalRecord} (h : (evals.map (·.id)).Nodup) :
    ((terminalEvals evals).map (·.id)).Nodup :=
  ((perm_terminalEvals evals).map _).nodup_iff.mpr (h.sublist (List.filter_sublist.map _))

/-- Rows of one id are one row. -/
theorem eq_of_id_eq {evals : List EvalRecord} (h : (evals.map (·.id)).Nodup) {a b : EvalRecord}
    (ha : a ∈ evals) (hb : b ∈ evals) (hid : a.id = b.id) : a = b :=
  List.inj_on_of_nodup_map h ha hb hid

/-- Deleting rows leaves the others in their order. -/
theorem terminalEvals_filter {evals : List EvalRecord} (h : (evals.map (·.id)).Nodup)
    (p : EvalRecord → Bool) :
    terminalEvals (evals.filter p) = (terminalEvals evals).filter p := by
  refine List.Perm.eq_of_pairwise (fun a b ha hb h₁ h₂ => ?_) (pairwise_terminalEvals _)
    ((pairwise_terminalEvals _).filter p) ?_
  · have hmem := (List.mem_filter.mp (mem_terminalEvals.mp ha).1).1
    exact eq_of_id_eq h hmem (mem_terminalEvals.mp (List.mem_filter.mp hb).1).1
      (id_eq_of_older h₁ h₂)
  · refine (perm_terminalEvals _).trans ?_
    refine List.Perm.trans ?_ ((perm_terminalEvals evals).filter p).symm
    rw [List.filter_filter, List.filter_filter]
    exact List.Perm.of_eq (List.filter_congr fun r _ => Bool.and_comm _ _)

/-- Without the first `k` of a list, the others are left. -/
theorem filter_not_mem_take {l : List EvalRecord} (h : (l.map (·.id)).Nodup) (k : ℕ) :
    (l.filter fun r => r.id ∉ (l.take k).map (·.id)) = l.drop k := by
  conv_lhs => arg 2; rw [← List.take_append_drop k l]
  rw [← List.take_append_drop k l, List.map_append, List.nodup_append] at h
  rw [List.filter_append, List.filter_eq_nil_iff.mpr, List.filter_eq_self.mpr, List.nil_append]
  · intro r hr
    refine decide_eq_true fun hm => ?_
    exact h.2.2 _ hm _ (List.mem_map_of_mem hr) rfl
  · intro r hr hn
    exact of_decide_eq_true hn (List.mem_map_of_mem hr)

namespace State

theorem terminalEvals_without_take (s : State) (k : ℕ) :
    terminalEvals (s.without ((terminalEvals s.evals).take k)).evals =
      (terminalEvals s.evals).drop k :=
  (terminalEvals_filter s.unique _).trans (filter_not_mem_take (nodup_terminalEvals s.unique) k)

theorem evals_without_append (s : State) (es es' : List EvalRecord) :
    (s.without (es ++ es')).evals = ((s.without es).without es').evals := by
  simp only [without, List.filter_filter]
  refine List.filter_congr fun r _ => ?_
  rw [List.map_append, ← Bool.decide_and]
  exact decide_eq_decide.mpr (by rw [List.mem_append, not_or, and_comm])

theorem roots_without_append (s : State) (es es' : List EvalRecord) :
    (s.without (es ++ es')).roots = ((s.without es).without es').roots := by
  simp only [without, List.filter_filter]
  refine List.filter_congr fun r _ => ?_
  rw [List.map_append, ← Bool.decide_and]
  exact decide_eq_decide.mpr (by rw [List.mem_append, not_or, and_comm])

end State

/-! ## A batch -/

section

variable {env : Env} {narSize : String → ℕ}

theorem Env.Exact.foldl_deleteEval (h : env.Exact narSize) (s : State) (es : List EvalRecord) :
    (es.foldl (deleteEval env) s).evals = (s.without es).evals ∧
      (es.foldl (deleteEval env) s).roots = (s.without es).roots := by
  induction es generalizing s with
  | nil => simp [State.without]
  | cons e es ih =>
    have hone : (deleteEval env s e).evals = (s.without [e]).evals ∧
        (deleteEval env s e).roots = (s.without [e]).roots := by
      rw [deleteEval, if_pos (h.cascade e.id), if_pos (h.roots e.id)]
      simp [State.without]
    have hrest := ih (deleteEval env s e)
    rw [List.foldl_cons, hrest.1, hrest.2]
    constructor
    · rw [← List.singleton_append, State.evals_without_append]
      simp only [State.without] at hone ⊢
      rw [hone.1]
    · rw [← List.singleton_append, State.roots_without_append]
      simp only [State.without] at hone ⊢
      rw [hone.2]

/-- A batch takes the next eight. -/
theorem Env.Exact.deleteBatch (h : env.Exact narSize) {s t : State} {k : ℕ}
    (hevals : t.evals = (s.without ((terminalEvals s.evals).take k)).evals)
    (hroots : t.roots = (s.without ((terminalEvals s.evals).take k)).roots) :
    (Gc.deleteBatch env t).evals =
        (s.without ((terminalEvals s.evals).take (k + batchSize))).evals ∧
      (Gc.deleteBatch env t).roots =
        (s.without ((terminalEvals s.evals).take (k + batchSize))).roots := by
  have hbatch : listTerminalEvalsOldestFirst t batchSize =
      ((terminalEvals s.evals).drop k).take batchSize := by
    rw [listTerminalEvalsOldestFirst, hevals, State.terminalEvals_without_take]
  have hfold := h.foldl_deleteEval t (((terminalEvals s.evals).drop k).take batchSize)
  rw [Gc.deleteBatch, hbatch, hfold.1, hfold.2, List.take_add, State.evals_without_append,
    State.roots_without_append]
  constructor
  · simp only [State.without] at hevals ⊢
    rw [hevals]
  · simp only [State.without] at hroots ⊢
    rw [hroots]

/-- Fewer directories pin less. -/
theorem unionBytes_mono {roots roots' : List RootDir} (h : roots ⊆ roots') :
    unionBytes narSize roots ≤ unionBytes narSize roots' := by
  refine Finset.sum_le_sum_of_subset fun path hp => ?_
  rw [List.mem_toFinset, List.mem_flatMap] at hp ⊢
  obtain ⟨d, hd, hp⟩ := hp
  exact ⟨d, h hd, hp⟩

theorem bytesAfter_anti (s : State) {j k : ℕ} (h : j ≤ k) :
    bytesAfter narSize s k ≤ bytesAfter narSize s j := by
  refine unionBytes_mono fun d hd => ?_
  obtain ⟨hd, hn⟩ := List.mem_filter.mp hd
  refine List.mem_filter.mpr ⟨hd, decide_eq_true fun hm => of_decide_eq_true hn ?_⟩
  obtain ⟨e, he, heq⟩ := List.mem_map.mp hm
  exact List.mem_map.mpr ⟨e, (List.take_subset_take_left _ h) he, heq⟩

/-! ## The loop -/

/-- The size pass, after `i` batches, goes on to `m`: every batch but the last has freed something,
    and it stops under the cap, with nothing left, or because the last batch has freed nothing. -/
theorem Env.Exact.sizeLoop (h : env.Exact narSize) (cap : ℕ) (s : State) :
    ∀ (t : State) (stats : TickStats) (i n : ℕ),
      t.evals = (s.without ((terminalEvals s.evals).take (batchSize * i))).evals →
      t.roots = (s.without ((terminalEvals s.evals).take (batchSize * i))).roots →
      ∃ m ≥ i,
        let ended := Gc.sizeLoop env cap t stats (bytesAfter narSize s (batchSize * i)) n
        ended.1.evals = (s.without ((terminalEvals s.evals).take (batchSize * m))).evals ∧
          ended.1.roots = (s.without ((terminalEvals s.evals).take (batchSize * m))).roots ∧
          (∀ j, i ≤ j → j + 1 < m → bytesAfter narSize s (batchSize * (j + 1)) <
            bytesAfter narSize s (batchSize * j)) ∧
          (bytesAfter narSize s (batchSize * m) ≤ cap ∨
            (terminalEvals s.evals).length ≤ batchSize * m ∨
            ∃ j, m = j + 1 ∧ cap < bytesAfter narSize s (batchSize * j) ∧
              bytesAfter narSize s (batchSize * j) ≤ bytesAfter narSize s (batchSize * m)) := by
  intro t stats i n
  induction hb : bytesAfter narSize s (batchSize * i) using Nat.strongRecOn
    generalizing t stats i n with
  | _ b ih =>
    intro hevals hroots
    by_cases hcap : b > cap
    · have hbatch : listTerminalEvalsOldestFirst t batchSize =
          ((terminalEvals s.evals).drop (batchSize * i)).take batchSize := by
        rw [listTerminalEvalsOldestFirst, hevals, State.terminalEvals_without_take]
      by_cases hnil : listTerminalEvalsOldestFirst t batchSize = []
      · -- the store has nothing left
        have hlen : (terminalEvals s.evals).length ≤ batchSize * i := by
          rw [hbatch, List.take_eq_nil_iff, List.drop_eq_nil_iff] at hnil
          exact hnil.resolve_left (by decide)
        refine ⟨i, Nat.le_refl i, ?_⟩
        rw [Gc.sizeLoop, if_pos hcap, if_pos (h.list n)]
        simp only [dif_pos hnil]
        exact ⟨hevals, hroots, fun j h₁ h₂ => absurd h₂ (by omega), .inr (.inl hlen)⟩
      · have hpos : 0 < (listTerminalEvalsOldestFirst t batchSize).length :=
          List.length_pos_iff.mpr hnil
        obtain ⟨hevals', hroots'⟩ := h.deleteBatch hevals hroots
        rw [← Nat.mul_succ] at hevals' hroots'
        have hafter : env.rootedBytes (n + 1) (Gc.deleteBatch env t).roots =
            bytesAfter narSize s (batchSize * (i + 1)) := by
          rw [h.bytes, hroots']
          rfl
        by_cases hfreed : b - bytesAfter narSize s (batchSize * (i + 1)) = 0
        · -- the batch has freed nothing, and the pass gives up
          refine ⟨i + 1, Nat.le_succ i, ?_⟩
          rw [Gc.sizeLoop, if_pos hcap, if_pos (h.list n)]
          simp only [dif_neg hnil, hafter, hfreed, true_and, dif_pos hpos]
          refine ⟨hevals', hroots', fun j h₁ h₂ => absurd h₂ (by omega), .inr (.inr ⟨i, rfl, ?_⟩)⟩
          rw [hb]
          exact ⟨hcap, by omega⟩
        · obtain ⟨m, hm, hended⟩ := ih _ (by omega) (Gc.deleteBatch env t)
            { stats with
              sizeDeleted := stats.sizeDeleted + (listTerminalEvalsOldestFirst t batchSize).length
              bytesFreed := min (stats.bytesFreed +
                (b - bytesAfter narSize s (batchSize * (i + 1)))) u64Max }
            (i + 1) (n + 1) rfl hevals' hroots'
          refine ⟨m, by omega, ?_⟩
          rw [Gc.sizeLoop, if_pos hcap, if_pos (h.list n)]
          simp only [dif_neg hnil, hafter, hfreed, false_and, dif_neg not_false]
          obtain ⟨h₁, h₂, h₃, h₄⟩ := hended
          refine ⟨h₁, h₂, fun j hj hjm => ?_, h₄⟩
          rcases Nat.eq_or_lt_of_le hj with rfl | hj
          · rw [hb]
            omega
          · exact h₃ j hj hjm
    · refine ⟨i, Nat.le_refl i, ?_⟩
      rw [Gc.sizeLoop, if_neg hcap]
      refine ⟨hevals, hroots, fun j h₁ h₂ => absurd h₂ (by omega), .inl ?_⟩
      rw [hb]
      omega

theorem tick_of_maxSizeGb {config : Config} {maxGb : ℕ} (s : State) (now : ℤ)
    (hgb : config.retention.maxSizeGb = some maxGb) :
    (tick config s env now).1 =
      (Gc.sizeLoop env (capOf maxGb) (agePass config s env now).1 (agePass config s env now).2
        (env.rootedBytes 0 (agePass config s env now).1.roots) 0).1 := by
  rw [tick, hgb]

theorem meetsCap_iff_frees {config : Config} {maxGb : ℕ} {s : State} {now : ℤ}
    (hgb : config.retention.maxSizeGb = some maxGb) (h : env.Exact narSize) :
    MeetsCap narSize maxGb config s env now ↔
      EveryBatchFrees narSize (capOf maxGb) (agePass config s env now).1 := by
  have hstart : ∀ t : State, env.rootedBytes 0 t.roots = bytesAfter narSize t (batchSize * 0) := by
    intro t
    rw [h.bytes]
    simp [bytesAfter, State.without]
  have hnone : ∀ t : State,
      t.evals = (t.without ((terminalEvals t.evals).take (batchSize * 0))).evals ∧
      t.roots = (t.without ((terminalEvals t.evals).take (batchSize * 0))).roots := by
    intro t
    simp [State.without]
  unfold MeetsCap
  rw [tick_of_maxSizeGb s now hgb]
  generalize (agePass config s env now).1 = t
  generalize (agePass config s env now).2 = stats
  obtain ⟨m, -, hevals, hroots, hfrees, hstop⟩ :=
    h.sizeLoop (capOf maxGb) t t stats 0 0 (hnone t).1 (hnone t).2
  rw [← hstart] at hevals hroots
  have hleft : (∀ r ∈ (Gc.sizeLoop env (capOf maxGb) t stats (env.rootedBytes 0 t.roots) 0).1.evals,
      r.status.isTerminal = false) ↔ (terminalEvals t.evals).length ≤ batchSize * m := by
    rw [hevals, forall_not_terminal_iff, State.terminalEvals_without_take, List.drop_eq_nil_iff]
  have hbytes : unionBytes narSize
      (Gc.sizeLoop env (capOf maxGb) t stats (env.rootedBytes 0 t.roots) 0).1.roots =
        bytesAfter narSize t (batchSize * m) := by
    rw [hroots]
    rfl
  show (_ ∨ _) ∧ _ ↔ _
  rw [hleft, hbytes]
  constructor
  · intro ⟨hmeets, _⟩ i hi hcap
    by_cases him : i + 1 < m
    · exact hfrees i (Nat.zero_le i) him
    · -- the pass has stopped by then, so it is under the cap
      rcases hmeets with hmeets | hmeets
      · rcases Nat.lt_or_ge m (i + 1) with hlt | hge
        · have hmore :
              bytesAfter narSize t (batchSize * i) ≤ bytesAfter narSize t (batchSize * m) :=
            bytesAfter_anti t (Nat.mul_le_mul_left batchSize (Nat.le_of_lt_succ hlt))
          omega
        · obtain rfl : m = i + 1 := by omega
          omega
      · have := Nat.mul_le_mul_left batchSize (Nat.not_lt.mp him)
        omega
  · intro hbatch
    refine ⟨?_, _, hevals, hroots⟩
    rcases hstop with hstop | hstop | ⟨j, rfl, hcap, hsame⟩
    · exact .inl hstop
    · exact .inr hstop
    · refine .inr (Nat.not_lt.mp fun hlt => ?_)
      have := hbatch j hlt hcap
      omega

end

/-! ## One image in nine evaluations -/

/-- Every store path has two gigabytes. -/
def twoGb (_ : String) : ℕ := 2 * bytesPerGb

/-- Every call succeeds, and the closures are measured right. -/
def exactEnv : Env where
  rootedBytes _ := unionBytes twoGb
  find _ := true
  listOlder _ := true
  listOldest _ := true
  cascade _ := true
  removeLogs _ := true
  removeRoots _ := true

theorem exactEnv_exact : exactEnv.Exact twoGb := ⟨fun _ _ => rfl, fun _ => rfl, fun _ => rfl,
  fun _ => rfl⟩

/-- No bound on the age, one gigabyte for all. -/
def oneGb : Config := { repos := [], retention := { maxAgeDays := none, maxSizeGb := some 1 } }

/-- An evaluation that ended at this time. -/
def doneAt (i : ℕ) : EvalRecord := ⟨⟨i⟩, ⟨1⟩, .done, some i, fun _ => rfl⟩

/-- Evaluations that have built the same image. -/
def sameImage (n : ℕ) : State where
  repos := []
  evals := (List.range n).map doneAt
  unique := by
    rw [List.map_map]
    refine List.nodup_range.map fun i j hij => ?_
    exact Int.ofNat.inj (EvalId.mk.inj hij)
  logs := []
  roots := (List.range n).map fun i => ⟨⟨1⟩, ⟨i⟩, ["/nix/store/image"]⟩

theorem terminalEvals_sameImage (n : ℕ) :
    terminalEvals (sameImage n).evals = (sameImage n).evals := by
  have hall : ((sameImage n).evals.filter fun r => r.status.isTerminal && r.finishedAt.isSome) =
      (sameImage n).evals := by
    refine List.filter_eq_self.mpr fun r hr => ?_
    obtain ⟨i, -, rfl⟩ := List.mem_map.mp hr
    rfl
  rw [terminalEvals, hall]
  refine List.mergeSort_of_pairwise (List.pairwise_map.mpr ?_)
  refine List.pairwise_lt_range.imp fun {i j} hij => ?_
  simp [older, doneAt, hij]

/-- All but the first have built the same image. -/
def newImage (n : ℕ) : State where
  repos := []
  evals := (sameImage n).evals
  unique := (sameImage n).unique
  logs := []
  roots := (List.range n).map fun i =>
    ⟨⟨1⟩, ⟨i⟩, [if i = 0 then "/nix/store/first" else "/nix/store/image"]⟩

theorem terminalEvals_newImage (n : ℕ) :
    terminalEvals (newImage n).evals = (newImage n).evals :=
  terminalEvals_sameImage n

end Argunix.Daemon.Gc
