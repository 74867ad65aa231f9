import Mathlib.Data.String.Basic
import Mathlib.Data.Finset.Card
import Argunix.Lib.Group
import Argunix.Daemon.Resume

/-!
# Decisions over the whole Job set, and a resume

Three decisions of an evaluation read *all* of its Jobs. `suppressedPushJobIds` and `classify`
group the image Jobs by their logical name, so that the per-arch slices of one image are pushed
together and not one by one; `collapsedMode` counts the Jobs. All three are computed from what the
build phase was handed, and a resumed phase is handed the queued rows only.

`decisions_kept_iff` says exactly when a resumed phase decides as the first one did: no image Job
that shares its name has left `queued`, and the count has not dropped to the other side of the
threshold. `not_decisions_kept_slice` is an image of two slices, one of which was built before the
crash: the other is then pushed alone.
-/

set_option autoImplicit false

namespace Argunix.Daemon

open Argunix.Lib Argunix.Sched Argunix.Sched.DagStrategy Argunix.Eval Argunix.Store

/-! ## Logical image names -/

/-- What follows the first dot. -/
def afterDot : List Char → Option (List Char)
  | [] => none
  | c :: cs => if c = '.' then some cs else afterDot cs

/-- `image_segment`: the third piece of the attr path (or all of it), in lower case and with its
    dots replaced. -/
def imageSegment (attrPath : String) : String :=
  let leaf := ((afterDot attrPath.toList).bind afterDot).getD attrPath.toList
  String.ofList ((leaf.map Char.toLower).map fun c => if c = '.' then '-' else c)

/-! ## Grouping -/

/-- `specs_by_id` -/
def specsById (persisted : Persisted) : HashMap JobId JobSpec :=
  persisted.foldl (fun m p => m.insert p.2 p.1) ∅

/-- The image Jobs, in iteration order. -/
def imageJobs (specs : HashMap JobId JobSpec) : List (JobId × JobSpec) :=
  (specs.entries.map fun e => (e.1, e.2)).filter fun x => x.2.imageFormat.isSome

/-- The logical name of an image Job. -/
def segmentOf (x : JobId × JobSpec) : String := imageSegment x.2.attrPath

/-- `by_name`, without the lone images. -/
def sharedNames (specs : HashMap JobId JobSpec) : List (String × List (JobId × JobSpec)) :=
  (group segmentOf (imageJobs specs)).filter fun e => 2 ≤ e.2.length

/-- `suppressed_push_job_ids`, in the order they are collected. -/
def suppressedPushJobIds (specs : HashMap JobId JobSpec) : List JobId :=
  (sharedNames specs).flatMap fun e => e.2.map Prod.fst

/-- The columns of a `JobRecord` that `classify` reads. -/
structure JobRecord where
  id : JobId
  status : JobStatus
  outputPath : Option String
deriving DecidableEq, Repr

/-- A slice that was built and is to be pushed. -/
structure PendingSlice where
  jobId : JobId
  system : String
  archive : String
  attrPath : String
  sbomRuntimeRoots : List String
deriving DecidableEq, Repr

/-- What the fan-in makes of the images of one name. -/
inductive ImageGroup
  | multiArch (name : String) (slices : List PendingSlice) (missing : List String)
  | clash (name : String) (anchor : JobId) (detail : String)
deriving DecidableEq, Repr

/-- `rec.get(job_id)`: the map keeps the last record of an id. -/
def recordOf (records : List JobRecord) (jobId : JobId) : Option JobRecord :=
  records.reverse.find? fun r => r.id = jobId

/-- A member's archive, if it was built. -/
def builtArchive (records : List JobRecord) (jobId : JobId) : Option String :=
  match recordOf records jobId with
  | some r => if r.status = .success ∨ r.status = .cached then r.outputPath else none
  | none => none

/-- The system a slice is for. -/
def sliceSystem (spec : JobSpec) : String := spec.system.getD "unknown"

/-- The members that were built. -/
def slicesOf (records : List JobRecord) (members : List (JobId × JobSpec)) : List PendingSlice :=
  members.filterMap fun x => (builtArchive records x.1).map fun archive =>
    { jobId := x.1
      system := sliceSystem x.2
      archive := archive
      attrPath := x.2.attrPath
      sbomRuntimeRoots := x.2.sbomRuntimeRoots }

/-- The systems of those that were not. -/
def missingOf (records : List JobRecord) (members : List (JobId × JobSpec)) : List String :=
  (members.filter fun x => (builtArchive records x.1).isNone).map fun x => sliceSystem x.2

/-- How many of them are complete images. -/
def ociCount (members : List (JobId × JobSpec)) : ℕ :=
  members.countP fun x => x.2.imageFormat = some .oci

/-- The smallest id. A group has members, so the default is not reached. -/
def anchorOf (members : List (JobId × JobSpec)) : JobId :=
  ⟨((members.map fun x => x.1.get).min?).getD 0⟩

/-- What the check says of a name that is used twice. -/
def clashDetail (members oci : ℕ) : String :=
  toString members ++ " image jobs share this name across systems, " ++ toString oci ++
    " of them `oci` — a complete multi-arch `oci` image needs a single system output, or " ++
    "expose per-arch `docker` outputs so argunix assembles the index"

/-- One name. -/
def classifyGroup (records : List JobRecord) (e : String × List (JobId × JobSpec)) : ImageGroup :=
  if 1 ≤ ociCount e.2 then
    .clash e.1 (anchorOf e.2) (clashDetail e.2.length (ociCount e.2))
  else .multiArch e.1 (slicesOf records e.2) (missingOf records e.2)

/-- `classify` -/
def classify (specs : HashMap JobId JobSpec) (records : List JobRecord) : List ImageGroup :=
  (sharedNames specs).map (classifyGroup records)

/-- `total as u32 > threshold` -/
def collapsedMode (total : ℕ) (threshold : UInt32) : Bool := threshold < UInt32.ofNat total

/-! ## The same decisions -/

/-- The same group; the order of its members is the hash map's. -/
inductive ImageGroup.Same : ImageGroup → ImageGroup → Prop
  | multiArch {name : String} {slices slices' : List PendingSlice} {missing missing' : List String} :
      slices.Perm slices' → missing.Perm missing' →
      Same (.multiArch name slices missing) (.multiArch name slices' missing')
  | clash (name : String) (anchor : JobId) (detail : String) :
      Same (.clash name anchor detail) (.clash name anchor detail)

/-- **Two phases decide alike**, whatever the order of their maps and whatever the builds come
    to. -/
structure SameDecisions (threshold : UInt32) (persisted resumed : Persisted) : Prop where
  suppressed : ∀ m m', HashMap.Shuffle (specsById persisted) m →
    HashMap.Shuffle (specsById resumed) m' →
    ∀ j, j ∈ suppressedPushJobIds m ↔ j ∈ suppressedPushJobIds m'
  groups : ∀ m m', HashMap.Shuffle (specsById persisted) m →
    HashMap.Shuffle (specsById resumed) m' →
    ∀ records, List.Forall₂ ImageGroup.Same (classify m records) (classify m' records)
  collapsed : collapsedMode persisted.length threshold = collapsedMode resumed.length threshold

/-- An image Job that shares its logical name with another one. -/
def SharesName (persisted : Persisted) (p : JobSpec × JobId) : Prop :=
  p.1.imageFormat.isSome = true ∧ ∃ q ∈ persisted, q.2 ≠ p.2 ∧ q.1.imageFormat.isSome = true ∧
    imageSegment q.1.attrPath = imageSegment p.1.attrPath

instance (persisted : Persisted) (p : JobSpec × JobId) : Decidable (SharesName persisted p) :=
  inferInstanceAs (Decidable (_ ∧ _))

/-! ## Maps and lists -/

/-- The image Jobs of a list, in its order. -/
def imagesOf (persisted : Persisted) : List (JobId × JobSpec) :=
  (persisted.map Prod.swap).filter fun x => x.2.imageFormat.isSome

theorem entries_specsById {persisted : Persisted} (hnd : (persisted.map Prod.snd).Nodup) :
    ((specsById persisted).entries.map fun e => (e.1, e.2)).Perm (persisted.map Prod.swap) := by
  have hfold : ∀ (ps : Persisted) (m : HashMap JobId JobSpec), (ps.map Prod.snd).Nodup →
      (∀ p ∈ ps, p.2 ∉ m) →
      ((ps.foldl (fun m p => m.insert p.2 p.1) m).entries.map fun e => (e.1, e.2)).Perm
        (ps.map Prod.swap ++ m.entries.map fun e => (e.1, e.2)) := by
    intro ps
    induction ps with
    | nil => exact fun m _ _ => .refl _
    | cons p ps ih =>
      intro m hnd hnew
      obtain ⟨hp, hnd⟩ := List.nodup_cons.mp hnd
      have hfresh : ∀ q ∈ ps, q.2 ∉ m.insert p.2 p.1 := by
        intro q hq hmem
        rcases (AList.mem_insert m).mp hmem with heq | hmem
        · exact hp (heq ▸ List.mem_map_of_mem hq)
        · exact hnew q (by simp [hq]) hmem
      refine (ih (m.insert p.2 p.1) hnd hfresh).trans ?_
      rw [AList.entries_insert_of_notMem (hnew p (by simp))]
      exact List.perm_middle
  have hall := hfold persisted ∅ hnd (by simp)
  rwa [AList.empty_entries, List.map_nil, List.append_nil] at hall

theorem imageJobs_perm {persisted : Persisted} (hnd : (persisted.map Prod.snd).Nodup)
    {m : HashMap JobId JobSpec} (hm : HashMap.Shuffle (specsById persisted) m) :
    (imageJobs m).Perm (imagesOf persisted) :=
  ((hm.symm.map _).trans (entries_specsById hnd)).filter _

theorem mem_imagesOf {persisted : Persisted} {x : JobId × JobSpec} :
    x ∈ imagesOf persisted ↔ x.swap ∈ persisted ∧ x.2.imageFormat.isSome = true := by
  rw [imagesOf, List.mem_filter, List.mem_map]
  constructor
  · rintro ⟨⟨p, hp, rfl⟩, himg⟩
    exact ⟨hp, himg⟩
  · rintro ⟨hp, himg⟩
    exact ⟨⟨x.swap, hp, rfl⟩, himg⟩

theorem nodup_imagesOf {persisted : Persisted} (hnd : (persisted.map Prod.snd).Nodup) :
    (imagesOf persisted).Nodup :=
  (hnd.of_map.map Prod.swap_injective).filter _

/-! ## Which Jobs share their name -/

theorem two_le_length_iff {α : Type} [DecidableEq α] {l : List α} (hnd : l.Nodup) {x : α}
    (hx : x ∈ l) : 2 ≤ l.length ↔ ∃ y ∈ l, y ≠ x := by
  rw [← List.toFinset_card_of_nodup hnd]
  constructor
  · intro h
    obtain ⟨y, hy, hne⟩ := Finset.exists_mem_ne h x
    exact ⟨y, List.mem_toFinset.mp hy, hne⟩
  · rintro ⟨y, hy, hne⟩
    exact Finset.one_lt_card_iff.mpr
      ⟨y, x, List.mem_toFinset.mpr hy, List.mem_toFinset.mpr hx, hne⟩

/-- The image Jobs under a name. -/
theorem mem_under_imagesOf {persisted : Persisted} {k : String} {x : JobId × JobSpec} :
    x ∈ under segmentOf k (imagesOf persisted) ↔
      (x.swap ∈ persisted ∧ x.2.imageFormat.isSome = true) ∧ segmentOf x = k := by
  rw [under, List.mem_filter, mem_imagesOf, decide_eq_true_eq]

theorem sharesName_iff {persisted : Persisted} (hnd : (persisted.map Prod.snd).Nodup)
    {p : JobSpec × JobId} (hp : p ∈ persisted) :
    SharesName persisted p ↔ p.1.imageFormat.isSome = true ∧
      2 ≤ (under segmentOf (imageSegment p.1.attrPath) (imagesOf persisted)).length := by
  refine and_congr_right fun himg => ?_
  have hx : p.swap ∈ under segmentOf (imageSegment p.1.attrPath) (imagesOf persisted) :=
    mem_under_imagesOf.mpr ⟨⟨hp, himg⟩, rfl⟩
  have hnd' : (under segmentOf (imageSegment p.1.attrPath) (imagesOf persisted)).Nodup :=
    (nodup_imagesOf hnd).filter _
  rw [two_le_length_iff hnd' hx]
  constructor
  · rintro ⟨q, hq, hne, hqi, hseg⟩
    refine ⟨q.swap, mem_under_imagesOf.mpr ⟨⟨hq, hqi⟩, hseg⟩, fun heq => hne ?_⟩
    exact congrArg Prod.fst heq
  · rintro ⟨y, hy, hne⟩
    obtain ⟨⟨hq, hqi⟩, hseg⟩ := mem_under_imagesOf.mp hy
    refine ⟨y.swap, hq, fun heq => hne ?_, hqi, hseg⟩
    have := List.inj_on_of_nodup_map hnd hq hp heq
    rw [← this, Prod.swap_swap]

theorem mem_suppressedPushJobIds {persisted : Persisted} (hnd : (persisted.map Prod.snd).Nodup)
    {m : HashMap JobId JobSpec} (hm : HashMap.Shuffle (specsById persisted) m) {j : JobId} :
    j ∈ suppressedPushJobIds m ↔ ∃ p ∈ persisted, p.2 = j ∧ SharesName persisted p := by
  have hperm := imageJobs_perm hnd hm
  have hgroup := grouped_group segmentOf (imageJobs m)
  have hunder : ∀ k, (under segmentOf k (imageJobs m)).Perm
      (under segmentOf k (imagesOf persisted)) := fun k => hperm.filter _
  simp only [suppressedPushJobIds, sharedNames, List.mem_flatMap, List.mem_filter, List.mem_map,
    decide_eq_true_eq]
  constructor
  · rintro ⟨e, ⟨he, hlen⟩, x, hx, rfl⟩
    rw [hgroup.items e he, (hunder e.1).mem_iff] at hx
    obtain ⟨⟨hp, himg⟩, hseg⟩ := mem_under_imagesOf.mp hx
    refine ⟨x.swap, hp, rfl, (sharesName_iff hnd hp).mpr ⟨himg, ?_⟩⟩
    rw [hgroup.items e he, (hunder e.1).length_eq, ← hseg] at hlen
    exact hlen
  · rintro ⟨p, hp, rfl, hshares⟩
    obtain ⟨himg, hlen⟩ := (sharesName_iff hnd hp).mp hshares
    have hx : p.swap ∈ imageJobs m := hperm.mem_iff.mpr (mem_imagesOf.mpr ⟨hp, himg⟩)
    obtain ⟨e, he, hkey⟩ := List.mem_map.mp
      ((hgroup.keys (segmentOf p.swap)).mpr (List.mem_map_of_mem hx))
    have hitems := hgroup.items e he
    rw [hkey] at hitems
    refine ⟨e, ⟨he, ?_⟩, p.swap, ?_, rfl⟩
    · rw [hitems, (hunder _).length_eq]
      exact hlen
    · rw [hitems, (hunder _).mem_iff]
      exact mem_under_imagesOf.mpr ⟨⟨hp, himg⟩, rfl⟩

/-! ## Groups -/

theorem anchorOf_perm {members members' : List (JobId × JobSpec)} (h : members.Perm members') :
    anchorOf members = anchorOf members' := by
  have hmin : (members.map fun x => x.1.get).min? = (members'.map fun x => x.1.get).min? := by
    ext a
    rw [List.min?_eq_some_iff, List.min?_eq_some_iff]
    simp only [(h.map fun x => x.1.get).mem_iff]
  rw [anchorOf, anchorOf, hmin]

/-- The order of its members does not change what a group is. -/
theorem same_classifyGroup (records : List JobRecord) (name : String)
    {members members' : List (JobId × JobSpec)} (h : members.Perm members') :
    ImageGroup.Same (classifyGroup records (name, members))
      (classifyGroup records (name, members')) := by
  have hoci : ociCount members = ociCount members' := h.countP_eq _
  unfold classifyGroup
  simp only [hoci, h.length_eq, anchorOf_perm h]
  split
  · exact .clash name _ _
  · exact .multiArch (h.filterMap _) ((h.filter _).map _)

theorem forall₂_classify {m m' : HashMap JobId JobSpec}
    (hkeep : ∀ k, 2 ≤ (under segmentOf k (imageJobs m)).length ↔
      2 ≤ (under segmentOf k (imageJobs m')).length)
    (hperm : ∀ k, 2 ≤ (under segmentOf k (imageJobs m)).length →
      (under segmentOf k (imageJobs m)).Perm (under segmentOf k (imageJobs m')))
    (records : List JobRecord) :
    List.Forall₂ ImageGroup.Same (classify m records) (classify m' records) := by
  -- a name with members is a key
  have hkey : ∀ {xs : List (JobId × JobSpec)} {k : String},
      2 ≤ (under segmentOf k xs).length → k ∈ xs.map segmentOf := by
    intro xs k hlen
    obtain ⟨x, hx⟩ := List.exists_mem_of_length_pos (Nat.lt_of_lt_of_le Nat.two_pos hlen)
    obtain ⟨hmem, hseg⟩ := List.mem_filter.mp hx
    exact List.mem_map.mpr ⟨x, hmem, by simpa using hseg⟩
  unfold classify sharedNames
  rw [List.forall₂_map_left_iff, List.forall₂_map_right_iff]
  refine forall₂_group (p := fun xs => decide (2 ≤ xs.length))
    (q := fun xs => decide (2 ≤ xs.length)) (fun k => ?_) fun k hlen => ?_
  · simp only [decide_eq_true_eq]
    constructor
    · exact fun h => ⟨hkey ((hkeep k).mp h.2), (hkeep k).mp h.2⟩
    · exact fun h => ⟨hkey ((hkeep k).mpr h.2), (hkeep k).mpr h.2⟩
  · exact same_classifyGroup records k (hperm k (by simpa using hlen))

/-! ## The resumed phase -/

variable {row : EvalRow} {persisted : Persisted}

theorem imagesOf_stillQueued (row : EvalRow) (persisted : Persisted) :
    imagesOf (stillQueued row persisted) =
      (imagesOf persisted).filter fun x => row.jobStatus x.1 = some .queued := by
  unfold imagesOf stillQueued
  rw [List.filter_comm, List.filter_map (l := persisted)]
  rfl

theorem nodup_stillQueued (hnd : (persisted.map Prod.snd).Nodup) :
    ((stillQueued row persisted).map Prod.snd).Nodup :=
  hnd.sublist (List.filter_sublist.map _)

/-- No image Job that shares its name has left `queued`. -/
def SlicesQueued (row : EvalRow) (persisted : Persisted) : Prop :=
  ∀ p ∈ persisted, SharesName persisted p → row.jobStatus p.2 = some .queued

instance (row : EvalRow) (persisted : Persisted) : Decidable (SlicesQueued row persisted) :=
  inferInstanceAs (Decidable (∀ p ∈ persisted, SharesName persisted p → _))

/-- A group of which nothing is lost. -/
theorem under_stillQueued (hnd : (persisted.map Prod.snd).Nodup) (h : SlicesQueued row persisted)
    {k : String} (hlen : 2 ≤ (under segmentOf k (imagesOf persisted)).length) :
    under segmentOf k (imagesOf (stillQueued row persisted)) =
      under segmentOf k (imagesOf persisted) := by
  rw [imagesOf_stillQueued, under, List.filter_comm]
  refine List.filter_eq_self.mpr fun x hx => ?_
  obtain ⟨⟨hp, himg⟩, hseg⟩ := mem_under_imagesOf.mp hx
  have hshares : SharesName persisted x.swap :=
    (sharesName_iff hnd hp).mpr ⟨himg, by rw [← hseg] at hlen; exact hlen⟩
  simpa using h x.swap hp hshares

theorem length_under_stillQueued_le (row : EvalRow) (persisted : Persisted) (k : String) :
    (under segmentOf k (imagesOf (stillQueued row persisted))).length ≤
      (under segmentOf k (imagesOf persisted)).length := by
  rw [imagesOf_stillQueued]
  exact (List.filter_sublist.filter _).length_le

theorem sharesName_stillQueued (h : SlicesQueued row persisted) {p : JobSpec × JobId}
    (hp : p ∈ persisted) :
    (p ∈ stillQueued row persisted ∧ SharesName (stillQueued row persisted) p) ↔
      SharesName persisted p := by
  constructor
  · rintro ⟨-, himg, q, hq, hrest⟩
    exact ⟨himg, q, (List.mem_filter.mp hq).1, hrest⟩
  · intro hshares
    have hqueued := h p hp hshares
    obtain ⟨himg, q, hq, hne, hqi, hseg⟩ := hshares
    have hqshares : SharesName persisted q := ⟨hqi, p, hp, hne.symm, himg, hseg.symm⟩
    refine ⟨List.mem_filter.mpr ⟨hp, by simpa using hqueued⟩, himg, q, ?_, hne, hqi, hseg⟩
    exact List.mem_filter.mpr ⟨hq, by simpa using h q hq hqshares⟩

/-- **When a resumed phase decides as the first one did.** -/
theorem sameDecisions_iff (hnd : (persisted.map Prod.snd).Nodup) (threshold : UInt32) :
    SameDecisions threshold persisted (stillQueued row persisted) ↔
      SlicesQueued row persisted ∧
        collapsedMode persisted.length threshold =
          collapsedMode (stillQueued row persisted).length threshold := by
  have hnd' : ((stillQueued row persisted).map Prod.snd).Nodup := nodup_stillQueued hnd
  constructor
  · intro h
    refine ⟨fun p hp hshares => ?_, h.collapsed⟩
    have hsup := (mem_suppressedPushJobIds hnd (.refl _)).mpr ⟨p, hp, rfl, hshares⟩
    obtain ⟨q, hq, heq, -⟩ := (mem_suppressedPushJobIds hnd' (.refl _)).mp
      ((h.suppressed _ _ (.refl _) (.refl _) p.2).mp hsup)
    rw [← heq]
    simpa using (List.mem_filter.mp hq).2
  · rintro ⟨hslices, hcount⟩
    refine ⟨fun m m' hm hm' j => ?_, fun m m' hm hm' records => ?_, hcount⟩
    · rw [mem_suppressedPushJobIds hnd hm, mem_suppressedPushJobIds hnd' hm']
      constructor
      · rintro ⟨p, hp, rfl, hshares⟩
        obtain ⟨hp', hshares'⟩ := (sharesName_stillQueued hslices hp).mpr hshares
        exact ⟨p, hp', rfl, hshares'⟩
      · rintro ⟨p, hp', rfl, hshares'⟩
        have hp := (List.mem_filter.mp hp').1
        exact ⟨p, hp, rfl, (sharesName_stillQueued hslices hp).mp ⟨hp', hshares'⟩⟩
    · have hunder : ∀ k, (under segmentOf k (imageJobs m)).Perm
          (under segmentOf k (imagesOf persisted)) := fun k => (imageJobs_perm hnd hm).filter _
      have hunder' : ∀ k, (under segmentOf k (imageJobs m')).Perm
          (under segmentOf k (imagesOf (stillQueued row persisted))) :=
        fun k => (imageJobs_perm hnd' hm').filter _
      have hsame : ∀ k, 2 ≤ (under segmentOf k (imageJobs m)).length →
          (under segmentOf k (imageJobs m)).Perm (under segmentOf k (imageJobs m')) := by
        intro k hlen
        rw [(hunder k).length_eq] at hlen
        refine (hunder k).trans (.trans ?_ (hunder' k).symm)
        rw [under_stillQueued hnd hslices hlen]
      refine forall₂_classify (fun k => ⟨fun hlen => ?_, fun hlen => ?_⟩) hsame records
      · rwa [← (hsame k hlen).length_eq]
      · rw [(hunder' k).length_eq] at hlen
        rw [(hunder k).length_eq]
        exact hlen.trans (length_under_stillQueued_le row persisted k)

/-! ## Over every crash of the build phase -/

/-- **When a resume keeps the decisions of its evaluation.** From the moment its Jobs are
    persisted, through whatever the phase, the crashes and the recoveries do, to the moment the
    queued ones are read back. -/
theorem decisions_kept_iff (evals : HashMap EvalId EvalRow) (w₀ w₁ w₂ : World) (e : EvalId)
    (persisted resumed : Persisted) (row : EvalRow) (threshold : UInt32)
    (hfirst : Run FirstResult (World.down evals) w₀)
    (hpersisted : w₀.worker = .persisting e [] persisted) (hrun : Run (Continues e) w₀ w₁)
    (hl : w₁.evals.lookup e = some row) (hload : Does w₁ .load w₂)
    (hresumed : w₂.worker = .walking e resumed) :
    SameDecisions threshold persisted resumed ↔
      SlicesQueued row persisted ∧
        (threshold < UInt32.ofNat persisted.length ↔
          threshold < UInt32.ofNat (stillQueued row persisted).length) := by
  obtain ⟨row₀, hl₀, hwhole₀⟩ := ((Recorded.start evals).run hfirst).whole hpersisted
  have hthrough : w₀.worker.through e := by
    rw [hpersisted]
    exact fun _ => rfl
  obtain ⟨row', hl', hwhole⟩ := Whole.run hthrough hl₀ hwhole₀ hrun
  obtain rfl : row = row' := Option.some.inj (hl.symm.trans hl')
  have hread : resumed = stillQueued row persisted := by
    cases hload.acts with
    | @load e' row₂ hw hl₂ =>
      obtain ⟨rfl, rfl⟩ : e' = e ∧ loadJobsForResume row₂ = resumed := by simpa using hresumed
      obtain rfl : row = row₂ := Option.some.inj (hl.symm.trans hl₂)
      exact loadJobsForResume_eq hwhole
  have hnd : (persisted.map Prod.snd).Nodup := by
    have := row.nodup_specs
    rw [hwhole] at this
    simpa [described, Function.comp_def] using this
  rw [hread, sameDecisions_iff hnd]
  simp [collapsedMode]

/-- One `docker` slice of an image. -/
def slice (system : String) : JobSpec :=
  { specOf system with
    attrPath := "packages." ++ system ++ ".img"
    system := some system
    imageFormat := some .docker }

/-- An image of two slices. -/
def slices : Persisted := [(slice "x86_64-linux", ⟨1⟩), (slice "aarch64-linux", ⟨2⟩)]

/-- The slices of an image, and a Job that is none. -/
def slicesAndTool : Persisted :=
  slices ++ [({ specOf "tool" with system := some "x86_64-linux" }, ⟨3⟩)]

/-- Evaluation 1 has these Jobs. -/
def persistAll (persisted : Persisted) : List Action :=
  bootUp 7 ++ [Action.receive, .read, .evaluated (persisted.map Prod.fst)] ++
    persisted.flatMap fun p => [.createRow p.2, .describe, .conclude]

/-- The daemon comes back and `process` is about to read the queued rows. -/
def crashAndBoot : List Action := Action.crash :: bootUp 8 ++ [Action.receive, .read]

/-- The phase builds these Steps before the crash. -/
def buildUntilCrash (persisted : Persisted) (tokens : List DispatchToken) : List Action :=
  [Action.persisted, .spawn noWalk] ++
    phaseScript (spawnTasks persisted.length ++
      tokens.flatMap fun token => buildAndJoin token true) ++ crashAndBoot

/-- What the two phases are handed, and the rows at the resume. -/
def resumeOf (persisted : Persisted) (tokens : List DispatchToken) :
    Option (WorkerPc × WorkerPc × List (Option JobStatus)) := do
  let w₀ ← (World.down queuedAtBoot).script FirstResult (persistAll persisted)
  let w₁ ← w₀.script (Continues ⟨1⟩) (buildUntilCrash persisted tokens)
  let row ← w₁.evals.lookup ⟨1⟩
  let w₂ ← w₁.exec .load
  pure (w₀.worker, w₂.worker, persisted.map fun p => row.jobStatus p.2)

theorem exists_resume {persisted : Persisted} {tokens : List DispatchToken}
    {first second : WorkerPc} {statuses : List (Option JobStatus)}
    (h : resumeOf persisted tokens = some (first, second, statuses)) :
    ∃ w₀ w₁ w₂ row, Run FirstResult (World.down queuedAtBoot) w₀ ∧ w₀.worker = first ∧
      Run (Continues ⟨1⟩) w₀ w₁ ∧ w₁.evals.lookup ⟨1⟩ = some row ∧ Does w₁ .load w₂ ∧
      w₂.worker = second ∧ (persisted.map fun p => row.jobStatus p.2) = statuses := by
  simp only [resumeOf, Option.bind_eq_bind, Option.pure_def, Option.bind_eq_some_iff,
    Option.some.injEq, Prod.mk.injEq] at h
  obtain ⟨w₀, h₀, w₁, h₁, row, hl, w₂, h₂, hfirst, hsecond, hstatus⟩ := h
  exact ⟨w₀, w₁, w₂, row, .of_script h₀, hfirst, .of_script h₁, hl, World.exec_does h₂, hsecond,
    hstatus⟩

/-- The tool was built before the crash. -/
theorem resumeOf_tool :
    resumeOf slicesAndTool [⟨2⟩] = some (.persisting ⟨1⟩ [] slicesAndTool, .walking ⟨1⟩ slices,
      [some .queued, some .queued, some .success]) := by
  decide

theorem decisions_kept_tool : ∃ w₀ w₁ w₂, Run FirstResult (World.down queuedAtBoot) w₀ ∧
    Run (Continues ⟨1⟩) w₀ w₁ ∧ Does w₁ .load w₂ ∧ w₂.worker = .walking ⟨1⟩ slices ∧
      SameDecisions 100 slicesAndTool slices := by
  obtain ⟨w₀, w₁, w₂, row, hfirst, hw₀, hrun, hl, hload, hw₂, hstatus⟩ :=
    exists_resume resumeOf_tool
  obtain ⟨h₁, h₂, h₃⟩ : row.jobStatus ⟨1⟩ = some .queued ∧ row.jobStatus ⟨2⟩ = some .queued ∧
      row.jobStatus ⟨3⟩ = some .success := by
    simpa [slicesAndTool, slices] using hstatus
  have hread : stillQueued row slicesAndTool = slices := by
    simp [stillQueued, slicesAndTool, slices, h₁, h₂, h₃]
  have hslices : SlicesQueued row slicesAndTool := by
    rintro p hp ⟨himage, -⟩
    have hp' : p ∈ slices := by
      refine (List.mem_append.mp hp).resolve_right fun htool => ?_
      obtain rfl := List.mem_singleton.mp htool
      exact absurd himage (by decide)
    rw [← hread] at hp'
    simpa using (List.mem_filter.mp hp').2
  refine ⟨w₀, w₁, w₂, hfirst, hrun, hload, hw₂, ?_⟩
  refine (decisions_kept_iff queuedAtBoot w₀ w₁ w₂ ⟨1⟩ slicesAndTool slices row 100 hfirst hw₀ hrun
    hl hload hw₂).mpr ⟨hslices, ?_⟩
  rw [hread]
  decide
/-- One slice was built before the crash. -/
theorem resumeOf_one :
    resumeOf slices [⟨0⟩] = some (.persisting ⟨1⟩ [] slices,
      .walking ⟨1⟩ [(slice "aarch64-linux", ⟨2⟩)], [some .success, some .queued]) := by
  decide

/-- **The remaining slice of a split image is pushed alone.** -/
theorem not_decisions_kept_slice :
    ¬ ∀ (evals : HashMap EvalId EvalRow) (w₀ w₁ w₂ : World) (e : EvalId)
        (persisted resumed : Persisted) (threshold : UInt32),
        Run FirstResult (World.down evals) w₀ → w₀.worker = .persisting e [] persisted →
        Run (Continues e) w₀ w₁ → Does w₁ .load w₂ → w₂.worker = .walking e resumed →
        SameDecisions threshold persisted resumed := by
  intro h
  obtain ⟨w₀, w₁, w₂, row, hfirst, hw₀, hrun, -, hload, hw₂, -⟩ := exists_resume resumeOf_one
  have hsame := h queuedAtBoot w₀ w₁ w₂ ⟨1⟩ slices _ 100 hfirst hw₀ hrun hload hw₂
  have hboth : (⟨2⟩ : JobId) ∈ suppressedPushJobIds (specsById slices) := by decide
  have hlone : (⟨2⟩ : JobId) ∉ suppressedPushJobIds
      (specsById [(slice "aarch64-linux", ⟨2⟩)]) := by decide
  exact hlone ((hsame.suppressed _ _ (.refl _) (.refl _) ⟨2⟩).mp hboth)

end Argunix.Daemon
