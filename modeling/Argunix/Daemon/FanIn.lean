import Mathlib.Data.List.DropRight
import Argunix.Daemon.MultiArch
import Argunix.Forge.Payload

/-!
# The multi-arch fan-in

After the builds, the image Jobs that share a logical name are pushed together: `classify` turns
each shared name into a group, and `assemble` pushes the slices of a group under one tag for each
architecture and lists them in an index. Before the builds, `suppressed_push_job_ids` has already
kept every such Job from being pushed on its own.

The two functions group separately, over the same map of specs, and they agree
(`mem_suppressed_iff_group`); a group accounts for each of its members once
(`accounts_of_mem_classify`). What neither of them looks at is the `system` of a spec. The name is
the attr path without its first two pieces, in lower case and with its dots replaced, so the
members of a group need not be of different architectures, and `assemble` derives the tag of a
slice from its architecture alone. `grouping_exact_iff` says when it all fits: no two `docker` Jobs
that are grouped are for one platform. `not_grouping_exact_outputs` is one image that a flake
exposes as a package and as a docker image: both go under one tag.
-/

set_option autoImplicit false

namespace Argunix.Daemon

open Argunix.Lib Argunix.Eval
open Argunix.Forge (trim)

/-! ## Assembly -/

/-- `oci_arch` -/
def ociArch (system : String) : Option String :=
  match system with
  | "x86_64-linux" => some "amd64"
  | "x86_64-darwin" => some "amd64"
  | "aarch64-linux" => some "arm64"
  | "aarch64-darwin" => some "arm64"
  | "armv7l-linux" => some "arm"
  | "i686-linux" => some "386"
  | "riscv64-linux" => some "riscv64"
  | _ => none

/-- What one Job contributes to an image. -/
structure ArchSlice where
  system : String
  archive : String
  sbom : Option (List UInt8)
deriving DecidableEq, Repr

/-- Where an image is pushed to. -/
structure MultiArchTarget where
  target : String
  registryUrl : String
  namespace_ : String
  authPath : Option String
  insecure : Bool
deriving DecidableEq, Repr

/-- What `assemble` asks of the outside: a file, or one run of `skopeo` or `oras`. -/
inductive Call
  | readToString (path : String)
  | removeFile (path : String)
  | skopeoCopy (insecure : Bool) (creds : Option String) (digestfile archive dest : String)
  | orasAttach (insecure : Bool) (creds : Option String) (reference : String) (sbom : List UInt8)
      (nameHint : String)
  | orasIndexCreate (insecure : Bool) (login : Option (String × String)) (reference : String)
      (manifests : List String)
deriving DecidableEq, Repr

/-- The outside. An answer may depend on everything that was asked before. -/
abbrev Host := List Call → Call → Except String String

/-- What a computation returns, and what was asked until then. -/
abbrev Asked (α : Type) := Except String α × List Call

/-- One call, and its answer. -/
def Host.ask (host : Host) (call : Call) (asked : List Call) : Asked String :=
  (host asked call, asked ++ [call])

/-- `trim_matches('/')` -/
def trimSlashes (s : String) : String :=
  String.ofList ((s.toList.dropWhile (· = '/')).rdropWhile (· = '/'))

/-- `str::split_once(':')` -/
def splitOnceColon (s : String) : Option (String × String) :=
  if ':' ∈ s.toList then
    some (String.ofList (s.toList.takeWhile (· ≠ ':')),
      String.ofList (s.toList.dropWhile (· ≠ ':')).tail)
  else none

namespace MultiArchTarget

/-- The image without a tag. -/
def base (t : MultiArchTarget) (repoSlug image : String) : String :=
  String.ofList (t.registryUrl.toList.rdropWhile (· = '/')) ++ "/" ++
    trimSlashes (t.namespace_.replace "\x7bslug\x7d" repoSlug) ++ "/" ++ image

/-- `push_slice` -/
def pushSlice (t : MultiArchTarget) (host : Host) (base archive archTag : String)
    (creds : Option String) (asked : List Call) : Asked String :=
  -- in the temporary directory
  let digestfile := "argunix-ma-" ++ archTag ++ ".digest"
  match host.ask (.skopeoCopy t.insecure creds digestfile ("docker-archive:" ++ archive)
      ("docker://" ++ base ++ ":" ++ archTag)) asked with
  | (.error e, asked) => (.error e, asked)
  | (.ok _, asked) =>
    match host.ask (.readToString digestfile) asked with
    | (.error e, asked) => (.error ("reading skopeo digestfile: " ++ e), asked)
    | (.ok digest, asked) =>
      let asked := (host.ask (.removeFile digestfile) asked).2
      if (trim digest).isEmpty then (.error "skopeo produced an empty digest", asked)
      else (.ok (trim digest), asked)

/-- `create_index` -/
def createIndex (t : MultiArchTarget) (host : Host) (base tag : String)
    (entries : List (String × String)) (creds : Option String) (asked : List Call) : Asked Unit :=
  let manifests := entries.map fun e => base ++ "@" ++ e.2
  let create (login : Option (String × String)) : Asked Unit :=
    match host.ask (.orasIndexCreate t.insecure login (base ++ ":" ++ tag) manifests) asked with
    | (.error e, asked) => (.error e, asked)
    | (.ok _, asked) => (.ok (), asked)
  match creds with
  | none => create none
  | some creds =>
    match splitOnceColon creds with
    | none => (.error "credentials file is not in `user:password` form", asked)
    | some login => create (some login)

/-- The attach of one slice's SBOM: a failure is logged, and the count stays. -/
def attachSbom (t : MultiArchTarget) (host : Host) (base image shortSha : String)
    (creds : Option String) (slice : ArchSlice) (arch digest : String) (sbomCount : ℕ)
    (asked : List Call) : ℕ × List Call :=
  match slice.sbom with
  | none => (sbomCount, asked)
  | some sbom =>
    match host.ask (.orasAttach t.insecure creds (base ++ "@" ++ digest) sbom
        ("argunix-sbom-" ++ image ++ "-" ++ shortSha ++ "-" ++ arch)) asked with
    | (.ok _, asked) => (sbomCount + 1, asked)
    | (.error _, asked) => (sbomCount, asked)

/-- `assemble`, step 1: the loop over the slices, with the index entries and the number of SBOMs
    so far. -/
def pushSlices (t : MultiArchTarget) (host : Host) (base image shortSha : String)
    (creds : Option String) : List ArchSlice → List (String × String) → ℕ → List Call →
    Asked (List (String × String) × ℕ)
  | [], entries, sbomCount, asked => (.ok (entries, sbomCount), asked)
  | slice :: slices, entries, sbomCount, asked =>
    match ociArch slice.system with
    | none => pushSlices t host base image shortSha creds slices entries sbomCount asked
    | some arch =>
      match t.pushSlice host base slice.archive ("sha-" ++ shortSha ++ "-" ++ arch) creds asked with
      | (.error e, asked) => (.error e, asked)
      | (.ok digest, asked) =>
        let (sbomCount, asked) :=
          t.attachSbom host base image shortSha creds slice arch digest sbomCount asked
        pushSlices t host base image shortSha creds slices (entries ++ [(arch, digest)]) sbomCount
          asked

/-- `assemble`, step 2: the index under every public tag. -/
def createIndexes (t : MultiArchTarget) (host : Host) (base : String)
    (entries : List (String × String)) (creds : Option String) : List String → List Call →
    Asked Unit
  | [], asked => (.ok (), asked)
  | tag :: tags, asked =>
    match t.createIndex host base tag entries creds asked with
    | (.error e, asked) => (.error e, asked)
    | (.ok _, asked) => createIndexes t host base entries creds tags asked

/-- What the log says of an assembled index. -/
def summary (base : String) (tags : List String) (entries : List (String × String))
    (sbomCount : ℕ) : String :=
  let sbomNote :=
    if 0 < sbomCount then
      ", " ++ toString sbomCount ++ " per-arch SBOM" ++ (if sbomCount = 1 then "" else "s")
    else ""
  "assembled " ++ toString entries.length ++ "-arch index (" ++
    String.intercalate "+" (entries.map Prod.fst) ++ sbomNote ++ ") → " ++ base ++ ":" ++
    String.intercalate ", " tags

/-- The credentials file, if there is one. -/
def readCreds (t : MultiArchTarget) (host : Host) (asked : List Call) : Asked (Option String) :=
  match t.authPath with
  | none => (.ok none, asked)
  | some path =>
    match host.ask (.readToString path) asked with
    | (.error e, asked) => (.error ("reading registry credentials " ++ path ++ ": " ++ e), asked)
    | (.ok s, asked) => (.ok (some (trim s)), asked)

/-- `assemble`: the slices first, then the index, then the tags. -/
def assemble (t : MultiArchTarget) (host : Host) (repoSlug image shortSha : String)
    (slices : List ArchSlice) (tags : List String) : Asked String :=
  let base := t.base repoSlug image
  match t.readCreds host [] with
  | (.error e, asked) => (.error e, asked)
  | (.ok creds, asked) =>
    match t.pushSlices host base image shortSha creds slices [] 0 asked with
    | (.error e, asked) => (.error e, asked)
    | (.ok (entries, sbomCount), asked) =>
      if entries.isEmpty then (.error "no arch slices could be pushed", asked)
      else
        match t.createIndexes host base entries creds tags asked with
        | (.error e, asked) => (.error e, asked)
        | (.ok _, asked) => (.ok (summary base tags entries sbomCount), asked)

end MultiArchTarget

/-- What `run_fan_in` makes of the slices of a group. A slice whose SBOM could not be generated
    goes without. -/
def archSlices (generateSbom : PendingSlice → Except String (List UInt8))
    (slices : List PendingSlice) : List ArchSlice :=
  slices.map fun ps =>
    { system := ps.system, archive := ps.archive, sbom := (generateSbom ps).toOption }

/-! ## Exactness -/

/-- The name of the group. -/
def ImageGroup.name : ImageGroup → String
  | .multiArch name _ _ => name
  | .clash name _ _ => name

/-- The image Jobs of a logical name: the members of its group. -/
def Member (specs : HashMap JobId JobSpec) (name : String) (x : JobId × JobSpec) : Prop :=
  specs.lookup x.1 = some x.2 ∧ x.2.imageFormat.isSome = true ∧ segmentOf x = name

/-- A record of a build that left this archive. -/
def BuiltAs (records : List JobRecord) (jobId : JobId) (archive : String) : Prop :=
  ∃ r, recordOf records jobId = some r ∧ (r.status = .success ∨ r.status = .cached) ∧
    r.outputPath = some archive

/-- A slice of a member whose build is there. -/
structure SliceOf (records : List JobRecord) (x : JobId × JobSpec) (slice : PendingSlice) :
    Prop where
  jobId : slice.jobId = x.1
  system : slice.system = sliceSystem x.2
  attrPath : slice.attrPath = x.2.attrPath
  archive : BuiltAs records x.1 slice.archive

/-- A member whose build is not there, under its system. -/
structure MissingFor (records : List JobRecord) (x : JobId × JobSpec) (system : String) :
    Prop where
  system : system = sliceSystem x.2
  archive : ∀ archive, ¬ BuiltAs records x.1 archive

/-- **Each member appears once**: as a slice or as missing. -/
structure Accounts (specs : HashMap JobId JobSpec) (records : List JobRecord) (name : String)
    (slices : List PendingSlice) (missing : List String)
    (built unbuilt : List (JobId × JobSpec)) : Prop where
  once : ((built ++ unbuilt).map Prod.fst).Nodup
  members : ∀ x, x ∈ built ++ unbuilt ↔ Member specs name x
  slices : List.Forall₂ (SliceOf records) built slices
  missing : List.Forall₂ (MissingFor records) unbuilt missing

/-- The references `skopeo` was told to push to. -/
def pushedTo (asked : List Call) : List String :=
  asked.filterMap fun
    | .skopeoCopy _ _ _ _ dest => some dest
    | _ => none

/-- **The grouping is exact**: it covers the Jobs that are not pushed on their own, accounts for
    each of them, and gives each its own platform, its own tag and its own line in the index. -/
structure GroupingExact (specs : HashMap JobId JobSpec) : Prop where
  suppressed : ∀ records j, j ∈ suppressedPushJobIds specs ↔
    ∃ g ∈ classify specs records, ∃ spec, Member specs g.name (j, spec)
  accounts : ∀ records name slices missing,
    .multiArch name slices missing ∈ classify specs records →
      ∃ built unbuilt, Accounts specs records name slices missing built unbuilt
  systems : ∀ records name slices missing,
    .multiArch name slices missing ∈ classify specs records →
      ∀ x y, Member specs name x → Member specs name y → x ≠ y →
        sliceSystem x.2 ≠ sliceSystem y.2 ∧
          ∀ arch, ociArch (sliceSystem x.2) = some arch → ociArch (sliceSystem y.2) ≠ some arch
  tags : ∀ records name slices missing,
    .multiArch name slices missing ∈ classify specs records →
      ∀ (t : MultiArchTarget) (host : Host)
        (generateSbom : PendingSlice → Except String (List UInt8)) (repoSlug shortSha : String)
        (tags : List String),
        (pushedTo (t.assemble host repoSlug name shortSha (archSlices generateSbom slices)
          tags).2).Nodup
  platforms : ∀ records name slices missing,
    .multiArch name slices missing ∈ classify specs records →
      ∀ (t : MultiArchTarget) (host : Host)
        (generateSbom : PendingSlice → Except String (List UInt8)) (base shortSha : String)
        (creds : Option String) (asked asked' : List Call) (entries : List (String × String))
        (sbomCount : ℕ),
        t.pushSlices host base name shortSha creds (archSlices generateSbom slices) [] 0 asked =
          (.ok (entries, sbomCount), asked') → (entries.map Prod.fst).Nodup

/-! ## The two groupings -/

theorem mem_imageJobs {specs : HashMap JobId JobSpec} {x : JobId × JobSpec} :
    x ∈ imageJobs specs ↔ specs.lookup x.1 = some x.2 ∧ x.2.imageFormat.isSome = true := by
  rw [imageJobs, List.mem_filter, List.mem_map]
  refine and_congr_left fun _ => ?_
  constructor
  · intro ⟨e, he, hx⟩
    subst hx
    exact HashMap.mem_entries_iff.mp he
  · intro hl
    exact ⟨⟨x.1, x.2⟩, HashMap.mem_entries_iff.mpr hl, rfl⟩

theorem nodup_imageJobs (specs : HashMap JobId JobSpec) :
    ((imageJobs specs).map Prod.fst).Nodup := by
  have hkeys : ((specs.entries.map fun e => (e.1, e.2)).map Prod.fst).Nodup := by
    rw [List.map_map]
    exact specs.nodupKeys
  exact hkeys.sublist (List.filter_sublist.map _)

theorem mem_under_imageJobs {specs : HashMap JobId JobSpec} {name : String}
    {x : JobId × JobSpec} :
    x ∈ under segmentOf name (imageJobs specs) ↔ Member specs name x := by
  rw [under, List.mem_filter, mem_imageJobs, decide_eq_true_eq, and_assoc]
  rfl

/-- `by_name` of `classify`, as it is written. -/
theorem group_imageJobs (specs : HashMap JobId JobSpec) :
    group segmentOf (imageJobs specs) =
      specs.entries.foldl (fun byName e =>
        if e.2.imageFormat.isSome then
          push (imageSegment e.2.attrPath) (e.1, e.2) byName
        else byName) [] := by
  rw [group, imageJobs, List.foldl_filter, List.foldl_map]
  rfl

/-- `suppressed_push_job_ids` as it is written, with a `by_name` of its own that keeps the ids
    alone. -/
theorem suppressedPushJobIds_eq (specs : HashMap JobId JobSpec) :
    suppressedPushJobIds specs =
      ((specs.entries.foldl (fun byName e =>
        if e.2.imageFormat.isSome then push (imageSegment e.2.attrPath) e.1 byName
        else byName) []).filter fun e => 2 ≤ e.2.length).flatMap Prod.snd := by
  have hids : specs.entries.foldl (fun byName e =>
      if e.2.imageFormat.isSome then push (imageSegment e.2.attrPath) e.1 byName
      else byName) [] =
      (group segmentOf (imageJobs specs)).map fun e => (e.1, e.2.map Prod.fst) := by
    rw [map_group, imageJobs, List.foldl_filter, List.foldl_map]
    rfl
  rw [hids, List.filter_map, List.flatMap_map, suppressedPushJobIds, sharedNames]
  have hsize : (fun e : String × List (JobId × JobSpec) => decide (2 ≤ e.2.length)) =
      (fun e : String × List JobId => decide (2 ≤ e.2.length)) ∘
        fun e => (e.1, e.2.map Prod.fst) := by
    funext e
    simp
  rw [hsize]

/-- An entry of the shared names. -/
theorem mem_sharedNames {specs : HashMap JobId JobSpec}
    {e : String × List (JobId × JobSpec)} :
    e ∈ sharedNames specs ↔ e.2 = under segmentOf e.1 (imageJobs specs) ∧ 2 ≤ e.2.length := by
  have hgroup := grouped_group segmentOf (imageJobs specs)
  rw [sharedNames, List.mem_filter, decide_eq_true_eq]
  constructor
  · rintro ⟨he, hlen⟩
    exact ⟨hgroup.items e he, hlen⟩
  · rintro ⟨hitems, hlen⟩
    refine ⟨?_, hlen⟩
    obtain ⟨x, hx⟩ := List.exists_mem_of_length_pos (Nat.lt_of_lt_of_le Nat.two_pos hlen)
    rw [hitems, under, List.mem_filter, decide_eq_true_eq] at hx
    have hkey : e.1 ∈ (group segmentOf (imageJobs specs)).map Prod.fst :=
      (hgroup.keys e.1).mpr (List.mem_map.mpr ⟨x, hx⟩)
    obtain ⟨e', he', hfst⟩ := List.mem_map.mp hkey
    have : e' = e := Prod.ext hfst (by rw [hgroup.items e' he', hitems, hfst])
    exact this ▸ he'

@[simp] theorem name_classifyGroup (records : List JobRecord)
    (e : String × List (JobId × JobSpec)) : (classifyGroup records e).name = e.1 := by
  unfold classifyGroup
  split <;> rfl

/-- **The suppressed Jobs are the members of the groups.** -/
theorem mem_suppressed_iff_group (specs : HashMap JobId JobSpec) (records : List JobRecord)
    (j : JobId) : j ∈ suppressedPushJobIds specs ↔
      ∃ g ∈ classify specs records, ∃ spec, Member specs g.name (j, spec) := by
  rw [suppressedPushJobIds, List.mem_flatMap]
  constructor
  · rintro ⟨e, he, hj⟩
    obtain ⟨x, hx, hfst⟩ := List.mem_map.mp hj
    refine ⟨classifyGroup records e, List.mem_map_of_mem he, x.2, ?_⟩
    rw [(mem_sharedNames.mp he).1] at hx
    subst hfst
    simpa using mem_under_imageJobs.mp hx
  · rintro ⟨g, hg, spec, hmem⟩
    obtain ⟨e, he, hclass⟩ := List.mem_map.mp hg
    subst hclass
    refine ⟨e, he, List.mem_map.mpr ⟨(j, spec), ?_, rfl⟩⟩
    rw [(mem_sharedNames.mp he).1]
    exact mem_under_imageJobs.mpr (by simpa using hmem)

/-- **Which groups are multi-arch**: a shared name without an `oci` Job. -/
theorem mem_classify_multiArch {specs : HashMap JobId JobSpec} {records : List JobRecord}
    {name : String} {slices : List PendingSlice} {missing : List String} :
    .multiArch name slices missing ∈ classify specs records ↔
      2 ≤ (under segmentOf name (imageJobs specs)).length ∧
      ociCount (under segmentOf name (imageJobs specs)) = 0 ∧
      slices = slicesOf records (under segmentOf name (imageJobs specs)) ∧
      missing = missingOf records (under segmentOf name (imageJobs specs)) := by
  rw [classify, List.mem_map]
  constructor
  · intro ⟨e, he, hclass⟩
    obtain ⟨hitems, hlen⟩ := mem_sharedNames.mp he
    unfold classifyGroup at hclass
    split at hclass
    · cases hclass
    · rename_i hoci
      obtain ⟨rfl, rfl, rfl⟩ := ImageGroup.multiArch.inj hclass
      rw [hitems] at hlen hoci ⊢
      exact ⟨hlen, by omega, rfl, rfl⟩
  · intro ⟨hlen, hoci, hslices, hmissing⟩
    refine ⟨(name, under segmentOf name (imageJobs specs)), mem_sharedNames.mpr ⟨rfl, hlen⟩, ?_⟩
    rw [classifyGroup, if_neg (by simp only [hoci]; omega), hslices, hmissing]

/-! ## Members -/

theorem builtArchive_eq_some_iff {records : List JobRecord} {jobId : JobId} {archive : String} :
    builtArchive records jobId = some archive ↔ BuiltAs records jobId archive := by
  unfold builtArchive BuiltAs
  cases hrec : recordOf records jobId with
  | none => simp
  | some r =>
    simp only [Option.some.injEq, exists_eq_left']
    split
    · rename_i hstatus
      simp [hstatus]
    · rename_i hstatus
      simp [hstatus]

theorem forall₂_slicesOf (records : List JobRecord) (members : List (JobId × JobSpec)) :
    List.Forall₂ (SliceOf records)
      (members.filter fun x => (builtArchive records x.1).isSome) (slicesOf records members) := by
  induction members with
  | nil => exact .nil
  | cons x members ih =>
    cases hbuilt : builtArchive records x.1 with
    | none =>
      rw [List.filter_cons_of_neg (by simp [hbuilt]), slicesOf,
        List.filterMap_cons_none (by simp [hbuilt])]
      exact ih
    | some archive =>
      rw [List.filter_cons_of_pos (by simp [hbuilt]), slicesOf,
        List.filterMap_cons_some (by rw [hbuilt]; rfl)]
      exact .cons ⟨rfl, rfl, rfl, builtArchive_eq_some_iff.mp hbuilt⟩ ih

theorem forall₂_missingOf (records : List JobRecord) (members : List (JobId × JobSpec)) :
    List.Forall₂ (MissingFor records)
      (members.filter fun x => (builtArchive records x.1).isNone) (missingOf records members) := by
  rw [missingOf, List.forall₂_map_right_iff, List.forall₂_same]
  intro x hx
  refine ⟨rfl, fun archive hbuilt => ?_⟩
  rw [List.mem_filter, builtArchive_eq_some_iff.mpr hbuilt] at hx
  simp at hx

/-- **A multi-arch group accounts for its members.** -/
theorem accounts_of_mem_classify {specs : HashMap JobId JobSpec} {records : List JobRecord}
    {name : String} {slices : List PendingSlice} {missing : List String}
    (h : .multiArch name slices missing ∈ classify specs records) :
    ∃ built unbuilt, Accounts specs records name slices missing built unbuilt := by
  obtain ⟨-, -, rfl, rfl⟩ := mem_classify_multiArch.mp h
  set members := under segmentOf name (imageJobs specs) with hmembers
  have hperm : (members.filter (fun x => (builtArchive records x.1).isSome) ++
      members.filter fun x => (builtArchive records x.1).isNone).Perm members := by
    have := List.filter_append_perm (fun x => (builtArchive records x.1).isSome) members
    simpa using this
  refine ⟨_, _, ?_, fun x => ?_, forall₂_slicesOf records members,
    forall₂_missingOf records members⟩
  · refine (hperm.map Prod.fst).nodup_iff.mpr ?_
    exact (nodup_imageJobs specs).sublist (List.filter_sublist.map _)
  · rw [hperm.mem_iff, hmembers, mem_under_imageJobs]

/-! ## Tags -/

/-- Where the slice of an architecture is pushed. -/
def archRef (base shortSha arch : String) : String :=
  "docker://" ++ base ++ ":" ++ ("sha-" ++ shortSha ++ "-" ++ arch)

theorem archRef_injective (base shortSha : String) :
    Function.Injective (archRef base shortSha) := by
  intro arch arch' h
  have := congrArg String.toList h
  simp only [archRef, String.toList_append, List.append_cancel_left_eq] at this
  exact String.toList_injective this

/-- The architectures of the slices, in the order they are pushed. -/
def archsOf (slices : List ArchSlice) : List String :=
  slices.filterMap fun slice => ociArch slice.system

theorem archsOf_cons_none {slice : ArchSlice} (h : ociArch slice.system = none)
    (slices : List ArchSlice) : archsOf (slice :: slices) = archsOf slices :=
  List.filterMap_cons_none h

theorem archsOf_cons_some {slice : ArchSlice} {arch : String}
    (h : ociArch slice.system = some arch) (slices : List ArchSlice) :
    archsOf (slice :: slices) = arch :: archsOf slices :=
  List.filterMap_cons_some h

@[simp] theorem pushedTo_append (asked asked' : List Call) :
    pushedTo (asked ++ asked') = pushedTo asked ++ pushedTo asked' :=
  List.filterMap_append

namespace MultiArchTarget

variable (t : MultiArchTarget) (host : Host)

theorem pushedTo_pushSlice (base archive archTag : String) (creds : Option String)
    (asked : List Call) :
    pushedTo (t.pushSlice host base archive archTag creds asked).2 =
      pushedTo asked ++ ["docker://" ++ base ++ ":" ++ archTag] := by
  unfold pushSlice Host.ask
  dsimp only
  split
  · rename_i heq
    rw [← (Prod.mk.inj heq).2]
    simp [pushedTo]
  · rename_i heq
    rw [← (Prod.mk.inj heq).2]
    split
    · rename_i heq'
      rw [← (Prod.mk.inj heq').2]
      simp [pushedTo]
    · rename_i heq'
      rw [← (Prod.mk.inj heq').2]
      split <;> simp [pushedTo]

theorem pushedTo_attachSbom (base image shortSha : String) (creds : Option String)
    (slice : ArchSlice) (arch digest : String) (sbomCount : ℕ) (asked : List Call) :
    pushedTo (t.attachSbom host base image shortSha creds slice arch digest sbomCount asked).2 =
      pushedTo asked := by
  unfold attachSbom Host.ask
  split
  · rfl
  · split <;>
    · rename_i heq
      rw [← (Prod.mk.inj heq).2]
      simp [pushedTo]

theorem pushedTo_createIndex (base tag : String) (entries : List (String × String))
    (creds : Option String) (asked : List Call) :
    pushedTo (t.createIndex host base tag entries creds asked).2 = pushedTo asked := by
  have hcreate : ∀ login manifests,
      pushedTo (asked ++ [.orasIndexCreate t.insecure login (base ++ ":" ++ tag) manifests]) =
        pushedTo asked := by
    intro login manifests
    simp [pushedTo]
  unfold createIndex Host.ask
  dsimp only
  split
  · split <;>
    · rename_i heq
      rw [← (Prod.mk.inj heq).2, hcreate]
  · split
    · rfl
    · split <;>
      · rename_i heq
        rw [← (Prod.mk.inj heq).2, hcreate]

theorem pushedTo_createIndexes (base : String) (entries : List (String × String))
    (creds : Option String) (tags : List String) (asked : List Call) :
    pushedTo (t.createIndexes host base entries creds tags asked).2 = pushedTo asked := by
  induction tags generalizing asked with
  | nil => rfl
  | cons tag tags ih =>
    have hindex := t.pushedTo_createIndex host base tag entries creds asked
    unfold createIndexes
    split
    · rename_i heq
      rw [heq] at hindex
      exact hindex
    · rename_i heq
      rw [heq] at hindex
      rw [ih]
      exact hindex

theorem pushedTo_readCreds (asked : List Call) :
    pushedTo (t.readCreds host asked).2 = pushedTo asked := by
  unfold readCreds Host.ask
  split
  · rfl
  · split <;>
    · rename_i heq
      rw [← (Prod.mk.inj heq).2]
      simp [pushedTo]

/-- **The loop pushes the slices in order**, each under the tag of its architecture, until one
    fails. -/
theorem pushedTo_pushSlices (base image shortSha : String) (creds : Option String)
    (slices : List ArchSlice) (entries : List (String × String)) (sbomCount : ℕ)
    (asked : List Call) :
    ∃ archs, archs <+: archsOf slices ∧
      pushedTo (t.pushSlices host base image shortSha creds slices entries sbomCount asked).2 =
        pushedTo asked ++ archs.map (archRef base shortSha) := by
  induction slices generalizing entries sbomCount asked with
  | nil => exact ⟨[], List.nil_prefix, (List.append_nil _).symm⟩
  | cons slice slices ih =>
    unfold pushSlices
    cases harch : ociArch slice.system with
    | none =>
      rw [archsOf_cons_none harch]
      exact ih entries sbomCount asked
    | some arch =>
      have hpush := t.pushedTo_pushSlice host base slice.archive
        ("sha-" ++ shortSha ++ "-" ++ arch) creds asked
      rw [archsOf_cons_some harch]
      dsimp only
      split
      · rename_i heq
        rw [heq] at hpush
        exact ⟨[arch], by simp, hpush⟩
      · rename_i digest asked' heq
        rw [heq] at hpush
        obtain ⟨archs, hfirst, hrun⟩ := ih (entries ++ [(arch, digest)])
          (t.attachSbom host base image shortSha creds slice arch digest sbomCount asked').1
          (t.attachSbom host base image shortSha creds slice arch digest sbomCount asked').2
        refine ⟨arch :: archs, List.cons_prefix_cons.mpr ⟨rfl, hfirst⟩, ?_⟩
        rw [hrun, pushedTo_attachSbom, hpush, List.append_assoc]
        rfl

/-- **A finished loop has one entry for each architecture.** -/
theorem entries_pushSlices {base image shortSha : String} {creds : Option String}
    {slices : List ArchSlice} {entries entries' : List (String × String)}
    {sbomCount sbomCount' : ℕ} {asked asked' : List Call}
    (h : t.pushSlices host base image shortSha creds slices entries sbomCount asked =
      (.ok (entries', sbomCount'), asked')) :
    entries'.map Prod.fst = entries.map Prod.fst ++ archsOf slices := by
  induction slices generalizing entries sbomCount asked with
  | nil =>
    cases h
    exact (List.append_nil _).symm
  | cons slice slices ih =>
    unfold pushSlices at h
    cases harch : ociArch slice.system with
    | none =>
      rw [harch] at h
      rw [ih h, archsOf_cons_none harch]
    | some arch =>
      rw [harch] at h
      dsimp only at h
      split at h
      · cases h
      · rw [ih h, archsOf_cons_some harch, List.map_append, List.append_assoc]
        rfl

/-- **What an assembly pushes**: the first slices, each under the tag of its architecture. -/
theorem pushedTo_assemble (repoSlug image shortSha : String) (slices : List ArchSlice)
    (tags : List String) :
    ∃ archs, archs <+: archsOf slices ∧
      pushedTo (t.assemble host repoSlug image shortSha slices tags).2 =
        archs.map (archRef (t.base repoSlug image) shortSha) := by
  have hcreds : pushedTo (t.readCreds host []).2 = [] := t.pushedTo_readCreds host []
  unfold assemble
  dsimp only
  split
  · rename_i heq
    rw [heq] at hcreds
    exact ⟨[], List.nil_prefix, hcreds⟩
  · rename_i creds asked heq
    rw [heq] at hcreds
    obtain ⟨archs, hfirst, hpush⟩ := t.pushedTo_pushSlices host (t.base repoSlug image) image
      shortSha creds slices [] 0 asked
    rw [show pushedTo asked = [] from hcreds, List.nil_append] at hpush
    refine ⟨archs, hfirst, ?_⟩
    rw [← hpush]
    split
    · rename_i heq'
      rw [heq']
    · rename_i entries sbomCount asked' heq'
      rw [heq']
      split
      · rfl
      · have hindex := t.pushedTo_createIndexes host (t.base repoSlug image) entries creds tags
          asked'
        split
        · rename_i heq''
          rw [heq''] at hindex
          exact hindex
        · rename_i heq''
          rw [heq''] at hindex
          exact hindex

end MultiArchTarget

/-- The architectures of a group are those of its built members. -/
theorem archsOf_slicesOf (records : List JobRecord) (members : List (JobId × JobSpec))
    (generateSbom : PendingSlice → Except String (List UInt8)) :
    archsOf (archSlices generateSbom (slicesOf records members)) =
      (members.filter fun x => (builtArchive records x.1).isSome).filterMap
        fun x => ociArch (sliceSystem x.2) := by
  rw [archsOf, archSlices, List.filterMap_map]
  have hslices := forall₂_slicesOf records members
  generalize (members.filter fun x => (builtArchive records x.1).isSome) = built at hslices ⊢
  generalize slicesOf records members = slices at hslices ⊢
  induction hslices with
  | nil => rfl
  | cons hx _ ih =>
    rw [List.filterMap_cons, List.filterMap_cons, ih, Function.comp_apply, hx.system]

/-! ## Platforms -/

/-- The systems whose architecture is `amd64`. -/
def amd64Systems : List String := ["x86_64-linux", "x86_64-darwin"]

/-- The systems whose architecture is `arm64`. -/
def arm64Systems : List String := ["aarch64-linux", "aarch64-darwin"]

/-- One platform of an index: one system, or the Linux and the Darwin of one processor. -/
def SamePlatform (system system' : String) : Prop :=
  system = system' ∨ (system ∈ amd64Systems ∧ system' ∈ amd64Systems) ∨
    (system ∈ arm64Systems ∧ system' ∈ arm64Systems)

instance (system system' : String) : Decidable (SamePlatform system system') :=
  inferInstanceAs (Decidable (_ ∨ _))

/-- **Which systems have an architecture.** -/
theorem ociArch_cases {system arch : String} (h : ociArch system = some arch) :
    (arch = "amd64" ∧ system ∈ amd64Systems) ∨ (arch = "arm64" ∧ system ∈ arm64Systems) ∨
      (arch = "arm" ∧ system = "armv7l-linux") ∨ (arch = "386" ∧ system = "i686-linux") ∨
      (arch = "riscv64" ∧ system = "riscv64-linux") := by
  unfold ociArch at h
  split at h <;> cases h
  · exact .inl ⟨rfl, .head _⟩
  · exact .inl ⟨rfl, .tail _ (.head _)⟩
  · exact .inr (.inl ⟨rfl, .head _⟩)
  · exact .inr (.inl ⟨rfl, .tail _ (.head _)⟩)
  · exact .inr (.inr (.inl ⟨rfl, rfl⟩))
  · exact .inr (.inr (.inr (.inl ⟨rfl, rfl⟩)))
  · exact .inr (.inr (.inr (.inr ⟨rfl, rfl⟩)))

/-- **Which systems have one architecture.** -/
theorem samePlatform_iff {system system' : String} :
    SamePlatform system system' ↔ system = system' ∨
      ∃ arch, ociArch system = some arch ∧ ociArch system' = some arch := by
  constructor
  · intro h
    rcases h with h | ⟨h, h'⟩ | ⟨h, h'⟩
    · exact .inl h
    · refine .inr ⟨"amd64", ?_⟩
      simp only [amd64Systems, List.mem_cons, List.not_mem_nil, or_false] at h h'
      rcases h with rfl | rfl <;> rcases h' with rfl | rfl <;> exact ⟨rfl, rfl⟩
    · refine .inr ⟨"arm64", ?_⟩
      simp only [arm64Systems, List.mem_cons, List.not_mem_nil, or_false] at h h'
      rcases h with rfl | rfl <;> rcases h' with rfl | rfl <;> exact ⟨rfl, rfl⟩
  · intro h
    rcases h with h | ⟨arch, h, h'⟩
    · exact .inl h
    · rcases ociArch_cases h with ⟨rfl, hs⟩ | ⟨rfl, hs⟩ | ⟨rfl, hs⟩ | ⟨rfl, hs⟩ | ⟨rfl, hs⟩ <;>
        rcases ociArch_cases h' with ⟨he, hs'⟩ | ⟨he, hs'⟩ | ⟨he, hs'⟩ | ⟨he, hs'⟩ | ⟨he, hs'⟩ <;>
        first
        | exact absurd he (by decide)
        | exact .inr (.inl ⟨hs, hs'⟩)
        | exact .inr (.inr ⟨hs, hs'⟩)
        | exact .inl (hs.trans hs'.symm)

/-- **Every grouped `docker` Job is for a platform of its own.** -/
def OwnPlatforms (specs : HashMap JobId JobSpec) : Prop :=
  ∀ name x y, Member specs name x → Member specs name y → x.1 ≠ y.1 →
    (∀ z, Member specs name z → z.2.imageFormat ≠ some .oci) →
    ¬ SamePlatform (sliceSystem x.2) (sliceSystem y.2)

theorem ociCount_eq_zero_iff {specs : HashMap JobId JobSpec} {name : String} :
    ociCount (under segmentOf name (imageJobs specs)) = 0 ↔
      ∀ z, Member specs name z → z.2.imageFormat ≠ some .oci := by
  rw [ociCount, List.countP_eq_zero]
  constructor
  · intro h z hz hoci
    exact h z (mem_under_imageJobs.mpr hz) (by simpa using hoci)
  · intro h z hz hoci
    exact h z (mem_under_imageJobs.mp hz) (by simpa using hoci)

theorem Member.eq_of_fst {specs : HashMap JobId JobSpec} {name name' : String}
    {x y : JobId × JobSpec} (hx : Member specs name x) (hy : Member specs name' y)
    (h : x.1 = y.1) : x = y := by
  have hspec : some x.2 = some y.2 := by rw [← hx.1, ← hy.1, h]
  exact Prod.ext h (Option.some.inj hspec)

variable {specs : HashMap JobId JobSpec} {records : List JobRecord} {name : String}
  {slices : List PendingSlice} {missing : List String}

theorem OwnPlatforms.not_samePlatform (hown : OwnPlatforms specs)
    (hg : .multiArch name slices missing ∈ classify specs records) {x y : JobId × JobSpec}
    (hx : Member specs name x) (hy : Member specs name y) (hne : x ≠ y) :
    ¬ SamePlatform (sliceSystem x.2) (sliceSystem y.2) :=
  hown name x y hx hy (fun heq => hne (hx.eq_of_fst hy heq))
    (ociCount_eq_zero_iff.mp (mem_classify_multiArch.mp hg).2.1)

/-- **The slices of a group have architectures of their own.** -/
theorem OwnPlatforms.nodup_archsOf (hown : OwnPlatforms specs)
    (hg : .multiArch name slices missing ∈ classify specs records)
    (generateSbom : PendingSlice → Except String (List UInt8)) :
    (archsOf (archSlices generateSbom slices)).Nodup := by
  obtain ⟨-, -, rfl, -⟩ := mem_classify_multiArch.mp hg
  rw [archsOf_slicesOf]
  refine List.Nodup.sublist (List.filter_sublist.filterMap _) ?_
  have hmembers : (under segmentOf name (imageJobs specs)).Nodup :=
    (nodup_imageJobs specs).of_map.filter _
  refine List.pairwise_filterMap.mpr (hmembers.imp_of_mem ?_)
  intro x y hx hy hne arch harch arch' harch' heq
  subst heq
  exact hown.not_samePlatform hg (mem_under_imageJobs.mp hx) (mem_under_imageJobs.mp hy) hne
    (samePlatform_iff.mpr (.inr ⟨arch, harch, harch'⟩))

/-- **When the grouping is exact**: no two `docker` Jobs of one group are for one platform. -/
theorem grouping_exact_iff (specs : HashMap JobId JobSpec) :
    GroupingExact specs ↔ OwnPlatforms specs := by
  constructor
  · intro hexact name x y hx hy hne hoci hsame
    -- the two Jobs are enough for a group
    have hlen : 2 ≤ (under segmentOf name (imageJobs specs)).length :=
      (two_le_length_iff ((nodup_imageJobs specs).of_map.filter _)
        (mem_under_imageJobs.mpr hx)).mpr
        ⟨y, mem_under_imageJobs.mpr hy, fun heq => hne (congrArg Prod.fst heq).symm⟩
    obtain ⟨hsystem, harch⟩ := hexact.systems [] name _ _
      (mem_classify_multiArch.mpr ⟨hlen, ociCount_eq_zero_iff.mpr hoci, rfl, rfl⟩) x y hx hy
      fun heq => hne (congrArg Prod.fst heq)
    rcases samePlatform_iff.mp hsame with heq | ⟨arch, hxa, hya⟩
    · exact hsystem heq
    · exact harch arch hxa hya
  · intro hown
    refine ⟨fun records j => mem_suppressed_iff_group specs records j,
      fun records name slices missing hg => accounts_of_mem_classify hg, ?_, ?_, ?_⟩
    · intro records name slices missing hg x y hx hy hne
      have hother := hown.not_samePlatform hg hx hy hne
      refine ⟨fun heq => hother (.inl heq), fun arch hxa hya => hother ?_⟩
      exact samePlatform_iff.mpr (.inr ⟨arch, hxa, hya⟩)
    · intro records name slices missing hg t host generateSbom repoSlug shortSha tags
      obtain ⟨archs, hfirst, hpushed⟩ := t.pushedTo_assemble host repoSlug name shortSha
        (archSlices generateSbom slices) tags
      rw [hpushed]
      exact ((hown.nodup_archsOf hg generateSbom).sublist hfirst.sublist).map
        (archRef_injective _ _)
    · intro records name slices missing hg t host generateSbom base shortSha creds asked asked'
        entries sbomCount hrun
      rw [t.entries_pushSlices host hrun]
      exact hown.nodup_archsOf hg generateSbom

/-- An image that a flake exposes as a package. -/
def packageOutput : JobSpec := { slice "x86_64-linux" with attrPath := "packages.x86_64-linux.web" }

/-- The same image, exposed as a docker image. -/
def dockerOutput : JobSpec :=
  { slice "x86_64-linux" with attrPath := "dockerImages.x86_64-linux.web" }

/-- A package and an image under one name. -/
def twoOutputs : HashMap JobId JobSpec := specsById [(packageOutput, ⟨1⟩), (dockerOutput, ⟨2⟩)]

/-- **Both outputs are slices of one platform.** -/
theorem not_grouping_exact_outputs : ¬ GroupingExact twoOutputs := by
  intro h
  have hpackage : Member twoOutputs "web" (⟨1⟩, packageOutput) :=
    ⟨by decide, by decide, by decide⟩
  have hdocker : Member twoOutputs "web" (⟨2⟩, dockerOutput) :=
    ⟨by decide, by decide, by decide⟩
  have hgroup : .multiArch "web" [] ["x86_64-linux", "x86_64-linux"] ∈ classify twoOutputs [] :=
    mem_classify_multiArch.mpr
      ⟨by decide, by decide, by decide, by decide⟩
  obtain ⟨hsystem, -⟩ := h.systems [] "web" _ _ hgroup _ _ hpackage hdocker (by decide)
  exact hsystem rfl

end Argunix.Daemon
