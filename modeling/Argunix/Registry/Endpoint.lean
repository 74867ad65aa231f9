import Argunix.Lib.Segments
import Argunix.Registry.Images

/-!
# `argunix-registry`: the URLs of the registry

Behind `/v2/` stands the name of an image, which has slashes, and behind it the endpoint:
`manifests/<reference>`, `blobs/<digest>` or `tags/list`. `split_tail` searches for the last
`/manifests/`, then for the last `/blobs/`, and takes `/tags/list` off the end if it has found
neither.

So a manifest is always found. **But a repository may be called `manifests`**, and then the blobs of
its images cannot be had: `splitTail_iff` says that an endpoint is found if and only if no segment
of the name behind the first is one of the words that are searched for before it.
-/

set_option autoImplicit false

namespace Argunix.Registry

open Argunix.Lib Argunix.Forge

inductive Endpoint
  | manifest (reference : String)
  | blob (digest : String)
  | tagsList
deriving DecidableEq, Repr

/-- `str::strip_suffix` -/
def stripSuffix (suffix s : List Char) : Option (List Char) :=
  if suffix.isSuffixOf s then some (s.take (s.length - suffix.length)) else none

/-- `split_tail` -/
def splitTail (tail : String) : Option (String × Endpoint) :=
  let tail := tail.toList
  match rfind "/manifests/".toList tail with
  | some idx =>
    some (String.ofList (tail.take idx),
      .manifest (String.ofList ((tail.drop idx).drop "/manifests/".toList.length)))
  | none =>
    match rfind "/blobs/".toList tail with
    | some idx =>
      some (String.ofList (tail.take idx),
        .blob (String.ofList ((tail.drop idx).drop "/blobs/".toList.length)))
    | none => (stripSuffix "/tags/list".toList tail).map fun name => (String.ofList name, .tagsList)

/-! ## URLs -/

def isTagChar (c : Char) : Bool := c.isAlphanum || c = '_' || c = '.' || c = '-'

/-- `sha256:<hex>` -/
def IsDigest (s : String) : Prop :=
  ∃ hex : String, hex.toList.all isHexDigit = true ∧ s = "sha256:" ++ hex

namespace Endpoint

/-- What stands behind the name. -/
def path : Endpoint → String
  | manifest reference => "manifests/" ++ reference
  | blob digest => "blobs/" ++ digest
  | tagsList => "tags/list"

/-- A reference is a tag or a digest. -/
def Valid : Endpoint → Prop
  | manifest reference => reference.toList.all isTagChar = true ∨ IsDigest reference
  | blob digest => IsDigest digest
  | tagsList => True

/-- The words that are searched for before the endpoint's own. -/
def earlier : Endpoint → List (List Char)
  | manifest _ => []
  | blob _ => ["manifests".toList]
  | tagsList => ["manifests".toList, "blobs".toList]

end Endpoint

/-! ## The search -/

theorem slash_not_mem_of_digest {s : String} (h : IsDigest s) : '/' ∉ s.toList := by
  obtain ⟨hex, hhex, rfl⟩ := h
  rw [String.toList_append, List.mem_append, not_or]
  refine ⟨by decide, fun hm => ?_⟩
  exact absurd (List.all_eq_true.mp hhex '/' hm) (by decide)

theorem slash_not_mem_of_tag {s : String} (h : s.toList.all isTagChar = true) : '/' ∉ s.toList :=
  fun hm => absurd (List.all_eq_true.mp h '/' hm) (by decide)

theorem marker_manifests : "/manifests/".toList = marker '/' "manifests".toList := by
  decide

theorem marker_blobs : "/blobs/".toList = marker '/' "blobs".toList := by decide

theorem slash_not_mem_words :
    '/' ∉ "manifests".toList ∧ '/' ∉ "blobs".toList ∧ '/' ∉ "tags".toList ∧
      '/' ∉ "list".toList := by
  decide

/-- The name and what stands behind the marker, when the marker was found at the end of the name. -/
theorem split_at_marker (name : String) (w y : List Char) :
    String.ofList ((name.toList ++ marker '/' w ++ y).take name.toList.length) = name ∧
      ((name.toList ++ marker '/' w ++ y).drop name.toList.length).drop (marker '/' w).length =
        y := by
  constructor
  · rw [List.append_assoc, List.take_left, String.ofList_toList]
  · rw [List.append_assoc, List.drop_left, List.drop_left]

theorem splitTail_manifest (name reference : String) (h : '/' ∉ reference.toList) :
    splitTail (name ++ "/" ++ (Endpoint.manifest reference).path) =
      some (name, .manifest reference) := by
  have htail : (name ++ "/" ++ (Endpoint.manifest reference).path).toList =
      name.toList ++ marker '/' "manifests".toList ++ reference.toList := by
    rw [← marker_manifests]
    simp [Endpoint.path, String.toList_append]
  have hfind : rfind (marker '/' "manifests".toList) (name.toList ++
      marker '/' "manifests".toList ++ reference.toList) = some name.toList.length := by
    refine (rfind_marker_iff slash_not_mem_words.1).mpr ?_
    rw [splitLines_of_not_mem h]
    exact List.not_mem_nil
  obtain ⟨hname, hrest⟩ := split_at_marker name "manifests".toList reference.toList
  rw [splitTail, htail, marker_manifests]
  simp only [hfind, hname, hrest, String.ofList_toList]

/-- A marker of another kind is found if and only if its word is a segment of the name. -/
theorem rfind_behind_name {name : String} {v w y : List Char} (hv : '/' ∉ v) (hw : '/' ∉ w)
    (hy : '/' ∉ y) (hne : v ≠ w) :
    rfind (marker '/' v) (name.toList ++ marker '/' w ++ y) = none ↔
      v ∉ (segments '/' name.toList).tail := by
  rw [rfind_marker_eq_none hv hw, splitLines_of_not_mem hy]
  simp [hne]

theorem splitTail_blob_iff (name digest : String) (h : '/' ∉ digest.toList) :
    splitTail (name ++ "/" ++ (Endpoint.blob digest).path) = some (name, .blob digest) ↔
      "manifests".toList ∉ (segments '/' name.toList).tail := by
  obtain ⟨hm, hb, -, -⟩ := slash_not_mem_words
  have htail : (name ++ "/" ++ (Endpoint.blob digest).path).toList =
      name.toList ++ marker '/' "blobs".toList ++ digest.toList := by
    rw [← marker_blobs]
    simp [Endpoint.path, String.toList_append]
  rw [splitTail, htail, marker_manifests, marker_blobs,
    ← rfind_behind_name hm hb h (by decide)]
  cases hfind : rfind (marker '/' "manifests".toList) (name.toList ++
      marker '/' "blobs".toList ++ digest.toList) with
  | some i => exact iff_of_false (by simp) (by simp)
  | none =>
    have hblob : rfind (marker '/' "blobs".toList) (name.toList ++
        marker '/' "blobs".toList ++ digest.toList) = some name.toList.length := by
      refine (rfind_marker_iff hb).mpr ?_
      rw [splitLines_of_not_mem h]
      exact List.not_mem_nil
    obtain ⟨hname, hrest⟩ := split_at_marker name "blobs".toList digest.toList
    refine iff_of_true ?_ rfl
    simp only [hblob, hname, hrest, String.ofList_toList]

theorem splitTail_tagsList_iff (name : String) :
    splitTail (name ++ "/" ++ Endpoint.tagsList.path) = some (name, .tagsList) ↔
      "manifests".toList ∉ (segments '/' name.toList).tail ∧
        "blobs".toList ∉ (segments '/' name.toList).tail := by
  obtain ⟨hm, hb, ht, hl⟩ := slash_not_mem_words
  have hsuffix : "/tags/list".toList = marker '/' "tags".toList ++ "list".toList := by
    decide
  have htail : (name ++ "/" ++ Endpoint.tagsList.path).toList =
      name.toList ++ marker '/' "tags".toList ++ "list".toList := by
    rw [List.append_assoc, ← hsuffix]
    simp [Endpoint.path, String.toList_append]
  rw [splitTail, htail, marker_manifests, marker_blobs,
    ← rfind_behind_name hm ht hl (by decide),
    ← rfind_behind_name hb ht hl (by decide)]
  cases hfind : rfind (marker '/' "manifests".toList) (name.toList ++
      marker '/' "tags".toList ++ "list".toList) with
  | some i => exact iff_of_false (by simp) (by simp)
  | none =>
    cases hblob : rfind (marker '/' "blobs".toList) (name.toList ++
        marker '/' "tags".toList ++ "list".toList) with
    | some i => exact iff_of_false (by simp) (by simp)
    | none =>
      refine iff_of_true ?_ ⟨rfl, rfl⟩
      have hstrip : stripSuffix "/tags/list".toList (name.toList ++ marker '/' "tags".toList ++
          "list".toList) = some name.toList := by
        rw [stripSuffix, List.append_assoc, ← hsuffix, if_pos]
        · simp
        · exact List.isSuffixOf_iff_suffix.mpr (List.suffix_append _ _)
      simp only [hstrip, Option.map_some, String.ofList_toList]

/-- **An endpoint is found if and only if no segment of the name behind the first is one of the
    words that are searched for before it.** -/
theorem splitTail_iff (forge : String) (slug : Slug) (leaf : String) {e : Endpoint} (he : e.Valid) :
    splitTail (World.imageName forge slug.asStr leaf ++ "/" ++ e.path) =
        some (World.imageName forge slug.asStr leaf, e) ↔
      ∀ w ∈ e.earlier, w ∉ (segments '/' (World.imageName forge slug.asStr leaf).toList).tail := by
  cases e with
  | manifest reference =>
    have hslash : '/' ∉ reference.toList := he.elim slash_not_mem_of_tag slash_not_mem_of_digest
    exact iff_of_true (splitTail_manifest _ _ hslash) (fun w hw => absurd hw List.not_mem_nil)
  | blob digest =>
    rw [splitTail_blob_iff _ _ (slash_not_mem_of_digest he), Endpoint.earlier,
      List.forall_mem_singleton]
  | tagsList =>
    rw [splitTail_tagsList_iff, Endpoint.earlier, List.forall_mem_cons, List.forall_mem_singleton]

/-- A repository may be called `blobs`. -/
theorem splitTail_iff_blobs :
    splitTail (World.imageName "github" "acme/blobs" "web" ++ "/" ++
        (Endpoint.blob "sha256:0f").path) =
      some (World.imageName "github" "acme/blobs" "web", .blob "sha256:0f") :=
  (splitTail_iff "github" ⟨"acme/blobs", by decide⟩ "web" (e := .blob "sha256:0f")
    ⟨"0f", by decide, by decide⟩).mpr (by decide)

/-- **The blobs of a repository called `manifests` cannot be had.** -/
theorem not_splitTail_manifests : slugError "acme/manifests" = none ∧
    (Endpoint.blob "sha256:0f").Valid ∧
    splitTail (World.imageName "github" "acme/manifests" "web" ++ "/" ++
        (Endpoint.blob "sha256:0f").path) =
      some ("github/acme", .manifest "web/blobs/sha256:0f") ∧
    splitTail (World.imageName "github" "acme/manifests" "web" ++ "/" ++
        (Endpoint.blob "sha256:0f").path) ≠
      some (World.imageName "github" "acme/manifests" "web", .blob "sha256:0f") :=
  ⟨by decide, ⟨"0f", by decide, by decide⟩, by decide,
    by decide⟩

end Argunix.Registry
