import Argunix.Web.FlakeServe
import Argunix.Web.Supersede

/-!
# `argunix-web`: the URLs of a synthetic flake

A flake URL is the slug, and behind it `/eval/<id>`, `/ref/<branch>` or nothing. The parser searches
for the last `/eval/` and, if there is none, for the last `/ref/`. The words may be segments of the
slug, and the last one is then still the right one; but a branch may have slashes too, and **a
branch that has `eval` or `ref` as a segment before its last is read as something else**: as another
evaluation, as another slug, or not at all.

`parseTail_iff` says that there is no other exception. Slashes at the end of the URL do not matter.
-/

set_option autoImplicit false

namespace Argunix.Web.Flake

open Argunix.Lib Argunix.Forge

/-! ## The URLs -/

/-- `n` slashes. -/
def slashes (n : ℕ) : String := String.ofList (List.replicate n '/')

def evalUrl (slug : Slug) (id : ℕ) : String := slug.asStr ++ "/eval/" ++ toString id

def refUrl (slug : Slug) (branch : String) : String := slug.asStr ++ "/ref/" ++ branch

def evalWord : List Char := "eval".toList

def refWord : List Char := "ref".toList

/-- A segment before the last is one of the two words. -/
def HasMarker (branch : String) : Prop :=
  evalWord ∈ (segments '/' branch.toList).dropLast ∨ refWord ∈ (segments '/' branch.toList).dropLast

instance (branch : String) : Decidable (HasMarker branch) :=
  inferInstanceAs (Decidable (_ ∨ _))

/-- **What was built is read back.** -/
structure RoundTrips (slug : Slug) (id : ℕ) (branch : String) (n : ℕ) : Prop where
  evalId : parseTail (evalUrl slug id ++ slashes n) = some ⟨slug.asStr, .evalId ⟨id⟩⟩
  onRef : parseTail (refUrl slug branch ++ slashes n) = some ⟨slug.asStr, .latestOnRef branch⟩
  bare : parseTail (slug.asStr ++ slashes n) = some ⟨slug.asStr, .latestDefault⟩

/-! ## Pieces -/

theorem trimEndMatches_append {c : Char} {s : List Char} (h : s.getLast? ≠ some c) (n : ℕ) :
    trimEndMatches c (s ++ List.replicate n c) = s := by
  have hhead : s.reverse.dropWhile (· = c) = s.reverse := by
    rw [← List.head?_reverse] at h
    cases hs : s.reverse with
    | nil => rfl
    | cons x xs =>
      rw [hs] at h
      have hx : x ≠ c := fun heq => h (congrArg some heq)
      rw [List.dropWhile_cons_of_neg (by simpa using hx)]
  rw [trimEndMatches, List.reverse_append, List.reverse_replicate]
  have hdrop : (List.replicate n c ++ s.reverse).dropWhile (· = c) = s.reverse := by
    induction n with
    | zero => exact hhead
    | succ n ih =>
      rw [List.replicate_succ, List.cons_append, List.dropWhile_cons_of_pos (by simp)]
      exact ih
  rw [hdrop, List.reverse_reverse]

theorem slug_ne_nil (slug : Slug) : slug.asStr.toList ≠ [] := by
  intro h
  have hvalid := slug.valid
  have hempty : slug.asStr = "" := String.toList_injective h
  rw [slugError, if_pos hempty] at hvalid
  exact absurd hvalid (by simp)

theorem slug_getLast (slug : Slug) : slug.asStr.toList.getLast? ≠ some '/' := by
  intro h
  have hvalid := slug.valid
  unfold slugError at hvalid
  split at hvalid
  · exact absurd hvalid (by simp)
  · rw [if_pos (.inr (.inl h))] at hvalid
    exact absurd hvalid (by simp)

theorem digit_of_mem {n : ℕ} {c : Char} (h : c ∈ Nat.toDigits 10 n) : c.isDigit = true :=
  Nat.isDigit_of_mem_toDigits (by decide) (by decide) h

theorem ne_of_digit {c d : Char} (h : c.isDigit = true) (hd : d.isDigit = false) : c ≠ d :=
  fun heq => absurd (hd.symm.trans (heq ▸ h)) (by simp)

theorem parseI64_toDigits {n : ℕ} (hn : n < 2 ^ 63) :
    parseI64 (Nat.toDigits 10 n) = some (n : ℤ) := by
  have hvalue : digits (Nat.toDigits 10 n) = some n := by
    rw [digits, if_pos ⟨Nat.toDigits_ne_nil, List.all_eq_true.mpr fun c => digit_of_mem⟩]
    exact congrArg some Nat.ofDigitChars_ten_toDigits
  have hhead : ∀ d ∈ (Nat.toDigits 10 n).head?, d.isDigit = true :=
    fun d hd => digit_of_mem (List.mem_of_mem_head? hd)
  unfold parseI64
  split
  · rename_i ds heq
    rw [heq] at hhead
    exact absurd (hhead '-' rfl) (by decide)
  · rename_i ds heq
    rw [heq] at hhead
    exact absurd (hhead '+' rfl) (by decide)
  · rw [hvalue]
    exact if_pos hn

theorem slash_not_mem_evalWord : '/' ∉ evalWord := by decide

theorem slash_not_mem_refWord : '/' ∉ refWord := by decide

theorem marker_evalWord : "/eval/".toList = marker '/' evalWord := by decide

theorem marker_refWord : "/ref/".toList = marker '/' refWord := by decide

/-- What `parse_tail` sees of a URL. -/
theorem toList_url {pre : String} {w : List Char} (hpre : pre.toList = marker '/' w) (slug : Slug)
    (y : String) (n : ℕ) :
    (slug.asStr ++ pre ++ y ++ slashes n).toList =
      (slug.asStr.toList ++ marker '/' w ++ y.toList) ++ List.replicate n '/' := by
  simp [String.toList_append, hpre, slashes, List.append_assoc]

theorem getLast?_url {slug : Slug} {w y : List Char} (hne : y ≠ [])
    (hlast : y.getLast? ≠ some '/') :
    (slug.asStr.toList ++ marker '/' w ++ y).getLast? ≠ some '/' := by
  rwa [List.getLast?_append_of_ne_nil _ hne]

/-! ## The three forms -/

theorem parseTail_evalUrl (slug : Slug) {id : ℕ} (hid : id < 2 ^ 63) (n : ℕ) :
    parseTail (evalUrl slug id ++ slashes n) = some ⟨slug.asStr, .evalId ⟨id⟩⟩ := by
  have hdigits : (toString id).toList = Nat.toDigits 10 id := by
    rw [Nat.toString_eq_repr, Nat.toList_repr]
  have hslash : '/' ∉ Nat.toDigits 10 id := fun h => ne_of_digit (digit_of_mem h) (by decide) rfl
  have hlast : (Nat.toDigits 10 id).getLast? ≠ some '/' :=
    fun h => hslash (List.mem_of_getLast? h)
  have htrim : trimEndMatches '/' (evalUrl slug id ++ slashes n).toList =
      slug.asStr.toList ++ marker '/' evalWord ++ Nat.toDigits 10 id := by
    rw [evalUrl, toList_url marker_evalWord, hdigits]
    exact trimEndMatches_append (getLast?_url Nat.toDigits_ne_nil hlast) n
  have hfind : rfind "/eval/".toList (slug.asStr.toList ++ marker '/' evalWord ++
      Nat.toDigits 10 id) = some slug.asStr.toList.length := by
    rw [marker_evalWord]
    refine (rfind_marker_iff slash_not_mem_evalWord).mpr ?_
    rw [splitLines_of_not_mem hslash]
    exact List.not_mem_nil
  have hrest : (slug.asStr.toList ++ marker '/' evalWord ++ Nat.toDigits 10 id).drop
      (slug.asStr.toList.length + "/eval/".toList.length) = Nat.toDigits 10 id := by
    rw [marker_evalWord, ← List.length_append, List.drop_left]
  have hslug : (slug.asStr.toList ++ marker '/' evalWord ++ Nat.toDigits 10 id).take
      slug.asStr.toList.length = slug.asStr.toList := by
    rw [List.append_assoc, List.take_left]
  rw [parseTail, htrim]
  simp only [hfind, hrest, hslug]
  have hgood : ¬ (slug.asStr.toList = [] ∨ Nat.toDigits 10 id = [] ∨ '/' ∈ Nat.toDigits 10 id) :=
    not_or.mpr ⟨slug_ne_nil slug, not_or.mpr ⟨Nat.toDigits_ne_nil, hslash⟩⟩
  rw [if_neg (by simp [marker]), if_neg hgood, parseI64_toDigits hid]
  simp

theorem parseTail_bare {slug : Slug} (heval : evalWord ∉ segments '/' slug.asStr.toList)
    (href : refWord ∉ segments '/' slug.asStr.toList) (n : ℕ) :
    parseTail (slug.asStr ++ slashes n) = some ⟨slug.asStr, .latestDefault⟩ := by
  have htrim : trimEndMatches '/' (slug.asStr ++ slashes n).toList = slug.asStr.toList := by
    rw [String.toList_append, slashes, String.toList_ofList]
    exact trimEndMatches_append (slug_getLast slug) n
  have hnone : ∀ w, '/' ∉ w → w ∉ segments '/' slug.asStr.toList →
      rfind (marker '/' w) slug.asStr.toList = none := by
    intro w hw hslug
    rw [rfind_eq_none, infix_marker_iff hw, ← dropLast_segments]
    exact fun h => hslug (List.mem_of_mem_dropLast (List.mem_of_mem_tail h))
  rw [parseTail, htrim, marker_evalWord, marker_refWord, hnone _ slash_not_mem_evalWord heval,
    hnone _ slash_not_mem_refWord href, if_neg (slug_ne_nil slug)]
  simp

/-- A branch name neither is empty nor ends with a slash. -/
theorem branch_getLast {branch : String} (h : GitValid branch) :
    branch.toList ≠ [] ∧ branch.toList.getLast? ≠ some '/' := by
  have hparts := h.parts
  rw [splitOn_eq_segments] at hparts
  have hrest : (splitLines '/' branch.toList).2 ≠ [] :=
    (hparts _ (List.mem_append_right _ (List.mem_singleton_self _))).1
  constructor
  · intro hnil
    rw [hnil] at hrest
    exact hrest rfl
  · intro hlast
    obtain ⟨s, hs⟩ := List.getLast?_eq_some_iff.mp hlast
    rw [hs, splitLines_append_sep] at hrest
    exact hrest rfl

theorem parseTail_refUrl_iff {slug : Slug} {branch : String}
    (heval : evalWord ∉ segments '/' slug.asStr.toList) (hb : GitValid branch) (n : ℕ) :
    parseTail (refUrl slug branch ++ slashes n) = some ⟨slug.asStr, .latestOnRef branch⟩ ↔
      ¬ HasMarker branch := by
  obtain ⟨hne, hlast⟩ := branch_getLast hb
  have htrim : trimEndMatches '/' (refUrl slug branch ++ slashes n).toList =
      slug.asStr.toList ++ marker '/' refWord ++ branch.toList := by
    rw [refUrl, toList_url marker_refWord]
    exact trimEndMatches_append (getLast?_url hne hlast) n
  have hurl : slug.asStr.toList ++ marker '/' refWord ++ branch.toList ≠ [] := by
    simp [marker]
  have hevalNone : rfind (marker '/' evalWord) (slug.asStr.toList ++ marker '/' refWord ++
      branch.toList) = none ↔ evalWord ∉ (splitLines '/' branch.toList).1 := by
    have hslug : evalWord ∉ (segments '/' slug.asStr.toList).tail :=
      fun h => heval (List.mem_of_mem_tail h)
    rw [rfind_marker_eq_none slash_not_mem_evalWord slash_not_mem_refWord, and_iff_right hslug]
    exact and_iff_right (by decide)
  rw [parseTail, htrim, marker_evalWord, marker_refWord, if_neg hurl, HasMarker, dropLast_segments,
    not_or, ← hevalNone]
  cases hfind : rfind (marker '/' evalWord) (slug.asStr.toList ++ marker '/' refWord ++
      branch.toList) with
  | some i =>
    -- whatever is read, it is an evaluation
    refine iff_of_false (fun h => ?_) (fun h => absurd h.1 (by simp))
    simp only at h
    split at h
    · exact absurd h (by simp)
    · obtain ⟨id, -, heq⟩ := Option.map_eq_some_iff.mp h
      exact absurd (congrArg ParsedTail.selector heq) (by simp)
  | none =>
    simp only [true_and]
    rw [← rfind_marker_iff slash_not_mem_refWord (x := slug.asStr.toList)]
    cases hmark : rfind (marker '/' refWord) (slug.asStr.toList ++ marker '/' refWord ++
        branch.toList) with
    | none => exact absurd (List.infix_append _ _ _) (rfind_eq_none.mp hmark)
    | some i =>
      have hi := (rfind_eq_some.mp hmark).1
      simp only
      by_cases heq : i = slug.asStr.toList.length
      · have hslug : (slug.asStr.toList ++ marker '/' refWord ++ branch.toList).take i =
            slug.asStr.toList := by
          rw [heq, List.append_assoc, List.take_left]
        have hbranch : (slug.asStr.toList ++ marker '/' refWord ++ branch.toList).drop
            (i + (marker '/' refWord).length) = branch.toList := by
          rw [heq, ← List.length_append, List.drop_left]
        rw [hslug, hbranch, if_neg (not_or.mpr ⟨slug_ne_nil slug, hne⟩)]
        simp [heq]
      · refine iff_of_false (fun h => heq ?_) (fun h => heq (Option.some.inj h))
        split at h
        · exact absurd h (by simp)
        · -- the slug that was read is as long as the place of the marker
          have hread := congrArg (fun t => t.slug.toList.length) (Option.some.inj h)
          simp only [String.toList_ofList, List.length_take] at hread
          omega

/-! ## The round trip -/

/-- **A URL is read back if and only if no segment of the branch before its last is `eval` or
    `ref`.** -/
theorem parseTail_iff {slug : Slug} {id : ℕ} {branch : String} (n : ℕ) (hid : id < 2 ^ 63)
    (heval : evalWord ∉ segments '/' slug.asStr.toList)
    (href : refWord ∉ segments '/' slug.asStr.toList) (hb : GitValid branch) :
    RoundTrips slug id branch n ↔ ¬ HasMarker branch := by
  rw [← parseTail_refUrl_iff heval hb n]
  exact ⟨fun h => h.onRef, fun h => ⟨parseTail_evalUrl slug hid n, h, parseTail_bare heval href n⟩⟩

def ownerRepo : Slug := ⟨"owner/repo", by decide⟩

/-- A name whose parts are all in order. -/
theorem gitValid_of_parts {name : String}
    (hchars : (name.toList.all fun c => 0x20 < c.toNat ∧ c.toNat ≠ 0x7f ∧
      c ∉ ['~', '^', ':', '?', '*', '[', '\\']) = true)
    (hparts : ∀ part ∈ segments '/' name.toList,
      part ≠ [] ∧ part.head? ≠ some '.' ∧ ¬ ".lock".toList <:+ part)
    (hrest : ¬ "..".toList <:+: name.toList ∧ ¬ ['@', Char.ofNat 0x7b] <:+: name.toList ∧
      name.toList.getLast? ≠ some '.' ∧ name ≠ "@") : GitValid name := by
  refine ⟨fun c hc => ?_, ?_, hrest.1, hrest.2.1, hrest.2.2.1, hrest.2.2.2⟩
  · exact of_decide_eq_true (List.all_eq_true.mp hchars c hc)
  · rw [splitOn_eq_segments]
    exact hparts

/-- The last segment may be one of the words. -/
theorem parseTail_iff_feature : RoundTrips ownerRepo 42 "feature/eval" 2 :=
  (parseTail_iff 2 (by decide) (by decide) (by decide)
    (gitValid_of_parts (by decide) (by decide) (by decide))).mpr
    (by decide)

/-- **A branch `feature/eval/3` is read as evaluation 3** of a repository that does not exist. -/
theorem not_roundTrips_eval : GitValid "feature/eval/3" ∧
    evalWord ∉ segments '/' ownerRepo.asStr.toList ∧
    refWord ∉ segments '/' ownerRepo.asStr.toList ∧
    parseTail (refUrl ownerRepo "feature/eval/3") =
      some ⟨"owner/repo/ref/feature", .evalId ⟨3⟩⟩ ∧
    ¬ RoundTrips ownerRepo 42 "feature/eval/3" 0 := by
  have hread : parseTail (refUrl ownerRepo "feature/eval/3") =
      some ⟨"owner/repo/ref/feature", .evalId ⟨3⟩⟩ := by decide
  have hsame : refUrl ownerRepo "feature/eval/3" ++ slashes 0 =
      refUrl ownerRepo "feature/eval/3" := by decide
  refine ⟨gitValid_of_parts (by decide) (by decide) (by decide),
    by decide, by decide, hread, fun h => ?_⟩
  have hback := h.onRef
  rw [hsame, hread] at hback
  exact absurd hback (by decide)

end Argunix.Web.Flake
