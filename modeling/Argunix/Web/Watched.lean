import Argunix.Lib.Glob
import Argunix.Web.Policy

/-!
# Watched branches

The docs, the header of the policy and the sample configuration give `watched_branches` as glob
patterns. `branch_matches` compares: a pattern is the branch's name or its ref, or it matches
nothing. So a pattern with a metacharacter watches no branch.

`watches_iff` is about every dialect (`Glob`) and exact. For a pattern that has no metacharacter the
comparison is right, unless it begins with `refs/` and not with `refs/heads/`: it is not
canonicalised then, and matches no branch.
-/

set_option autoImplicit false

namespace Argunix.Web

open Argunix.Lib Argunix.Forge

/-- A pattern without the `refs/heads/` that it may begin with. -/
def barePattern (pattern : String) : String := (stripPrefix "refs/heads/" pattern).getD pattern

/-- **A push is built exactly if its branch matches a pattern.** A tag is no branch. -/
def Watches (G : Glob) (repo : Repo) (push : PushEvent) : Prop :=
  evaluatePush repo push = .build ↔
    ∃ b, push.gitRef = "refs/heads/" ++ b ∧
      ∃ p ∈ repo.watchedBranches, G.Matches (barePattern p).toList b.toList

/-- It has a metacharacter, or it begins with `refs/` and names no branch. -/
def Special (G : Glob) (pattern : String) : Prop :=
  (∃ c ∈ (barePattern pattern).toList, G.IsMeta c) ∨
    ((stripPrefix "refs/" pattern).isSome ∧ stripPrefix "refs/heads/" pattern = none)

/-- The pattern is the name of the branch or its ref, literally. -/
def Names (pattern branch : String) : Prop :=
  pattern = "refs/heads/" ++ branch ∨
    (pattern = branch ∧ stripPrefix "refs/" pattern = none)

variable {G : Glob} {repo : Repo} {push : PushEvent} {p b : String}

theorem isPrefixOf_eq_isSome (start text : String) :
    start.toList.isPrefixOf text.toList = (stripPrefix start text).isSome := by
  unfold stripPrefix
  split <;> simp [*]

theorem refs_of_heads {rest : String} (h : stripPrefix "refs/heads/" p = some rest) :
    stripPrefix "refs/" p = some ("heads/" ++ rest) := by
  rw [stripPrefix_eq_some] at h ⊢
  rw [h, ← String.append_assoc]
  rfl

theorem heads_inj {b b' : String} (h : "refs/heads/" ++ b = "refs/heads/" ++ b') : b = b' := by
  apply String.toList_injective
  have hlist := congrArg String.toList h
  rw [String.toList_append, String.toList_append] at hlist
  exact List.append_cancel_left hlist

/-- **What the code compares.** -/
theorem evaluatePush_eq_build_iff :
    evaluatePush repo push = .build ↔
      ∃ b, push.gitRef = "refs/heads/" ++ b ∧ ∃ p ∈ repo.watchedBranches, Names p b := by
  have hbuild : evaluatePush repo push = .build ↔
      branchMatches push.gitRef repo.watchedBranches = true := by
    unfold evaluatePush
    split <;> simp [*]
  rw [hbuild, branchMatches, Bool.and_eq_true, isPrefixOf_eq_isSome, Option.isSome_iff_exists,
    List.any_eq_true]
  have hnames : ∀ {b p : String}, push.gitRef = "refs/heads/" ++ b →
      (decide ((if "refs/".toList.isPrefixOf p.toList then p else "refs/heads/" ++ p) =
        push.gitRef) = true ↔ Names p b) := by
    intro b p href
    rw [decide_eq_true_eq, isPrefixOf_eq_isSome, href]
    cases hp : stripPrefix "refs/" p with
    | some rest => simp [Names, hp]
    | none =>
      have hno : p ≠ "refs/heads/" ++ b := by
        intro heq
        rw [refs_of_heads (stripPrefix_eq_some.mpr heq)] at hp
        exact absurd hp (by simp)
      simp only [Names, hp, hno, Option.isSome_none, Bool.false_eq_true, if_false, false_or,
        and_true]
      exact ⟨heads_inj, fun heq => heq ▸ rfl⟩
  constructor
  · intro ⟨⟨b, hb⟩, p, hp, hcmp⟩
    have href := stripPrefix_eq_some.mp hb
    exact ⟨b, href, p, hp, (hnames href).mp hcmp⟩
  · intro ⟨b, href, p, hp, hname⟩
    exact ⟨⟨b, stripPrefix_eq_some.mpr href⟩, p, hp, (hnames href).mpr hname⟩

/-- **A pattern that is not special is compared as a glob would be.** -/
theorem names_iff_of_plain (h : ¬ Special G p) :
    Names p b ↔ G.Matches (barePattern p).toList b.toList := by
  obtain ⟨hmeta, hrefs⟩ := not_or.mp h
  have hplain : ∀ c ∈ (barePattern p).toList, ¬ G.IsMeta c := fun c hc hm => hmeta ⟨c, hc, hm⟩
  rw [G.plain hplain, String.toList_inj]
  cases hheads : stripPrefix "refs/heads/" p with
  | some rest =>
    have hp := stripPrefix_eq_some.mp hheads
    have hbare : barePattern p = rest := by rw [barePattern, hheads]; rfl
    rw [hbare, Names, refs_of_heads hheads]
    simp only [reduceCtorEq, and_false, or_false]
    rw [hp]
    exact ⟨heads_inj, fun heq => heq ▸ rfl⟩
  | none =>
    have hbare : barePattern p = p := by rw [barePattern, hheads]; rfl
    have hnone : stripPrefix "refs/" p = none := by
      cases hr : stripPrefix "refs/" p with
      | none => rfl
      | some rest => exact absurd ⟨by rw [hr]; rfl, hheads⟩ hrefs
    have hno : p ≠ "refs/heads/" ++ b := by
      intro heq
      rw [stripPrefix_eq_some.mpr heq] at hheads
      exact absurd hheads (by simp)
    rw [hbare, Names, hnone]
    simp [hno]

/-- Where the branch is not listed under a plain pattern, the special ones decide it the same way
    literally and as globs. -/
def Decided (G : Glob) (patterns : List String) (gitRef : String) : Prop :=
  ∀ b, gitRef = "refs/heads/" ++ b → (∃ p ∈ patterns, ¬ Special G p ∧ Names p b) ∨
    ((∃ p ∈ patterns, Special G p ∧ Names p b) ↔
      ∃ p ∈ patterns, Special G p ∧ G.Matches (barePattern p).toList b.toList)

theorem exists_split {patterns : List String} {S P : String → Prop} :
    (∃ p ∈ patterns, P p) ↔ (∃ p ∈ patterns, ¬ S p ∧ P p) ∨ ∃ p ∈ patterns, S p ∧ P p := by
  constructor
  · intro ⟨p, hp, h⟩
    by_cases hs : S p
    · exact .inr ⟨p, hp, hs, h⟩
    · exact .inl ⟨p, hp, hs, h⟩
  · intro h
    rcases h with ⟨p, hp, -, h⟩ | ⟨p, hp, -, h⟩ <;> exact ⟨p, hp, h⟩

theorem or_congr_right_iff_or {a b c : Prop} : (a ∨ b ↔ a ∨ c) ↔ a ∨ (b ↔ c) := by
  by_cases ha : a <;> simp [ha]

/-- **Exactly when watched branches are matched as globs**, in every dialect. -/
theorem watches_iff (G : Glob) (repo : Repo) (push : PushEvent) :
    Watches G repo push ↔ Decided G repo.watchedBranches push.gitRef := by
  rw [Watches, evaluatePush_eq_build_iff]
  by_cases href : ∃ b, push.gitRef = "refs/heads/" ++ b
  · obtain ⟨b, href⟩ := href
    have hbranch : ∀ P : String → Prop, (∃ b', push.gitRef = "refs/heads/" ++ b' ∧ P b') ↔ P b :=
      fun P => ⟨fun ⟨b', hb', h⟩ => heads_inj (href.symm.trans hb') ▸ h, fun h => ⟨b, href, h⟩⟩
    have hdecided : ∀ P : String → Prop, (∀ b', push.gitRef = "refs/heads/" ++ b' → P b') ↔ P b :=
      fun P => ⟨fun h => h b href, fun h b' hb' => heads_inj (href.symm.trans hb') ▸ h⟩
    have hplain : (∃ p ∈ repo.watchedBranches, ¬ Special G p ∧
        G.Matches (barePattern p).toList b.toList) ↔
          ∃ p ∈ repo.watchedBranches, ¬ Special G p ∧ Names p b :=
      exists_congr fun p => and_congr_right fun _ => and_congr_right fun h =>
        (names_iff_of_plain h).symm
    rw [hbranch, hbranch, Decided, hdecided, exists_split (S := Special G),
      exists_split (S := Special G) (P := fun p => G.Matches _ _), hplain]
    exact or_congr_right_iff_or
  · have hnone : ∀ P : String → Prop, ¬ ∃ b', push.gitRef = "refs/heads/" ++ b' ∧ P b' :=
      fun P ⟨b', hb', _⟩ => href ⟨b', hb'⟩
    exact iff_of_true (iff_of_false (hnone _) (hnone _)) fun b hb => absurd ⟨b, hb⟩ href

/-- **Of a branch whose name has no metacharacter** (git takes none that has one): it is listed, or
    it matches no pattern that has one. -/
theorem decided_iff {patterns : List String} (hb : ∀ c ∈ b.toList, ¬ G.IsMeta c) :
    Decided G patterns ("refs/heads/" ++ b) ↔
      (∃ p ∈ patterns, ¬ Special G p ∧ Names p b) ∨
        ∀ p ∈ patterns, Special G p → ¬ G.Matches (barePattern p).toList b.toList := by
  have hspecial : ¬ ∃ p ∈ patterns, Special G p ∧ Names p b := by
    intro ⟨p, _, hs, hname⟩
    have hbare : barePattern p = b ∧
        ¬ ((stripPrefix "refs/" p).isSome ∧ stripPrefix "refs/heads/" p = none) := by
      rcases hname with rfl | ⟨rfl, hnone⟩
      · rw [barePattern, stripPrefix_append]
        exact ⟨rfl, fun h => absurd h.2 (by simp)⟩
      · have hheads : stripPrefix "refs/heads/" p = none := by
          cases hh : stripPrefix "refs/heads/" p with
          | none => rfl
          | some rest => exact absurd (refs_of_heads hh) (by rw [hnone]; simp)
        rw [barePattern, hheads, hnone]
        exact ⟨rfl, fun h => absurd h.1 (by simp)⟩
    rcases hs with ⟨c, hc, hmeta⟩ | hrefs
    · exact hb c (hbare.1 ▸ hc) hmeta
    · exact hbare.2 hrefs
  have hdecided : Decided G patterns ("refs/heads/" ++ b) ↔
      (∃ p ∈ patterns, ¬ Special G p ∧ Names p b) ∨
        ((∃ p ∈ patterns, Special G p ∧ Names p b) ↔
          ∃ p ∈ patterns, Special G p ∧ G.Matches (barePattern p).toList b.toList) :=
    ⟨fun h => h b rfl, fun h b' hb' => heads_inj hb' ▸ h⟩
  rw [hdecided, iff_false_left hspecial]
  simp only [not_exists, not_and]

def releaseRepo : Repo :=
  ⟨orgApp, "github", ["main", "release/*"], true, [], ⟨.https, none⟩, []⟩

def releasePush : PushEvent :=
  ⟨releaseRepo.slug, "refs/heads/release/1", ⟨"0123456789abcdef0123456789abcdef01234567"⟩, none,
    ⟨none, none, none, none⟩⟩

/-- `release/*` does not watch `release/1`. -/
theorem not_watches_release : ¬ Watches .wildcards releaseRepo releasePush := by
  intro h
  have hglob : ∃ b, releasePush.gitRef = "refs/heads/" ++ b ∧
      ∃ p ∈ releaseRepo.watchedBranches,
        Glob.wildcards.Matches (barePattern p).toList b.toList :=
    ⟨"release/1", by decide, "release/*", by decide,
      show wildcard (barePattern "release/*").toList "release/1".toList = true by decide⟩
  have hbuild := h.mpr hglob
  revert hbuild
  decide

end Argunix.Web
