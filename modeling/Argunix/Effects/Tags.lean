import Argunix.Forge.Events
import Argunix.Web.Supersede

/-!
# `argunix-effects`: the tags of an image

An image that is pushed gets the branch as a tag, `latest` if that is the default branch, and
`sha-<short>`. `push_tags` computes them for one job, `image_tags` for an index over several, and
the second is a copy of the first that has lost one test: **a default branch that is called
`latest`, or comes to be when it is made a tag, has the tag twice** (`pushTags_eq_iff`).

The branch name goes through `sanitize_tag`, which makes each character a legal one but does not
look at what comes out: a tag that begins with a dash, `latest` on another branch, or the tag of
another commit. And a branch that is called `refs/heads/main` is taken for `main`.
`wellTagged_iff` is the exact reading.
-/

set_option autoImplicit false

namespace Argunix.Effects

open Argunix.Web
open Argunix.Forge (isHexDigit shaNew)

/-! ## A build's output -/

/-- `s.get(..n)`: nothing if that is not between two characters of the text. -/
def getTo : ℕ → List Char → Option (List Char)
  | 0, _ => some []
  | _ + 1, [] => none
  | n + 1, c :: cs =>
    if c.utf8Size ≤ n + 1 then (getTo (n + 1 - c.utf8Size) cs).map (c :: ·) else none

/-- What the tags are computed from. -/
structure OutputContext where
  gitRef : String
  defaultBranch : Option String
  sha : String
deriving DecidableEq, Repr

namespace OutputContext

/-- `branch`: the branch of a ref, or a name without `refs/` as it is. -/
def branch (ctx : OutputContext) : Option String :=
  match stripPrefix "refs/heads/" ctx.gitRef with
  | some b => some b
  | none =>
    if ctx.gitRef = "" ∨ (stripPrefix "refs/" ctx.gitRef).isSome then none else some ctx.gitRef

/-- `is_default_branch` -/
def isDefaultBranch (ctx : OutputContext) : Bool :=
  match ctx.branch, ctx.defaultBranch with
  | some b, some d => b = d
  | _, _ => false

/-- `short_sha`: twelve bytes of the commit. -/
def shortSha (ctx : OutputContext) : String :=
  ((getTo 12 ctx.sha.toList).map String.ofList).getD ctx.sha

end OutputContext

/-! ## `registry` -/

namespace Registry

/-- All characters are ASCII when it is truncated. -/
def sanitizeTag (raw : String) : String :=
  let out := raw.toList.map fun c =>
    if c.isAlphanum || c = '_' || c = '.' || c = '-' then c else '-'
  let out := out.take 128
  if out = [] then "latest" else String.ofList out

/-- `push_tags` -/
def pushTags (ctx : OutputContext) : List String :=
  let tags := match ctx.branch with
    | some branch => [sanitizeTag branch]
    | none => []
  let tags := if ctx.isDefaultBranch then
      if "latest" ∈ tags then tags else tags ++ ["latest"]
    else tags
  let shaTag := "sha-" ++ ctx.shortSha
  if shaTag ∈ tags then tags else tags ++ [shaTag]

end Registry

/-! ## `multiarch` -/

namespace Multiarch

/-- `branch_of` -/
def branchOf (gitRef : String) : Option String :=
  match stripPrefix "refs/heads/" gitRef with
  | some b => some b
  | none => if gitRef = "" ∨ (stripPrefix "refs/" gitRef).isSome then none else some gitRef

def sanitizeTag (raw : String) : String :=
  let out := raw.toList.map fun c =>
    if c.isAlphanum || c = '_' || c = '.' || c = '-' then c else '-'
  let out := out.take 128
  if out = [] then "latest" else String.ofList out

/-- `image_tags` -/
def imageTags (gitRef shortSha : String) (defaultBranch : Option String) : List String :=
  let tags := match branchOf gitRef with
    | some b => sanitizeTag b :: if defaultBranch = some b then ["latest"] else []
    | none => []
  let shaTag := "sha-" ++ shortSha
  if shaTag ∈ tags then tags else tags ++ [shaTag]

end Multiarch

/-! ## The two agree, but for one branch -/

theorem branchOf_eq (ctx : OutputContext) : Multiarch.branchOf ctx.gitRef = ctx.branch := rfl

theorem sanitizeTag_eq (raw : String) : Multiarch.sanitizeTag raw = Registry.sanitizeTag raw := rfl

theorem isDefaultBranch_iff {ctx : OutputContext} {b : String} (hb : ctx.branch = some b) :
    ctx.isDefaultBranch = true ↔ ctx.defaultBranch = some b := by
  rw [OutputContext.isDefaultBranch, hb]
  cases ctx.defaultBranch with
  | none => simp
  | some d =>
    simp only [decide_eq_true_eq, Option.some.injEq]
    exact eq_comm

theorem isDefaultBranch_of_none {ctx : OutputContext} (hb : ctx.branch = none) :
    ctx.isDefaultBranch = false := by
  rw [OutputContext.isDefaultBranch, hb]

theorem shaTag_ne_latest (short : String) : "sha-" ++ short ≠ "latest" := by
  intro h
  have hhead := congrArg (fun t => t.toList.head?) h
  simp [String.toList_append] at hhead

/-- `if !tags.contains(&tag) { tags.push(tag) }` -/
def withTag (tag : String) (tags : List String) : List String :=
  if tag ∈ tags then tags else tags ++ [tag]

theorem mem_withTag {tag t : String} {tags : List String} :
    t ∈ withTag tag tags ↔ t ∈ tags ∨ t = tag := by
  rw [withTag]
  split
  · rename_i hmem
    exact ⟨.inl, fun h => h.elim id fun heq => heq ▸ hmem⟩
  · rw [List.mem_append, List.mem_singleton]

theorem nodup_withTag {tag : String} {tags : List String} :
    (withTag tag tags).Nodup ↔ tags.Nodup := by
  rw [withTag]
  split
  · exact Iff.rfl
  · rename_i hmem
    rw [List.nodup_append]
    refine ⟨fun h => h.1, fun h => ⟨h, List.nodup_singleton tag, fun a ha b hb heq => ?_⟩⟩
    exact hmem (List.mem_singleton.mp hb ▸ heq ▸ ha)

section Lists

variable {ctx : OutputContext} {b : String}

open Effects.Registry Effects.Multiarch

theorem pushTags_of_none (hb : ctx.branch = none) : pushTags ctx = ["sha-" ++ ctx.shortSha] := by
  rw [pushTags, hb, isDefaultBranch_of_none hb]
  rfl

theorem imageTags_of_none (hb : ctx.branch = none) :
    imageTags ctx.gitRef ctx.shortSha ctx.defaultBranch = ["sha-" ++ ctx.shortSha] := by
  rw [imageTags, branchOf_eq, hb]
  rfl

theorem pushTags_of_branch (hb : ctx.branch = some b) :
    pushTags ctx = withTag ("sha-" ++ ctx.shortSha)
      (if ctx.defaultBranch = some b then withTag "latest" [Registry.sanitizeTag b]
        else [Registry.sanitizeTag b]) := by
  rw [pushTags, hb, withTag, withTag]
  simp only [isDefaultBranch_iff hb]

theorem imageTags_of_branch (hb : ctx.branch = some b) :
    imageTags ctx.gitRef ctx.shortSha ctx.defaultBranch = withTag ("sha-" ++ ctx.shortSha)
      (Registry.sanitizeTag b :: if ctx.defaultBranch = some b then ["latest"] else []) := by
  rw [imageTags, branchOf_eq, hb]
  rfl

/-- **The two lists are the same, unless the build ran on a default branch whose tag is `latest`.**
    Then it is there twice in the second. -/
theorem pushTags_eq_iff (ctx : OutputContext) :
    pushTags ctx = imageTags ctx.gitRef ctx.shortSha ctx.defaultBranch ↔
      ∀ b, ctx.branch = some b → ctx.isDefaultBranch = true →
        Registry.sanitizeTag b ≠ "latest" := by
  cases hb : ctx.branch with
  | none =>
    rw [pushTags_of_none hb, imageTags_of_none hb]
    exact ⟨fun _ b h => (by cases h), fun _ => rfl⟩
  | some b =>
    rw [pushTags_of_branch hb, imageTags_of_branch hb]
    by_cases hdefault : ctx.defaultBranch = some b
    · have hyes : ctx.isDefaultBranch = true := (isDefaultBranch_iff hb).mpr hdefault
      rw [if_pos hdefault, if_pos hdefault]
      constructor
      · intro heq b' hb' _ hlatest
        obtain rfl := Option.some.inj hb'
        have hnodup : [Registry.sanitizeTag b, "latest"].Nodup := by
          rw [← nodup_withTag, ← heq, nodup_withTag, nodup_withTag]
          exact List.nodup_singleton _
        exact (List.nodup_cons.mp hnodup).1 (List.mem_singleton.mpr hlatest)
      · intro h
        have hmem : "latest" ∉ [Registry.sanitizeTag b] := fun hmem =>
          h b rfl hyes (List.mem_singleton.mp hmem).symm
        have htwo : withTag "latest" [Registry.sanitizeTag b] =
            [Registry.sanitizeTag b, "latest"] := if_neg hmem
        rw [htwo]
    · rw [if_neg hdefault, if_neg hdefault]
      refine ⟨fun _ b' hb' hyes => ?_, fun _ => rfl⟩
      exact absurd ((isDefaultBranch_iff hb).mp hyes) hdefault

/-- A repository whose default branch is `latest`. -/
theorem not_pushTags_eq_latest :
    ¬ ∀ ctx : OutputContext,
      pushTags ctx = imageTags ctx.gitRef ctx.shortSha ctx.defaultBranch := by
  intro h
  exact absurd (h ⟨"latest", some "latest", "0123456789abcdef0123456789abcdef01234567"⟩)
    (by decide +kernel)

end Lists

/-! ## What a tag should be -/

/-- What a tag may have. -/
def isTagChar (c : Char) : Bool := c.isAlphanum || c = '_' || c = '.' || c = '-'

/-- `[A-Za-z0-9_][A-Za-z0-9_.-]{0,127}` -/
def LegalTag (tag : String) : Prop :=
  (∃ c ∈ tag.toList.head?, c.isAlphanum = true ∨ c = '_') ∧ tag.toList.all isTagChar = true ∧
    tag.toList.length ≤ 128

/-- `sha-<12 hex>` -/
def IsShaTag (tag : String) : Prop :=
  ∃ hex, tag = "sha-" ++ hex ∧ hex.toList.length = 12 ∧ hex.toList.all isHexDigit = true

/-- The branch that an event is about. -/
def ranOn : NormalizedEvent → Option String
  | .push gitRef _ => stripPrefix "refs/heads/" gitRef
  | .pullRequest .. => none

/-- The build of an event, from the row that was stored for it. -/
def contextOf (e : NormalizedEvent) (defaultBranch : Option String) : OutputContext :=
  { gitRef := e.gitRef, defaultBranch := defaultBranch, sha := e.sha.asStr }

/-- `sha-` and the first twelve digits. -/
def ownTag (sha : Sha) : String := "sha-" ++ String.ofList (sha.asStr.toList.take 12)

/-- **Legal tags, each once; `latest` from the default branch, and no other commit's tag.** -/
structure WellTagged (e : NormalizedEvent) (defaultBranch : Option String) (tags : List String) :
    Prop where
  distinct : tags.Nodup
  legal : ∀ t ∈ tags, LegalTag t
  latest : "latest" ∈ tags ↔ ∃ b, ranOn e = some b ∧ defaultBranch = some b
  sha : ∀ t ∈ tags, IsShaTag t → t = ownTag e.sha

/-- What `branch` makes of a name that was stored bare. -/
def readAs (name : String) : Option String := Multiarch.branchOf name

/-- **The name of a branch is fit to be a tag.** It begins with a letter, a digit or an underscore,
    and comes to neither `latest` nor the tag of another commit. A name that begins with `refs/` is
    read as another branch, or as none. -/
def Fit (sha : Sha) (defaultBranch : Option String) (name : String) : Prop :=
  match readAs name with
  | some b =>
    (∀ c ∈ b.toList.head?, c.isAlphanum = true ∨ c = '_') ∧
      (IsShaTag (Registry.sanitizeTag b) → Registry.sanitizeTag b = ownTag sha) ∧
      if b = name then Registry.sanitizeTag b ≠ "latest"
      else defaultBranch ≠ some b ∧
        (Registry.sanitizeTag b = "latest" ↔ defaultBranch = some name)
  | none => defaultBranch ≠ some name

/-! ## `sanitize_tag` -/

/-- What becomes of a character. -/
def sanitizeChar (c : Char) : Char := if isTagChar c then c else '-'

theorem isTagChar_sanitizeChar (c : Char) : isTagChar (sanitizeChar c) = true := by
  rw [sanitizeChar]
  split
  · assumption
  · decide

theorem sanitizeTag_of_empty : Registry.sanitizeTag "" = "latest" := by decide

theorem toList_sanitizeTag {raw : String} (h : raw.toList ≠ []) :
    (Registry.sanitizeTag raw).toList = (raw.toList.map sanitizeChar).take 128 := by
  have hne : (raw.toList.map sanitizeChar).take 128 ≠ [] := by
    simpa using h
  show (if (raw.toList.map sanitizeChar).take 128 = [] then "latest"
    else String.ofList ((raw.toList.map sanitizeChar).take 128)).toList = _
  rw [if_neg hne, String.toList_ofList]

theorem sanitizeChar_first {c : Char} :
    ((sanitizeChar c).isAlphanum = true ∨ sanitizeChar c = '_') ↔
      (c.isAlphanum = true ∨ c = '_') := by
  rw [sanitizeChar]
  split
  · exact Iff.rfl
  · rename_i htag
    have hc : ¬ (c.isAlphanum = true ∨ c = '_') := by
      intro h
      refine htag ?_
      rw [isTagChar]
      rcases h with h | h <;> simp [h]
    exact ⟨fun h => absurd h (by decide), fun h => absurd h hc⟩

/-- Only the first character can be wrong. -/
theorem legalTag_sanitizeTag (raw : String) :
    LegalTag (Registry.sanitizeTag raw) ↔
      ∀ c ∈ raw.toList.head?, c.isAlphanum = true ∨ c = '_' := by
  cases hraw : raw.toList with
  | nil =>
    have hempty : raw = "" := String.toList_injective hraw
    rw [hempty, sanitizeTag_of_empty]
    exact ⟨fun _ c hc => (by cases hc),
      fun _ => ⟨⟨'l', by decide, by decide⟩, by decide, by decide⟩⟩
  | cons c cs =>
    have htext : (Registry.sanitizeTag raw).toList = (raw.toList.map sanitizeChar).take 128 :=
      toList_sanitizeTag (by rw [hraw]; simp)
    have hhead : (Registry.sanitizeTag raw).toList.head? = some (sanitizeChar c) := by
      rw [htext, hraw]
      rfl
    constructor
    · intro h c' hc'
      obtain rfl := Option.some.inj hc'
      obtain ⟨⟨d, hd, hfirst⟩, -⟩ := h
      rw [hhead] at hd
      obtain rfl := Option.some.inj hd
      exact sanitizeChar_first.mp hfirst
    · intro h
      refine ⟨⟨sanitizeChar c, hhead, sanitizeChar_first.mpr (h c rfl)⟩, ?_, ?_⟩
      · rw [htext, List.all_eq_true]
        intro d hd
        obtain ⟨d', -, rfl⟩ := List.mem_map.mp (List.mem_of_mem_take hd)
        exact isTagChar_sanitizeChar d'
      · rw [htext]
        exact List.length_take_le _ _

/-! ## The tag of a commit -/

theorem getTo_of_ascii {cs : List Char} (h : ∀ c ∈ cs, c.utf8Size = 1) :
    ∀ n, n ≤ cs.length → getTo n cs = some (cs.take n) := by
  induction cs with
  | nil =>
    intro n hn
    obtain rfl := Nat.le_zero.mp hn
    rfl
  | cons c cs ih =>
    intro n hn
    cases n with
    | zero => rfl
    | succ n =>
      have hrest := ih (fun d hd => h d (List.mem_cons_of_mem c hd)) n (Nat.le_of_succ_le_succ hn)
      rw [getTo, h c List.mem_cons_self, if_pos (Nat.le_add_left 1 n), Nat.add_sub_cancel, hrest]
      rfl

/-- What a SHA is made of. -/
theorem digits_of_shaNew {s : String} {sha : Sha} (h : shaNew s = some sha) :
    sha.asStr.toList.length = 40 ∧
      ∀ c ∈ sha.asStr.toList, isHexDigit c = true ∧ isTagChar c = true ∧ c.utf8Size = 1 := by
  unfold shaNew at h
  split at h
  · cases h
  · rename_i hvalid
    obtain ⟨hlength, hhex⟩ := not_or.mp hvalid
    obtain rfl := Option.some.inj h
    rw [String.toList_ofList, List.length_map]
    refine ⟨not_not.mp hlength, fun c hc => ?_⟩
    obtain ⟨x, hx, rfl⟩ := List.mem_map.mp hc
    have hdigit : isHexDigit x = true := List.all_eq_true.mp (by simpa using hhex) x hx
    exact Forge.of_isHexDigit (P := fun x => isHexDigit x.toLower = true ∧
      isTagChar x.toLower = true ∧ x.toLower.utf8Size = 1) hdigit (by decide)

theorem shaTag_eq {s : String} {e : NormalizedEvent} (h : shaNew s = some e.sha)
    (defaultBranch : Option String) :
    "sha-" ++ (contextOf e defaultBranch).shortSha = ownTag e.sha := by
  obtain ⟨hlength, hdigits⟩ := digits_of_shaNew h
  have hget : getTo 12 e.sha.asStr.toList = some (e.sha.asStr.toList.take 12) :=
    getTo_of_ascii (fun c hc => (hdigits c hc).2.2) 12 (by omega)
  rw [OutputContext.shortSha, contextOf, hget]
  rfl

theorem legalTag_ownTag {s : String} {sha : Sha} (h : shaNew s = some sha) :
    LegalTag (ownTag sha) := by
  obtain ⟨-, hdigits⟩ := digits_of_shaNew h
  have htext : (ownTag sha).toList = "sha-".toList ++ sha.asStr.toList.take 12 := by
    simp [ownTag, String.toList_append]
  refine ⟨⟨'s', by rw [htext]; rfl, by decide⟩, ?_, ?_⟩
  · rw [htext, List.all_append, Bool.and_eq_true]
    exact ⟨by decide, List.all_eq_true.mpr fun c hc => (hdigits c (List.mem_of_mem_take hc)).2.1⟩
  · rw [htext, List.length_append]
    have hshort := List.length_take_le 12 sha.asStr.toList
    have hword : "sha-".toList.length = 4 := rfl
    omega

theorem not_isShaTag_latest : ¬ IsShaTag "latest" := by
  intro h
  obtain ⟨hex, heq, -⟩ := h
  exact shaTag_ne_latest hex heq.symm

/-! ## Which lists are well tagged -/

section Which

variable {e : NormalizedEvent} {defaultBranch : Option String} {s : String}

theorem wellTagged_own_iff (hsha : shaNew s = some e.sha) :
    WellTagged e defaultBranch [ownTag e.sha] ↔
      ¬ ∃ b, ranOn e = some b ∧ defaultBranch = some b := by
  have hlatest : "latest" ∉ [ownTag e.sha] := fun h =>
    shaTag_ne_latest _ (List.mem_singleton.mp h).symm
  constructor
  · exact fun h hdefault => hlatest (h.latest.mpr hdefault)
  · intro h
    refine ⟨List.nodup_singleton _, fun t ht => ?_, ⟨fun hl => absurd hl hlatest,
      fun hdefault => absurd hdefault h⟩, fun t ht _ => List.mem_singleton.mp ht⟩
    rw [List.mem_singleton.mp ht]
    exact legalTag_ownTag hsha

/-- A list with the tag of a branch, the build's own, and `latest` if that is the default branch. -/
theorem wellTagged_of_mem_iff (hsha : shaNew s = some e.sha) {b tag : String} {tags : List String}
    (hmem : ∀ t, t ∈ tags ↔
      t = tag ∨ (defaultBranch = some b ∧ t = "latest") ∨ t = ownTag e.sha) :
    WellTagged e defaultBranch tags ↔
      tags.Nodup ∧ LegalTag tag ∧ (IsShaTag tag → tag = ownTag e.sha) ∧
        ((tag = "latest" ∨ defaultBranch = some b) ↔
          ∃ b, ranOn e = some b ∧ defaultBranch = some b) := by
  have hlatest : "latest" ∈ tags ↔ (tag = "latest" ∨ defaultBranch = some b) := by
    rw [hmem]
    constructor
    · intro h
      rcases h with h | ⟨h, -⟩ | h
      · exact .inl h.symm
      · exact .inr h
      · exact absurd h.symm (shaTag_ne_latest _)
    · intro h
      rcases h with h | h
      · exact .inl h.symm
      · exact .inr (.inl ⟨h, rfl⟩)
  constructor
  · intro h
    have htag : tag ∈ tags := (hmem tag).mpr (.inl rfl)
    exact ⟨h.distinct, h.legal tag htag, h.sha tag htag, hlatest.symm.trans h.latest⟩
  · intro h
    obtain ⟨hnodup, hlegal, hown, hdefault⟩ := h
    refine ⟨hnodup, fun t ht => ?_, hlatest.trans hdefault, fun t ht hshaTag => ?_⟩
    · rcases (hmem t).mp ht with rfl | ⟨-, rfl⟩ | rfl
      · exact hlegal
      · exact ⟨⟨'l', by decide, by decide⟩, by decide, by decide⟩
      · exact legalTag_ownTag hsha
    · rcases (hmem t).mp ht with rfl | ⟨-, rfl⟩ | rfl
      · exact hown hshaTag
      · exact absurd hshaTag not_isShaTag_latest
      · rfl

/-- Both lists, where a branch is read. -/
theorem wellTagged_both_iff (hsha : shaNew s = some e.sha) {b : String}
    (hb : (contextOf e defaultBranch).branch = some b) :
    (WellTagged e defaultBranch (Registry.pushTags (contextOf e defaultBranch)) ∧
      WellTagged e defaultBranch (Multiarch.imageTags e.gitRef
        (contextOf e defaultBranch).shortSha defaultBranch)) ↔
      ¬ (Registry.sanitizeTag b = "latest" ∧ defaultBranch = some b) ∧
        LegalTag (Registry.sanitizeTag b) ∧
        (IsShaTag (Registry.sanitizeTag b) → Registry.sanitizeTag b = ownTag e.sha) ∧
        ((Registry.sanitizeTag b = "latest" ∨ defaultBranch = some b) ↔
          ∃ b, ranOn e = some b ∧ defaultBranch = some b) := by
  have hpush := pushTags_of_branch hb
  have himage := imageTags_of_branch hb
  rw [shaTag_eq hsha] at hpush himage
  have hfirst : (Registry.pushTags (contextOf e defaultBranch)).Nodup := by
    rw [hpush, nodup_withTag]
    split
    · exact nodup_withTag.mpr (List.nodup_singleton _)
    · exact List.nodup_singleton _
  have hsecond : (Multiarch.imageTags e.gitRef (contextOf e defaultBranch).shortSha
      defaultBranch).Nodup ↔ ¬ (Registry.sanitizeTag b = "latest" ∧ defaultBranch = some b) := by
    refine (congrArg List.Nodup himage).to_iff.trans (nodup_withTag.trans ?_)
    by_cases hdefault : defaultBranch = some b
    · simp [contextOf, hdefault]
    · simp [contextOf, hdefault]
  have hpushMem : ∀ t, t ∈ Registry.pushTags (contextOf e defaultBranch) ↔
      t = Registry.sanitizeTag b ∨ (defaultBranch = some b ∧ t = "latest") ∨
        t = ownTag e.sha := by
    intro t
    rw [hpush, mem_withTag]
    by_cases hdefault : defaultBranch = some b
    · simp [contextOf, hdefault, mem_withTag, or_assoc]
    · simp [contextOf, hdefault]
  have himageMem : ∀ t, t ∈ Multiarch.imageTags e.gitRef (contextOf e defaultBranch).shortSha
      defaultBranch ↔ t = Registry.sanitizeTag b ∨ (defaultBranch = some b ∧ t = "latest") ∨
        t = ownTag e.sha := by
    intro t
    refine (congrArg (t ∈ ·) himage).to_iff.trans (mem_withTag.trans ?_)
    by_cases hdefault : defaultBranch = some b
    · simp [contextOf, hdefault, or_assoc]
    · simp [contextOf, hdefault]
  rw [wellTagged_of_mem_iff hsha hpushMem, wellTagged_of_mem_iff hsha himageMem, hsecond]
  exact ⟨fun h => h.2, fun h => ⟨⟨hfirst, h.2⟩, h⟩⟩

/-- The ref of a pull request is no branch. -/
theorem readAs_pullRequest (n : ℕ) (sha : Sha) (headRef : String) :
    readAs (NormalizedEvent.pullRequest n sha headRef).gitRef = none := by
  have hheads : stripPrefix "refs/heads/" (NormalizedEvent.pullRequest n sha headRef).gitRef =
      none := by
    rw [Option.eq_none_iff_forall_ne_some]
    intro rest hrest
    have htext := congrArg (fun t => t.toList[5]?) (stripPrefix_eq_some.mp hrest)
    simp [NormalizedEvent.gitRef, String.toList_append] at htext
  have hrefs : (stripPrefix "refs/" (NormalizedEvent.pullRequest n sha headRef).gitRef).isSome =
      true := by
    have hsplit : (NormalizedEvent.pullRequest n sha headRef).gitRef =
        "refs/" ++ ("pull/" ++ toString n ++ "/head:" ++ headRef) := by
      apply String.toList_injective
      simp [NormalizedEvent.gitRef, String.toList_append]
    rw [hsplit, stripPrefix_append]
    rfl
  rw [readAs, Multiarch.branchOf, hheads]
  exact if_pos (.inr hrefs)

/-- A pull request was not for a branch; the push of a branch stores its name. -/
theorem ran_cases (he : e.Valid) :
    (ranOn e = none ∧ readAs e.gitRef = none) ∨ ranOn e = some e.gitRef := by
  cases e with
  | push gitRef sha =>
    obtain ⟨name, -, rfl⟩ := he
    rw [gitRef_push]
    exact .inr (stripPrefix_append "refs/heads/" name)
  | pullRequest n sha headRef => exact .inl ⟨rfl, readAs_pullRequest n sha headRef⟩

/-- **The tags are legal, distinct and the build's own, if and only if it is a pull request's or the
    name of its branch is fit to be a tag.** -/
theorem wellTagged_iff (he : e.Valid) (hsha : shaNew s = some e.sha) :
    (WellTagged e defaultBranch (Registry.pushTags (contextOf e defaultBranch)) ∧
      WellTagged e defaultBranch (Multiarch.imageTags e.gitRef
        (contextOf e defaultBranch).shortSha defaultBranch)) ↔
      ∀ name, ranOn e = some name → Fit e.sha defaultBranch name := by
  cases hb : readAs e.gitRef with
  | none =>
    have hpush : Registry.pushTags (contextOf e defaultBranch) =
        ["sha-" ++ (contextOf e defaultBranch).shortSha] := pushTags_of_none hb
    have himage : Multiarch.imageTags e.gitRef (contextOf e defaultBranch).shortSha defaultBranch =
        ["sha-" ++ (contextOf e defaultBranch).shortSha] :=
      @imageTags_of_none (contextOf e defaultBranch) hb
    rw [hpush, himage, shaTag_eq hsha, and_self, wellTagged_own_iff hsha]
    constructor
    · intro h name hname
      rcases ran_cases he with ⟨hnone, -⟩ | hsome
      · exact absurd (hnone.symm.trans hname) (by simp)
      · obtain rfl := Option.some.inj (hsome.symm.trans hname)
        rw [Fit, hb]
        exact fun hdefault => h ⟨_, hname, hdefault⟩
    · intro h hdefault
      obtain ⟨name, hname, hdefault⟩ := hdefault
      rcases ran_cases he with ⟨hnone, -⟩ | hsome
      · exact absurd (hnone.symm.trans hname) (by simp)
      · obtain rfl := Option.some.inj (hsome.symm.trans hname)
        have hfit := h _ hname
        rw [Fit, hb] at hfit
        exact hfit hdefault
  | some b =>
    have hran : ranOn e = some e.gitRef := by
      rcases ran_cases he with ⟨-, hnone⟩ | hsome
      · exact absurd (hnone.symm.trans hb) (by simp)
      · exact hsome
    have hfit : (∀ name, ranOn e = some name → Fit e.sha defaultBranch name) ↔
        Fit e.sha defaultBranch e.gitRef :=
      ⟨fun h => h _ hran, fun h name hname => Option.some.inj (hran.symm.trans hname) ▸ h⟩
    have hdefault : (∃ b, ranOn e = some b ∧ defaultBranch = some b) ↔
        defaultBranch = some e.gitRef := by
      rw [hran]
      simp
    rw [wellTagged_both_iff hsha hb, legalTag_sanitizeTag, hfit, Fit, hb, hdefault]
    dsimp only
    by_cases hsame : b = e.gitRef
    · -- the name is read as it is
      subst hsame
      rw [if_pos rfl]
      constructor
      · intro h
        obtain ⟨hboth, hfirst, hown, hiff⟩ := h
        exact ⟨hfirst, hown, fun hlatest => hboth ⟨hlatest, hiff.mp (.inl hlatest)⟩⟩
      · intro h
        obtain ⟨hfirst, hown, hlatest⟩ := h
        exact ⟨fun hboth => hlatest hboth.1, hfirst, hown,
          fun hor => hor.resolve_left hlatest, .inr⟩
    · -- a name that begins with `refs/heads/`
      have hother : defaultBranch = some b → defaultBranch ≠ some e.gitRef := fun h h' =>
        hsame (Option.some.inj (h.symm.trans h'))
      rw [if_neg hsame]
      constructor
      · intro h
        obtain ⟨hboth, hfirst, hown, hiff⟩ := h
        have hnot : defaultBranch ≠ some b := fun hb => hother hb (hiff.mp (.inr hb))
        exact ⟨hfirst, hown, hnot, fun hlatest => hiff.mp (.inl hlatest),
          fun hname => (hiff.mpr hname).resolve_right hnot⟩
      · intro h
        obtain ⟨hfirst, hown, hnot, hiff⟩ := h
        exact ⟨fun hboth => hnot hboth.2, hfirst, hown,
          fun hor => hiff.mp (hor.resolve_right hnot), fun hname => .inl (hiff.mpr hname)⟩

end Which

/-! ## `main`, and a branch that begins with an umlaut -/

/-- A commit. -/
def someSha : Sha := ⟨"0123456789abcdef0123456789abcdef01234567"⟩

theorem shaNew_someSha : shaNew someSha.asStr = some someSha := by decide

theorem gitValid_main : GitValid "main" :=
  ⟨chars_of_all (by decide), by decide, by decide, by decide, by decide, by decide⟩

theorem gitValid_umlaut : GitValid "übung" :=
  ⟨chars_of_all (by decide), by decide, by decide, by decide, by decide, by decide⟩

/-- A push to a branch. -/
def pushOf (name : String) : NormalizedEvent := .push ("refs/heads/" ++ name) someSha

theorem not_isShaTag_main : ¬ IsShaTag "main" := by
  intro h
  obtain ⟨hex, heq, -⟩ := h
  have hhead := congrArg (fun t => t.toList.head?) heq
  simp [String.toList_append] at hhead

theorem wellTagged_iff_main :
    WellTagged (pushOf "main") (some "main")
      (Registry.pushTags (contextOf (pushOf "main") (some "main"))) := by
  refine ((wellTagged_iff (e := pushOf "main") ⟨"main", gitValid_main, rfl⟩
    shaNew_someSha).mpr ?_).1
  intro name hname
  have hmain : name = "main" := by
    rw [pushOf, ranOn, stripPrefix_append] at hname
    exact (Option.some.inj hname).symm
  have hread : readAs "main" = some "main" := by decide
  have htag : Registry.sanitizeTag "main" = "main" := by decide
  rw [hmain, Fit, hread]
  dsimp only
  rw [if_pos rfl, htag]
  refine ⟨fun c hc => ?_, fun h => absurd h not_isShaTag_main, by decide⟩
  have hfirst : "main".toList.head? = some 'm' := by decide
  rw [hfirst, Option.mem_some_iff] at hc
  exact Or.inl (hc ▸ by decide)

/-- `übung` is pushed as `-bung`, which is no tag. -/
theorem not_wellTagged_umlaut :
    ¬ ∀ (e : NormalizedEvent) (defaultBranch : Option String) (s : String), e.Valid →
      shaNew s = some e.sha →
        WellTagged e defaultBranch (Registry.pushTags (contextOf e defaultBranch)) ∧
          WellTagged e defaultBranch (Multiarch.imageTags e.gitRef
            (contextOf e defaultBranch).shortSha defaultBranch) := by
  intro h
  obtain ⟨hpush, -⟩ := h (pushOf "übung") none _ ⟨"übung", gitValid_umlaut, rfl⟩ shaNew_someSha
  have hmem : "-bung" ∈ Registry.pushTags (contextOf (pushOf "übung") none) := by decide
  obtain ⟨⟨c, hc, hfirst⟩, -⟩ := hpush.legal "-bung" hmem
  obtain rfl := Option.some.inj hc
  exact absurd hfirst (by decide)

end Argunix.Effects
