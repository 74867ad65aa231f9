import Argunix.Web.Flake

/-!
# `argunix-web`: the synthetic flake is Nix

The text is followed through the lexer and then through the parser. A quoted string is read back as
the string it was made from (`strPiece_escaped`, `unescape_escaped`), except for a carriage return,
which Nix makes a line feed. A package is one line of tokens, a system is one binding made of its
packages, and the whole text is a head with the caches followed by the systems: `reads_flake` gives
the tokens and `expr_flake` the expression they parse to.

The groups of the entries are an ordered map of ordered maps, filled entry by entry. Read back as a
list of attributes they are the entries in another order as long as no key is used twice
(`perm_packages_iff`), and that is also needed: a map keeps one value for each key.

The other direction starts from the names. What the text promises about a name, a path or a string
is what the lexer accepts, and where the condition fails it fails for that value alone.
-/

set_option autoImplicit false

namespace Argunix.Web.Flake

open Argunix.Lib Argunix.Lib.Nix Argunix.Store

/-! ## Escaping -/

def escaped (cs : List Char) : List Char := cs.flatMap escapeChar

theorem escaped_cons (c : Char) (cs : List Char) :
    escaped (c :: cs) = escapeChar c ++ escaped cs := rfl

theorem toList_nixEscapeString (s : String) : (nixEscapeString s).toList = escaped s.toList := by
  rw [nixEscapeString, String.toList_ofList, escaped]

/-- A character is escaped with a backslash, or stands for itself. -/
theorem escapeChar_cases (c : Char) :
    (c ∈ ['\\', '"', '$'] ∧ escapeChar c = ['\\', c]) ∨
      (c ∉ ['\\', '"', '$'] ∧ escapeChar c = [c]) := by
  unfold escapeChar
  split_ifs with h₁ h₂ h₃
  · exact .inl ⟨by simp [h₁], by rw [h₁]⟩
  · exact .inl ⟨by simp [h₂], by rw [h₂]⟩
  · exact .inl ⟨by simp [h₃], by rw [h₃]⟩
  · exact .inr ⟨by simp [h₁, h₂, h₃], rfl⟩

/-- The literal ends at its own quote. -/
theorem strPiece_escaped (cs rest : List Char) :
    strPiece (escaped cs ++ '"' :: rest) = escaped cs := by
  induction cs with
  | nil => rfl
  | cons c cs ih =>
    rw [escaped_cons]
    rcases escapeChar_cases c with ⟨-, h⟩ | ⟨hc, h⟩
    · rw [h]
      simp only [List.cons_append, List.nil_append, strPiece, ih]
    · rw [h]
      simp only [List.mem_cons, List.not_mem_nil, or_false, not_or] at hc
      simp only [List.cons_append, List.nil_append]
      rw [strPiece, ih] <;> simp_all

theorem unescape_escaped {cs : List Char} (h : '\r' ∉ cs) : unescape (escaped cs) = cs := by
  induction cs with
  | nil => rfl
  | cons c cs ih =>
    rw [List.mem_cons, not_or] at h
    have ih := ih h.2
    have hcr : c ≠ '\r' := fun heq => h.1 heq.symm
    rw [escaped_cons]
    rcases escapeChar_cases c with ⟨hc, hesc⟩ | ⟨hc, hesc⟩
    · rw [hesc]
      simp only [List.mem_cons, List.not_mem_nil, or_false] at hc
      rcases hc with rfl | rfl | rfl <;> simp [unescape, ih]
    · rw [hesc]
      simp only [List.mem_cons, List.not_mem_nil, or_false, not_or] at hc
      simp only [List.cons_append, List.nil_append]
      rw [unescape, ih] <;> simp_all

/-- A carriage return is lost. -/
theorem no_cr_unescape_escaped : ∀ cs : List Char, '\r' ∉ unescape (escaped cs)
  | [] => by simp [escaped, unescape]
  | c :: cs => by
    have ih := no_cr_unescape_escaped cs
    rw [escaped_cons]
    rcases escapeChar_cases c with ⟨hc, hesc⟩ | ⟨hc, hesc⟩
    · rw [hesc]
      simp only [List.mem_cons, List.not_mem_nil, or_false] at hc
      rcases hc with rfl | rfl | rfl <;> simpa [unescape] using ih
    · rw [hesc, List.cons_append, List.nil_append]
      by_cases hcr : c = '\r'
      · subst hcr
        -- with a line feed behind it, the two are one
        cases cs with
        | nil => simp [escaped, unescape]
        | cons d cs =>
          by_cases hd : d = '\n'
          · subst hd
            have := no_cr_unescape_escaped cs
            simpa [escaped_cons, escapeChar, unescape] using this
          · obtain ⟨e, rest, he, hne⟩ : ∃ e rest, escaped (d :: cs) = e :: rest ∧ e ≠ '\n' := by
              rcases escapeChar_cases d with ⟨-, h⟩ | ⟨-, h⟩
              · exact ⟨'\\', d :: escaped cs, by rw [escaped_cons, h]; rfl, by decide⟩
              · exact ⟨d, escaped cs, by rw [escaped_cons, h]; rfl, hd⟩
            rw [he] at ih ⊢
            rw [unescape] <;> simp_all
      · simp only [List.mem_cons, List.not_mem_nil, or_false, not_or] at hc
        rw [unescape] <;> simp_all
        exact fun heq => hcr heq.symm

/-! ## The entries -/

theorem packagesLeaf_eq_some {attrPath system leaf : String} :
    packagesLeaf attrPath system = some leaf ↔
      attrPath = "packages." ++ system ++ "." ++ leaf ∧ isSafeAttrSegment leaf = true := by
  have hsafe : isSafeAttrSegment leaf = true →
      (leaf = "" || leaf.toList.contains '.' || !isSafeAttrSegment leaf) = false := by
    intro h
    have hne : leaf ≠ "" := by
      rintro rfl
      exact absurd h (by decide)
    have hdot : leaf.toList.contains '.' = false := by
      rw [Bool.eq_false_iff]
      intro hmem
      simp only [isSafeAttrSegment, Bool.and_eq_true, List.all_eq_true] at h
      exact absurd (h.2 '.' (by simpa using hmem)) (by decide)
    rw [h, hdot]
    simp [hne]
  simp only [packagesLeaf, Option.bind_eq_bind, Option.bind_eq_some_iff, stripPrefix_eq_some]
  constructor
  · rintro ⟨rest, hpath, hrest⟩
    split_ifs at hrest with hbad
    obtain rfl := Option.some.inj hrest
    refine ⟨hpath, ?_⟩
    by_contra h
    exact hbad (by simp [h])
  · rintro ⟨hpath, hleaf⟩
    exact ⟨leaf, hpath, if_neg (by rw [hsafe hleaf]; decide)⟩

/-- **The entries are those of the green Jobs.** -/
theorem fromJob_eq_some_iff {job : JobRecord} {e : FlakeEntry} :
    FlakeEntry.fromJob job = some e ↔ Green job e := by
  unfold FlakeEntry.fromJob
  constructor
  · intro h
    split_ifs at h with hs
    simp only [Option.bind_eq_bind, Option.bind_eq_some_iff, packagesLeaf_eq_some] at h
    obtain ⟨leaf, ⟨hpath, hsafe⟩, out, hout, h⟩ := h
    obtain rfl := Option.some.inj h
    exact ⟨hs, hpath, hsafe, rfl, hout, rfl, rfl⟩
  · rintro ⟨hs, hpath, hsafe, hsystem, hout, hbin, hmain⟩
    rw [if_pos hs, packagesLeaf_eq_some.mpr ⟨hpath, hsafe⟩, hout]
    simp only [Option.bind_eq_bind, Option.bind_some, ← hsystem, ← hbin, ← hmain]

/-! ## The groups -/

/-- Everything in the map. -/
def flat (m : BySystem) : List (String × String × FlakeEntry) :=
  m.entries.flatMap fun g => g.2.entries.map fun a => (g.1, a.1, a.2)

/-- An item is under its own names. -/
def keyed (e : FlakeEntry) : String × String × FlakeEntry := (e.system, e.leaf, e)

theorem mem_flat_insertEntry {m : BySystem} {e : FlakeEntry} {y : String × String × FlakeEntry}
    (hy : y ∈ flat (insertEntry m e)) : y = keyed e ∨ y ∈ flat m := by
  refine BTreeMap.mem_flatMap_alter rfl ?_ hy
  intro attrs _ hy
  rw [List.map_eq_flatMap] at hy ⊢
  exact BTreeMap.mem_flatMap_alter (k := e.leaf) (f := fun _ => e) rfl
    (fun _ _ hv => .inl (List.mem_singleton.mp hv)) hy

theorem perm_flat_insertEntry {m : BySystem} {e : FlakeEntry}
    (h : ∀ y ∈ flat m, (y.1, y.2.1) ≠ (e.system, e.leaf)) :
    (flat (insertEntry m e)).Perm (keyed e :: flat m) := by
  refine BTreeMap.perm_flatMap_alter rfl ?_
  intro attrs hattrs
  simp only [Option.getD_some]
  rw [List.map_eq_flatMap, List.map_eq_flatMap]
  refine BTreeMap.perm_flatMap_alter rfl ?_
  intro v hv
  refine absurd rfl (h (e.system, e.leaf, v) ?_)
  exact List.mem_flatMap.mpr ⟨(e.system, attrs), hattrs, List.mem_map.mpr ⟨(e.leaf, v), hv, rfl⟩⟩

theorem bySystem_concat (entries : List FlakeEntry) (e : FlakeEntry) :
    bySystem (entries ++ [e]) = insertEntry (bySystem entries) e := by
  simp [bySystem]

theorem mem_flat_bySystem {entries : List FlakeEntry} {y : String × String × FlakeEntry}
    (hy : y ∈ flat (bySystem entries)) : ∃ e ∈ entries, y = keyed e := by
  induction entries using List.reverseRecOn with
  | nil => exact absurd hy (by simp [flat, bySystem, EmptyCollection.emptyCollection])
  | append_singleton entries e ih =>
    rw [bySystem_concat] at hy
    rcases mem_flat_insertEntry hy with rfl | hy
    · exact ⟨e, by simp, rfl⟩
    · obtain ⟨e', he', rfl⟩ := ih hy
      exact ⟨e', by simp [he'], rfl⟩

/-- Where no two entries have the same names, the map holds them all. -/
theorem perm_flat_bySystem {entries : List FlakeEntry}
    (h : (entries.map fun e => (e.system, e.leaf)).Nodup) :
    (flat (bySystem entries)).Perm (entries.map keyed) := by
  induction entries using List.reverseRecOn with
  | nil => exact .nil
  | append_singleton entries e ih =>
    rw [List.map_append, List.nodup_append] at h
    rw [bySystem_concat, List.map_append]
    refine (perm_flat_insertEntry ?_).trans (((ih h.1).cons _).trans ?_)
    · intro y hy heq
      obtain ⟨e', he', rfl⟩ := mem_flat_bySystem hy
      exact h.2.2 _ (List.mem_map_of_mem he') _ (by simp) heq
    · exact (List.perm_append_singleton _ _).symm

/-- A name is used once. -/
theorem nodup_flat (m : BySystem) : ((flat m).map fun y => (y.1, y.2.1)).Nodup := by
  rw [flat, List.map_flatMap, List.nodup_flatMap]
  constructor
  · intro g _
    rw [List.map_map]
    have : ((fun y : String × String × FlakeEntry => (y.1, y.2.1)) ∘ fun a => (g.1, a.1, a.2)) =
        Prod.mk g.1 ∘ Prod.fst := rfl
    rw [this, ← List.map_map]
    exact g.2.nodup_keys.map (Prod.mk_right_injective g.1)
  · refine (List.pairwise_map.mp m.sorted).imp fun {g g'} hlt => ?_
    intro y hy hy'
    simp only [List.map_map, List.mem_map] at hy hy'
    obtain ⟨a, -, rfl⟩ := hy
    obtain ⟨a', -, heq⟩ := hy'
    exact hlt.ne (congrArg Prod.fst heq).symm

theorem attributesOf_map {α : Type} (output name system : String) (l : List α) (leaf : α → String)
    (expr : α → Expr) :
    attributesOf output ([name, system], .attrs (l.map fun a => ([leaf a], expr a))) =
      if name = output then l.map fun a => (system, leaf a, expr a) else [] := by
  simp only [attributesOf, List.filterMap_map, Function.comp_def]
  split_ifs
  · exact congrFun List.filterMap_eq_map' l
  · rfl

theorem attributes_packages (entries : List FlakeEntry) :
    attributes "packages" (outputsOf entries) =
      (groups entries).flatMap fun g => g.2.entries.map fun a =>
        (g.1, a.1, fetchOf a.2.packageOut) := by
  simp [attributes, outputsOf, List.flatMap_map, packagesOf, appsOf, attributesOf_map]

/-- A group without apps adds nothing. -/
theorem flatMap_appGroups {β : Type} (entries : List FlakeEntry)
    (f : String × BTreeMap String FlakeEntry → List β) :
    (appGroups entries).flatMap f =
      (groups entries).flatMap fun g => if (withApps g.2).isEmpty then [] else f g := by
  rw [appGroups]
  induction groups entries with
  | nil => rfl
  | cons g l ih =>
    rw [List.filter_cons, List.flatMap_cons, ← ih]
    by_cases h : (withApps g.2).isEmpty = true
    · simp [h]
    · simp [h]

theorem attributes_apps (entries : List FlakeEntry) :
    attributes "apps" (outputsOf entries) =
      (groups entries).flatMap fun g => (withApps g.2).map fun a =>
        (g.1, a.1, appOf a.2.1.binOutput a.2.2) := by
  have happs : attributes "apps" (outputsOf entries) =
      (appGroups entries).flatMap fun g => (withApps g.2).map fun a =>
        (g.1, a.1, appOf a.2.1.binOutput a.2.2) := by
    simp [attributes, outputsOf, List.flatMap_map, packagesOf, appsOf, attributesOf_map]
  rw [happs, flatMap_appGroups]
  refine List.flatMap_congr fun g _ => ?_
  split_ifs with h
  · rw [List.isEmpty_iff.mp h]
    rfl
  · rfl

theorem mem_systems {entries : List FlakeEntry} {g : String × BTreeMap String FlakeEntry}
    (hg : g ∈ (bySystem entries).entries) : ∃ e ∈ entries, g.1 = e.system := by
  have hkey : g.1 ∈ (bySystem entries).entries.map Prod.fst := List.mem_map_of_mem hg
  clear hg
  induction entries using List.reverseRecOn with
  | nil => exact absurd hkey (by simp [bySystem, EmptyCollection.emptyCollection])
  | append_singleton entries e ih =>
    rw [bySystem_concat] at hkey
    rcases BTreeMap.mem_keys_alterEntries.mp hkey with h | h
    · exact ⟨e, by simp, h⟩
    · obtain ⟨e', he', h⟩ := ih h
      exact ⟨e', by simp [he'], h⟩

/-- With safe systems no group is left out. -/
theorem groups_eq {entries : List FlakeEntry}
    (h : ∀ e ∈ entries, isSafeAttrSegment e.system = true) :
    groups entries = (bySystem entries).entries := by
  refine List.filter_eq_self.mpr fun g hg => ?_
  obtain ⟨e, he, heq⟩ := mem_systems hg
  rw [heq]
  exact h e he

theorem attributes_packages_flat {entries : List FlakeEntry}
    (h : ∀ e ∈ entries, isSafeAttrSegment e.system = true) :
    attributes "packages" (outputsOf entries) = (flat (bySystem entries)).map fun y =>
      (y.1, y.2.1, fetchOf y.2.2.packageOut) := by
  rw [attributes_packages, groups_eq h, flat, List.map_flatMap]
  simp only [List.map_map, Function.comp_def]

theorem attributes_apps_flat {entries : List FlakeEntry}
    (h : ∀ e ∈ entries, isSafeAttrSegment e.system = true) :
    attributes "apps" (outputsOf entries) = (flat (bySystem entries)).filterMap fun y =>
      y.2.2.mainProgram.map fun mp => (y.1, y.2.1, appOf y.2.2.binOutput mp) := by
  rw [attributes_apps, groups_eq h, flat, List.filterMap_flatMap]
  simp only [withApps, List.filterMap_map, List.map_filterMap, Function.comp_def, Option.map_map]

/-- **Exactly the green packages**, if no two have the same names and all systems are safe. -/
theorem perm_packages_iff {entries : List FlakeEntry} :
    (attributes "packages" (outputsOf entries)).Perm
      (entries.map fun e => (e.system, e.leaf, fetchOf e.packageOut)) ↔
      (∀ e ∈ entries, isSafeAttrSegment e.system = true) ∧
        (entries.map fun e => (e.system, e.leaf)).Nodup := by
  constructor
  · intro h
    have hsafe : ∀ e ∈ entries, isSafeAttrSegment e.system = true := by
      intro e he
      have hmem := h.symm.subset (List.mem_map_of_mem he)
      rw [attributes_packages, List.mem_flatMap] at hmem
      obtain ⟨g, hg, hmem⟩ := hmem
      obtain ⟨a, -, heq⟩ := List.mem_map.mp hmem
      have hg := (List.mem_filter.mp hg).2
      rwa [(Prod.mk.inj heq).1] at hg
    refine ⟨hsafe, ?_⟩
    rw [attributes_packages_flat hsafe] at h
    have hkeys := h.map fun y => (y.1, y.2.1)
    rw [List.map_map, List.map_map] at hkeys
    exact hkeys.nodup (nodup_flat (bySystem entries))
  · rintro ⟨hsafe, hnodup⟩
    rw [attributes_packages_flat hsafe]
    have hperm := (perm_flat_bySystem hnodup).map fun y =>
      (y.1, y.2.1, fetchOf y.2.2.packageOut)
    rwa [List.map_map] at hperm

theorem perm_apps {entries : List FlakeEntry}
    (h : ∀ e ∈ entries, isSafeAttrSegment e.system = true)
    (hnodup : (entries.map fun e => (e.system, e.leaf)).Nodup) :
    (attributes "apps" (outputsOf entries)).Perm (entries.filterMap fun e =>
      e.mainProgram.map fun mp => (e.system, e.leaf, appOf e.binOutput mp)) := by
  rw [attributes_apps_flat h]
  have hperm := (perm_flat_bySystem hnodup).filterMap fun y =>
    y.2.2.mainProgram.map fun mp => (y.1, y.2.1, appOf y.2.2.binOutput mp)
  rwa [List.filterMap_map] at hperm

/-! ## Names and paths -/

theorem startsWell_of_isBareName {s : String} (h : IsBareName s = true) : StartsWell s := by
  simp only [IsBareName, Bool.and_eq_true, Option.isNone_iff_eq_none] at h
  refine ⟨?_, Keyword.ofList_eq_none.mp h.2⟩
  have hid := h.1
  cases hs : s.toList with
  | nil => exact absurd (hs ▸ hid) (by simp [IsIdent])
  | cons c cs =>
    rw [hs, IsIdent, Bool.and_eq_true] at hid
    exact ⟨c, cs, rfl, by simpa [idStart] using hid.1⟩

theorem isSegment_of_safe {s : String} (hsafe : isSafeAttrSegment s = true) (h : StartsWell s) :
    IsSegment s.toList = true := by
  obtain ⟨⟨c, cs, hs, hc⟩, -⟩ := h
  simp only [isSafeAttrSegment, Bool.and_eq_true, List.all_eq_true, hs] at hsafe
  simp only [IsSegment, IsIdent, hs, Bool.and_eq_true, List.all_eq_true]
  refine ⟨⟨by simpa [idStart] using hc, fun d hd => ?_⟩, fun d hd => ?_⟩
  · have := hsafe.2 d (List.mem_cons_of_mem c hd)
    grind [idChar]
  · have := hsafe.2 d hd
    grind [pathChar]

theorem isBareName_of_safe {s : String} (hsafe : isSafeAttrSegment s = true) (h : StartsWell s) :
    IsBareName s = true := by
  have hseg := isSegment_of_safe hsafe h
  simp only [IsSegment, Bool.and_eq_true] at hseg
  rw [IsBareName, hseg.1, Keyword.ofList_eq_none.mpr h.2]
  rfl

theorem identToken_of_isBareName {s : String} (h : IsBareName s = true) :
    identToken s.toList = .ident s := by
  simp only [IsBareName, Bool.and_eq_true, Option.isNone_iff_eq_none] at h
  rw [identToken, h.2, String.ofList_toList]

theorem segments_of_pathChar {w : List Char} (h : ∀ c ∈ w, pathChar c = true) (slash : Bool) :
    Nix.segments slash w = w.length := by
  induction w generalizing slash with
  | nil => rfl
  | cons c w ih =>
    rw [Nix.segments, if_pos (h c (by simp)), ih fun d hd => h d (List.mem_cons_of_mem c hd),
      List.length_cons]
    omega

/-- **A store path is a path literal exactly if it has no question mark and no equals sign.** -/
theorem isPath_iff {p : String} (h : IsStorePath p) : IsPath p.toList = true ↔ PathSafe p := by
  obtain ⟨name, hne, rfl, hname⟩ := h
  simp only [PathSafe, String.toList_ofList]
  have hchars : "/nix/store/".toList ++ name = '/' :: 'n' :: ("ix/store/".toList ++ name) := rfl
  constructor
  · intro hpath
    obtain ⟨c, v, hv, hc, hlen, -⟩ := isPath_cases hpath
    obtain ⟨rfl, rfl⟩ := List.cons.inj (List.cons.inj (hchars.symm.trans hv)).2
    have hmem : ∀ d, d ∉ "/nix/store/".toList → d ∈ "/nix/store/".toList ++ name →
        pathChar d = true ∨ d = '/' := by
      intro d hd hmem
      rcases List.mem_append.mp hmem with hmem | hmem
      · exact absurd hmem hd
      · exact pathChar_of_segments hlen (List.mem_append_right _ hmem)
    exact ⟨fun hq => absurd (hmem '?' (by decide) hq) (by decide),
      fun hq => absurd (hmem '=' (by decide) hq) (by decide)⟩
  · rintro ⟨hq, heq⟩
    have hall : ∀ c ∈ name, pathChar c = true := by
      intro c hc
      have hcq : c ≠ '?' := fun h => hq (List.mem_append_right _ (h ▸ hc))
      have hceq : c ≠ '=' := fun h => heq (List.mem_append_right _ (h ▸ hc))
      have hlegal := hname c hc
      have hlit : "+-._?=".toList = ['+', '-', '.', '_', '?', '='] := rfl
      rw [hlit] at hlegal
      simp only [List.mem_cons, List.not_mem_nil, or_false] at hlegal
      simp only [pathChar, Bool.or_eq_true, decide_eq_true_eq]
      tauto
    have hlen : Nix.segments false ("ix/store/".toList ++ name) =
        1 + (1 + (1 + (1 + (1 + (1 + (1 + (1 + (1 + Nix.segments true name)))))))) := rfl
    have hlast : ("/nix/store/".toList ++ name).getLast? ≠ some '/' := by
      rw [List.getLast?_append_of_ne_nil _ hne]
      intro hslash
      exact absurd (hall '/' (List.mem_of_getLast? hslash)) (by decide)
    have hpath : pathLen ("/nix/store/".toList ++ name) =
        ("/nix/store/".toList ++ name).length := by
      have hfixed : "/nix/store/".toList.length = 11 := by decide
      rw [hchars, pathLen_absolute rfl, hlen, segments_of_pathChar hall, ← hchars,
        List.length_append, hfixed]
      omega
    simp only [IsPath, hpath, Bool.and_eq_true, decide_eq_true_eq]
    exact ⟨⟨rfl, trivial⟩, hlast⟩

theorem lex_path_iff {p : String} (h : IsStorePath p) :
    lex p.toList = some [.path p] ↔ PathSafe p := by
  rw [← isPath_iff h]
  obtain ⟨name, -, rfl, -⟩ := h
  rw [String.toList_ofList]
  exact lex_eq_path_iff (c := 'n') rfl

/-! ## The tokens -/

/-- Inside of `n` braces. -/
def within (n : ℕ) : List Mode := List.replicate n .default

theorem plain_within (n : ℕ) : Plain (within n) := by
  cases n <;> simp [Plain, within, List.replicate_succ]

def quotedTokens (s : String) : List Token :=
  Token.dquote :: (strTokens (escaped s.toList) ++ [Token.dquote])

theorem reads_quoted (n : ℕ) (s : String) :
    Reads (within n) (quoted s).toList (quotedTokens s) (within n) := by
  have htext : (quoted s).toList = '"' :: (escaped s.toList ++ ['"']) := by
    rw [quoted, String.toList_append, String.toList_append, toList_nixEscapeString]
    rfl
  rw [htext]
  exact .quoted (plain_within n) (strPiece_escaped s.toList)

theorem toList_join (l : List String) : (String.join l).toList = l.flatMap String.toList := by
  have hfold : ∀ (l : List String) (acc : String),
      (l.foldl (fun r s => r ++ s) acc).toList = acc.toList ++ l.flatMap String.toList := by
    intro l
    induction l with
    | nil => simp
    | cons s l ih =>
      intro acc
      rw [List.foldl_cons, ih, String.toList_append, List.flatMap_cons, List.append_assoc]
  exact hfold l ""

def listTokens (items : List String) : List Token :=
  .punct '[' :: (items.flatMap quotedTokens ++ [.punct ']'])

theorem reads_stringList (items : List String) :
    Reads (within 2) (renderStringList items).toList (listTokens items) (within 2) := by
  have hopen : Reads (within 2) "[ ".toList [.punct '['] (within 2) := .fixed (by rfl)
  have hclose : Reads (within 2) "]".toList [.punct ']'] (within 2) := .fixed (by rfl)
  have hspace : Reads (within 2) " ".toList [] (within 2) := .fixed (by rfl)
  have hitem : ∀ s ∈ items, Reads (within 2) (quoted s ++ " ").toList (quotedTokens s)
      (within 2) := by
    intro s _
    have hread := (reads_quoted 2 s).append hspace
    rwa [List.append_nil, ← String.toList_append] at hread
  have htext : (renderStringList items).toList =
      "[ ".toList ++ (items.flatMap (fun s => (quoted s ++ " ").toList) ++ "]".toList) := by
    rw [renderStringList, String.toList_append, String.toList_append, toList_join,
      List.flatMap_map, List.append_assoc]
  rw [htext]
  exact hopen.append ((Reads.flatMap hitem).append hclose)

theorem isBareName_packages : IsBareName "packages" = true := rfl

theorem isBareName_apps : IsBareName "apps" = true := rfl

/-! ### Packages -/

def packageTokens (a : String × FlakeEntry) : List Token :=
  bindTokens [.ident a.1] [.ident "fetch", .path a.2.packageOut]

theorem reads_package {leaf : String} {e : FlakeEntry} (hleaf : IsBareName leaf = true)
    (hpath : IsPath e.packageOut.toList = true) :
    Reads (within 3) (renderPackage leaf e).toList (packageTokens (leaf, e)) (within 3) := by
  have hident : IsIdent leaf.toList = true := by
    rw [IsBareName, Bool.and_eq_true] at hleaf
    exact hleaf.1
  have hindent : Reads (within 3) "      ".toList [] (within 3) := .fixed (by rfl)
  have hfetch : Reads (within 3) " = fetch ".toList [.punct '=', .ident "fetch"] (within 3) :=
    .fixed (by rfl)
  have hend : Reads (within 3) (";\n".toList ++ []) [.punct ';'] (within 3) :=
    .fixed (by rfl)
  have hout := hfetch.append
    (Reads.path (plain_within 3) hpath (by decide) (by rfl) hend)
  have hread := hindent.append (Reads.word (plain_within 3) hident (by rfl) hout)
  rw [identToken_of_isBareName hleaf, String.ofList_toList] at hread
  simpa only [renderPackage, packageTokens, bindTokens, String.toList_append, List.append_assoc,
    List.cons_append, List.nil_append, List.append_nil] using hread

/-- `<output>.<system> = { … };` -/
def groupTokens (output system : String) (body : List Token) : List Token :=
  bindTokens [.ident output, .punct '.', .ident system] (.punct '{' :: (body ++ [.punct '}']))

/-- A group of attributes, for either output. -/
theorem reads_group {output system body : String} {ts : List Token}
    (houtput : IsBareName output = true) (hsystem : IsBareName system = true)
    (hsegment : IsSegment system.toList = true)
    (hbody : Reads (within 3) body.toList ts (within 3)) :
    Reads (within 2) (renderGroup output system body).toList (groupTokens output system ts)
      (within 2) := by
  have hindent : Reads (within 2) "    ".toList [] (within 2) := .fixed (by rfl)
  have hopen : Reads (within 2) " = \x7b\n".toList [.punct '=', .punct '{'] (within 3) :=
    .fixed (by rfl)
  have hclose : Reads (within 3) "    \x7d;\n".toList [.punct '}', .punct ';'] (within 2) :=
    .fixed (by rfl)
  have hident : IsIdent output.toList = true := by
    rw [IsBareName, Bool.and_eq_true] at houtput
    exact houtput.1
  have hread := hindent.append (Reads.dotted (plain_within 2) hident hsegment (by rfl)
    (hopen.append (hbody.append hclose)))
  rw [identToken_of_isBareName houtput, identToken_of_isBareName hsystem] at hread
  have hdot : ".".toList = ['.'] := rfl
  simpa only [renderGroup, groupTokens, bindTokens, String.toList_append, hdot, List.append_assoc,
    List.cons_append, List.nil_append] using hread

def packagesTokens (g : String × BTreeMap String FlakeEntry) : List Token :=
  groupTokens "packages" g.1 (g.2.entries.flatMap packageTokens)

theorem reads_packages {g : String × BTreeMap String FlakeEntry} (hsystem : IsBareName g.1 = true)
    (hsegment : IsSegment g.1.toList = true)
    (h : ∀ a ∈ g.2.entries, IsBareName a.1 = true ∧ IsPath a.2.packageOut.toList = true) :
    Reads (within 2) (renderPackages g.1 g.2).toList (packagesTokens g) (within 2) := by
  refine reads_group isBareName_packages hsystem hsegment ?_
  rw [toList_join, List.flatMap_map]
  exact Reads.flatMap fun a ha => reads_package (h a ha).1 (h a ha).2

/-! ### Apps -/

/-- `"${fetch <bin>}/bin/<mainProgram>"` -/
def programTokens (binOutput mainProgram : String) : List Token :=
  List.flatten [[.dquote, .dollarCurly, .ident "fetch", .path binOutput, .punct '}'],
    strTokens (escaped ("/bin/" ++ mainProgram).toList), [.dquote]]

theorem reads_program {binOutput : String} (mainProgram : String)
    (hpath : IsPath binOutput.toList = true) :
    Reads (within 4) (renderProgram binOutput mainProgram).toList
      (programTokens binOutput mainProgram) (within 4) := by
  have hplain : Plain (.default :: .string :: within 4) := by simp [Plain]
  have hfetch : Reads (.default :: .string :: within 4) "fetch ".toList [.ident "fetch"]
      (.default :: .string :: within 4) := .fixed (by rfl)
  have hclose : Reads (.default :: .string :: within 4) ("\x7d".toList ++ []) [.punct '}']
      (.string :: within 4) := .fixed (by rfl)
  have hout := hfetch.append
    (Reads.path hplain hpath (by decide) (by rfl) hclose)
  have hbin : escaped ("/bin/" ++ mainProgram).toList =
      "/bin/".toList ++ escaped mainProgram.toList := by
    rw [String.toList_append, escaped, List.flatMap_append]
    rfl
  intro rest
  have hread := (Lexes.openQuote (plain_within 4)).trans (Lexes.interpolation.trans
    ((hout (escaped ("/bin/" ++ mainProgram).toList ++ '"' :: rest)).trans
      ((Lexes.strPiece (strPiece_escaped _ rest)).trans .closeQuote)))
  have hquote : "\"".toList = ['"'] := rfl
  have hdollar : "$\x7b".toList = ['$', '{'] := rfl
  rw [hbin, String.ofList_toList] at hread
  rw [programTokens, hbin]
  simpa only [renderProgram, String.toList_append, toList_nixEscapeString, hquote, hdollar,
    List.flatten_cons, List.flatten_nil, List.append_assoc, List.cons_append, List.nil_append,
    List.append_nil] using hread

/-- `{ type = "app"; program = …; }` -/
def bodyTokens (binOutput mainProgram : String) : List Token :=
  List.flatten [[.punct '{', .ident "type", .punct '='], quotedTokens "app",
    [.punct ';', .ident "program", .punct '='], programTokens binOutput mainProgram,
    [.punct ';', .punct '}']]

def appTokens (a : String × FlakeEntry × String) : List Token :=
  bindTokens [.ident a.1] (bodyTokens a.2.1.binOutput a.2.2)

theorem reads_app {leaf : String} {e : FlakeEntry} (mainProgram : String)
    (hleaf : IsBareName leaf = true) (hpath : IsPath e.binOutput.toList = true) :
    Reads (within 3) (renderApp leaf e mainProgram).toList (appTokens (leaf, e, mainProgram))
      (within 3) := by
  have hident : IsIdent leaf.toList = true := by
    rw [IsBareName, Bool.and_eq_true] at hleaf
    exact hleaf.1
  have hindent : Reads (within 3) "      ".toList [] (within 3) := .fixed (by rfl)
  have htype : Reads (within 3) " = \x7b\n        type = ".toList
      [.punct '=', .punct '{', .ident "type", .punct '='] (within 4) := .fixed (by rfl)
  have hquoted : quoted "app" = "\"app\"" := rfl
  have happ := reads_quoted 4 "app"
  rw [hquoted] at happ
  have hprogram : Reads (within 4) ";\n        program = ".toList
      [.punct ';', .ident "program", .punct '='] (within 4) := .fixed (by rfl)
  have hclose : Reads (within 4) ";\n      \x7d;\n".toList [.punct ';', .punct '}', .punct ';']
      (within 3) := .fixed (by rfl)
  have hbody := htype.append (happ.append (hprogram.append
    ((reads_program mainProgram hpath).append hclose)))
  have hread := hindent.append (Reads.word (plain_within 3) hident (by rfl) hbody)
  rw [identToken_of_isBareName hleaf] at hread
  simpa only [renderApp, appTokens, bindTokens, bodyTokens, List.flatten_cons, List.flatten_nil,
    String.toList_append, List.append_assoc, List.cons_append, List.nil_append,
    List.append_nil] using hread

def appsTokens (g : String × BTreeMap String FlakeEntry) : List Token :=
  groupTokens "apps" g.1 ((withApps g.2).flatMap appTokens)

theorem reads_apps {g : String × BTreeMap String FlakeEntry} (hsystem : IsBareName g.1 = true)
    (hsegment : IsSegment g.1.toList = true)
    (h : ∀ a ∈ withApps g.2, IsBareName a.1 = true ∧ IsPath a.2.1.binOutput.toList = true) :
    Reads (within 2) (renderApps g.1 g.2).toList
      (if (withApps g.2).isEmpty then [] else appsTokens g) (within 2) := by
  unfold renderApps
  split_ifs
  · exact .nil
  · refine reads_group isBareName_apps hsystem hsegment ?_
    rw [toList_join, List.flatMap_map]
    exact Reads.flatMap fun a ha => reads_app a.2.2 (h a ha).1 (h a ha).2

/-! ### The whole text -/

/-- Before the outputs. -/
def headTokens (description : String) (caches : List UsableCache) : List Token :=
  List.flatten [
    [.punct '{', .ident "description", .punct '='], quotedTokens description,
    [.punct ';', .ident "nixConfig", .punct '=', .punct '{', .ident "extra-substituters",
      .punct '='], listTokens (caches.map (·.url)),
    [.punct ';', .ident "extra-trusted-public-keys", .punct '='],
    listTokens (caches.map (·.key)),
    [.punct ';', .ident "extra-experimental-features", .punct '=', .punct '['],
    quotedTokens "fetch-closure",
    [.punct ']', .punct ';', .punct '}', .punct ';', .ident "outputs", .punct '=', .ident "_",
      .punct ':', .keyword .letKw],
    [.ident "fetch", .punct '=', .ident "path", .punct ':', .ident "builtins", .punct '.',
      .ident "fetchClosure", .punct '{', .ident "fromStore", .punct '='],
    quotedTokens ((caches.head?.map (·.url)).getD ""),
    [.punct ';', .ident "fromPath", .punct '=', .ident "path", .punct ';', .ident "inputAddressed",
      .punct '=', .ident "true", .punct ';', .punct '}', .punct ';', .keyword .inKw, .punct '{']]

def flakeTokens (description : String) (caches : List UsableCache)
    (entries : List FlakeEntry) : List Token :=
  List.flatten [headTokens description caches, (groups entries).flatMap packagesTokens,
    (appGroups entries).flatMap appsTokens, [.punct '}', .punct ';', .punct '}']]

/-- What the lexer needs of a group. -/
structure Legible (g : String × BTreeMap String FlakeEntry) : Prop where
  system : IsBareName g.1 = true
  segment : IsSegment g.1.toList = true
  packages : ∀ a ∈ g.2.entries, IsBareName a.1 = true ∧ IsPath a.2.packageOut.toList = true
  apps : ∀ a ∈ withApps g.2, IsBareName a.1 = true ∧ IsPath a.2.1.binOutput.toList = true

theorem reads_head (description : String) (caches : List UsableCache) :
    Reads [] ("\x7b\n  description = ".toList ++ ((quoted description).toList ++
      (";\n\n  nixConfig = \x7b\n    extra-substituters = ".toList ++
      ((renderStringList (caches.map (·.url))).toList ++
      (";\n    extra-trusted-public-keys = ".toList ++
      ((renderStringList (caches.map (·.key))).toList ++
      (";\n    extra-experimental-features = [ ".toList ++ ("\"fetch-closure\"".toList ++
      (" ];\n  \x7d;\n\n  outputs = _:\n    let\n".toList ++
      ("      fetch = path: builtins.fetchClosure \x7b\n        fromStore = ".toList ++
      ((quoted ((caches.head?.map (·.url)).getD "")).toList ++
    ";\n        fromPath = path;\n        inputAddressed = true;\n      \x7d;\n    in \x7b\n".toList
        ))))))))))) (headTokens description caches) (within 2) := by
  have hquoted : quoted "fetch-closure" = "\"fetch-closure\"" := rfl
  have hfeature := reads_quoted 2 "fetch-closure"
  rw [hquoted] at hfeature
  simp only [headTokens, List.flatten_cons, List.flatten_nil, List.append_nil]
  refine (Reads.fixed (m := within 1) (by decide +kernel)).append ?_
  refine (reads_quoted 1 description).append ?_
  refine (Reads.fixed (m := within 2) (by decide +kernel)).append ?_
  refine (reads_stringList _).append ?_
  refine (Reads.fixed (m := within 2) (by decide +kernel)).append ?_
  refine (reads_stringList _).append ?_
  refine (Reads.fixed (m := within 2) (by decide +kernel)).append ?_
  refine hfeature.append ?_
  refine (Reads.fixed (m := within 1) (by decide +kernel)).append ?_
  refine (Reads.fixed (m := within 2) (by decide +kernel)).append ?_
  refine (reads_quoted 2 _).append ?_
  exact .fixed (by decide +kernel)

theorem reads_flake {description : String} {caches : List UsableCache} {entries : List FlakeEntry}
    (h : ∀ g ∈ groups entries, Legible g) :
    Reads [] (renderFlakeNix description caches entries).toList
      (flakeTokens description caches entries) [] := by
  have hpackages : Reads (within 2) ((groups entries).flatMap fun g =>
      (renderPackages g.1 g.2).toList) ((groups entries).flatMap packagesTokens) (within 2) :=
    .flatMap fun g hg => reads_packages (h g hg).system (h g hg).segment (h g hg).packages
  have happs : Reads (within 2) ((groups entries).flatMap fun g =>
      (renderApps g.1 g.2).toList) ((appGroups entries).flatMap appsTokens) (within 2) := by
    rw [flatMap_appGroups]
    exact .flatMap fun g hg => reads_apps (h g hg).system (h g hg).segment (h g hg).apps
  have htail : Reads (within 2) "    \x7d;\n\x7d\n".toList [.punct '}', .punct ';', .punct '}']
      [] := .fixed (by rfl)
  have hread := (reads_head description caches).append (hpackages.append (happs.append htail))
  delta renderFlakeNix
  simpa only [flakeTokens, List.flatten_cons, List.flatten_nil, List.append_nil,
    String.toList_append, toList_join, List.flatMap_map, List.append_assoc] using hread

/-! ## The expression -/

/-- A literal without a carriage return, as the parser sees it. -/
theorem strTokens_escaped {s : String} (h : '\r' ∉ s.toList) :
    strTokens (escaped s.toList) = if s = "" then [] else [.str s] := by
  rw [strTokens, unescape_escaped h, String.ofList_toList]
  have hnil : escaped s.toList = [] ↔ s = "" := by
    constructor
    · intro hesc
      have hun := unescape_escaped h
      rw [hesc] at hun
      rw [← String.ofList_toList (s := s), ← hun]
      rfl
    · rintro rfl
      rfl
  simp only [hnil]

theorem simple_quoted {s : String} (h : '\r' ∉ s.toList) (rest : List Token) :
    Yields (parseSimple · (quotedTokens s ++ rest)) (lit s, rest) := by
  rw [quotedTokens, strTokens_escaped h]
  by_cases hs : s = ""
  · rw [if_pos hs, lit, if_pos hs]
    exact simple_string parts_nil
  · rw [if_neg hs, lit, if_neg hs]
    exact simple_string (parts_text parts_nil)

/-- A literal on its own. -/
theorem expr_quoted {s : String} {rest : List Token} (h : '\r' ∉ s.toList) :
    Yields (parseExpr · (quotedTokens s ++ .punct ';' :: rest)) (lit s, .punct ';' :: rest) := by
  exact expr_simple rfl (simple_quoted h _) rfl (by simp)

theorem simple_stringList {items : List String} (h : ∀ s ∈ items, '\r' ∉ s.toList)
    (rest : List Token) :
    Yields (parseSimple · (listTokens items ++ rest)) (.list (items.map lit), rest) := by
  rw [listTokens, List.cons_append, List.append_assoc]
  refine simple_list (items_flatMap ?_ ?_ ?_ rfl (by simp))
  · intro s _ rest
    rfl
  · intro s hs rest hrest
    exact select_simple (simple_quoted (h s hs) rest) hrest
  · intro s _ rest
    simp [quotedTokens]

theorem expr_stringList {items : List String} {rest : List Token}
    (h : ∀ s ∈ items, '\r' ∉ s.toList) :
    Yields (parseExpr · (listTokens items ++ .punct ';' :: rest))
      (.list (items.map lit), .punct ';' :: rest) :=
  expr_simple rfl (simple_stringList h _) rfl (by simp)

/-- `fetch <path>`, with something behind it that ends it. -/
theorem expr_fetch {path : String} {rest : List Token} (hrest : startsSimple rest = false)
    (hdot : rest.head? ≠ some (.punct '.')) :
    Yields (parseExpr · (.ident "fetch" :: .path path :: rest)) (fetchOf path, rest) :=
  expr_app rfl (select_simple simple_var (by simp)) rfl (select_simple simple_path hdot) hrest

theorem parts_program {mainProgram : String} (binOutput : String) (h : '\r' ∉ mainProgram.toList)
    (rest : List Token) :
    Yields (parseSimple · (programTokens binOutput mainProgram ++ rest))
      (.string [.interp (fetchOf binOutput), .text ("/bin/" ++ mainProgram)], rest) := by
  have hcr : '\r' ∉ ("/bin/" ++ mainProgram).toList := by
    rw [String.toList_append, List.mem_append, not_or]
    exact ⟨by decide, h⟩
  have hne : ("/bin/" ++ mainProgram) ≠ "" := by
    intro heq
    have := congrArg String.toList heq
    rw [String.toList_append] at this
    exact absurd this (by simp)
  rw [programTokens, strTokens_escaped hcr, if_neg hne]
  exact simple_string (parts_interp (expr_fetch rfl (by simp)) (parts_text parts_nil))

/-- Attributes of one name each. -/
theorem distinct_map {α : Type} {l : List α} {name : α → String} {expr : α → Expr}
    (h : (l.map name).Nodup) : distinct (l.map fun a => ([name a], expr a)) = true := by
  refine decide_eq_true (List.pairwise_map.mpr ((List.pairwise_map.mp h).imp fun hne => ?_))
  simpa [List.cons_prefix_cons] using ⟨hne, fun heq => hne heq.symm⟩

theorem nodup_withApps (attrs : BTreeMap String FlakeEntry) :
    ((withApps attrs).map Prod.fst).Nodup := by
  have hentries := List.pairwise_map.mp attrs.nodup_keys
  refine List.pairwise_map.mpr (List.pairwise_filterMap.mpr (hentries.imp fun hne => ?_))
  intro b hb b' hb'
  obtain ⟨mp, -, rfl⟩ := Option.map_eq_some_iff.mp hb
  obtain ⟨mp', -, rfl⟩ := Option.map_eq_some_iff.mp hb'
  exact hne

/-- `<name> = <value>;`, and more. -/
theorem binds_name {name : String} {value more rest : List Token} {e : Expr}
    {binds : List (List String × Expr)}
    (h : Yields (parseExpr · (value ++ .punct ';' :: more)) (e, .punct ';' :: more))
    (h' : Yields (parseBinds · more) (binds, rest)) :
    Yields (parseBinds · (.ident name :: .punct '=' :: (value ++ .punct ';' :: more)))
      (([name], e) :: binds, rest) :=
  binds_cons rfl (parseAttrPath_one (by simp)) h h'

theorem expr_appBody {binOutput mainProgram : String} {rest : List Token}
    (h : '\r' ∉ mainProgram.toList) :
    Yields (parseExpr · (bodyTokens binOutput mainProgram ++ .punct ';' :: rest))
      (appOf binOutput mainProgram, .punct ';' :: rest) := by
  have hshape : bodyTokens binOutput mainProgram ++ .punct ';' :: rest =
      .punct '{' :: (.ident "type" :: .punct '=' :: (quotedTokens "app" ++ .punct ';' ::
        (.ident "program" :: .punct '=' :: (programTokens binOutput mainProgram ++ .punct ';' ::
          (.punct '}' :: .punct ';' :: rest))))) := by
    simp only [bodyTokens, List.flatten_cons, List.flatten_nil, List.append_nil, List.append_assoc,
      List.cons_append, List.nil_append]
  rw [hshape]
  refine expr_simple rfl (simple_attrs (binds_name (expr_quoted (by decide))
    (binds_name ?_ (binds_nil rfl))) (by simp [distinct])) rfl (by simp)
  exact expr_simple rfl (parts_program binOutput h _) rfl (by simp)

/-- A set of attributes of one name each. -/
theorem expr_set {α : Type} {l : List α} {name : α → String} {value : α → List Token}
    {expr : α → Expr} {rest : List Token} (hnames : (l.map name).Nodup)
    (h : ∀ a ∈ l, ∀ rest, Yields (parseExpr · (value a ++ .punct ';' :: rest))
      (expr a, .punct ';' :: rest)) :
    Yields (parseExpr · (.punct '{' ::
      ((l.flatMap fun a => bindTokens [.ident (name a)] (value a)) ++ [.punct '}']) ++
        .punct ';' :: rest))
      (.attrs (l.map fun a => ([name a], expr a)), .punct ';' :: rest) := by
  have hbinds : Yields (parseBinds · ((l.flatMap fun a => bindTokens [.ident (name a)] (value a)) ++
      .punct '}' :: .punct ';' :: rest))
      ((l.map fun a => ([name a], expr a)) ++ [], .punct '}' :: .punct ';' :: rest) :=
    binds_flatMap (fun _ _ _ => rfl) (fun _ _ _ => parseAttrPath_one (by simp)) h (binds_nil rfl)
  rw [List.append_nil] at hbinds
  have hset := simple_attrs hbinds (distinct_map hnames)
  simpa [List.append_assoc] using expr_simple rfl hset rfl (by simp)

/-- `<output>.<system>` -/
theorem parseAttrPath_dotted (output system : String) (rest : List Token) :
    parseAttrPath ([.ident output, .punct '.', .ident system] ++ .punct '=' :: rest) =
      some ([output, system], .punct '=' :: rest) :=
  parseAttrPath_cons (parseAttrPath_one (by simp))

/-- The outputs. -/
theorem binds_outputs {entries : List FlakeEntry} {rest : List Token}
    (h : ∀ g ∈ groups entries, ∀ a ∈ withApps g.2, '\r' ∉ a.2.2.toList) :
    Yields (parseBinds · ((groups entries).flatMap packagesTokens ++
      ((appGroups entries).flatMap appsTokens ++ .punct '}' :: rest)))
      (outputsOf entries, .punct '}' :: rest) := by
  have happs : Yields (parseBinds · ((appGroups entries).flatMap appsTokens ++ .punct '}' :: rest))
      ((appGroups entries).map appsOf ++ [], .punct '}' :: rest) := by
    refine binds_flatMap (fun _ _ _ => rfl) (fun g _ => parseAttrPath_dotted "apps" g.1) ?_
      (binds_nil rfl)
    intro g hg rest
    refine expr_set (nodup_withApps g.2) fun a ha rest => ?_
    exact expr_appBody (h g (List.mem_filter.mp hg).1 a ha)
  rw [List.append_nil] at happs
  refine binds_flatMap (fun _ _ _ => rfl) (fun g _ => parseAttrPath_dotted "packages" g.1) ?_ happs
  intro g _ rest
  exact expr_set g.2.nodup_keys fun a _ rest => expr_fetch rfl (by simp)

/-- No output is defined twice. -/
theorem distinct_outputs (entries : List FlakeEntry) : distinct (outputsOf entries) = true := by
  have hsystems : (groups entries).Pairwise fun g g' => g.1 ≠ g'.1 :=
    (List.pairwise_map.mp (bySystem entries).nodup_keys).filter _
  have hprefix : ∀ output output' system system' : String,
      [output, system] <+: [output', system'] ↔ output = output' ∧ system = system' := by
    intro output output' system system'
    simp [List.cons_prefix_cons]
  refine decide_eq_true (List.pairwise_append.mpr ⟨?_, ?_, ?_⟩)
  · refine List.pairwise_map.mpr (hsystems.imp fun hne => ?_)
    simp only [packagesOf, hprefix]
    exact ⟨fun h => hne h.2, fun h => hne h.2.symm⟩
  · refine List.pairwise_map.mpr ((hsystems.filter _).imp fun hne => ?_)
    simp only [appsOf, hprefix]
    exact ⟨fun h => hne h.2, fun h => hne h.2.symm⟩
  · intro b hb b' hb'
    obtain ⟨g, -, rfl⟩ := List.mem_map.mp hb
    obtain ⟨g', -, rfl⟩ := List.mem_map.mp hb'
    simp [packagesOf, appsOf, hprefix]

/-- `{ extra-substituters = …; extra-trusted-public-keys = …; … }` -/
def nixConfigTokens (caches : List UsableCache) : List Token :=
  .punct '{' :: .ident "extra-substituters" :: .punct '=' :: (listTokens (caches.map (·.url)) ++
    Token.punct ';' :: (.ident "extra-trusted-public-keys" :: .punct '=' ::
      (listTokens (caches.map (·.key)) ++ Token.punct ';' ::
        (.ident "extra-experimental-features" :: .punct '=' :: (listTokens ["fetch-closure"] ++
          Token.punct ';' :: [.punct '}'])))))

theorem expr_nixConfig {caches : List UsableCache} {rest : List Token}
    (hurls : ∀ s ∈ caches.map (·.url), '\r' ∉ s.toList)
    (hkeys : ∀ s ∈ caches.map (·.key), '\r' ∉ s.toList) :
    Yields (parseExpr · (nixConfigTokens caches ++ .punct ';' :: rest))
      (.attrs [(["extra-substituters"], .list (caches.map fun c => lit c.url)),
        (["extra-trusted-public-keys"], .list (caches.map fun c => lit c.key)),
        (["extra-experimental-features"], .list [lit "fetch-closure"])], .punct ';' :: rest) := by
  have hfeature : ∀ s ∈ ["fetch-closure"], '\r' ∉ s.toList := by decide
  have hurl : caches.map (fun c => lit c.url) = (caches.map (·.url)).map lit := by
    rw [List.map_map]
    rfl
  have hkey : caches.map (fun c => lit c.key) = (caches.map (·.key)).map lit := by
    rw [List.map_map]
    rfl
  rw [hurl, hkey]
  simp only [nixConfigTokens, List.append_assoc, List.cons_append, List.nil_append]
  refine expr_simple rfl (simple_attrs (binds_name (expr_stringList hurls)
    (binds_name (expr_stringList hkeys) (binds_name (expr_stringList hfeature) (binds_nil rfl))))
    (by simp [distinct])) rfl (by simp)

/-- `path: builtins.fetchClosure { fromStore = …; fromPath = path; inputAddressed = true; }` -/
def fetchTokens (fetchFrom : String) : List Token :=
  .ident "path" :: .punct ':' :: .ident "builtins" :: .punct '.' :: .ident "fetchClosure" ::
    .punct '{' :: .ident "fromStore" :: .punct '=' :: (quotedTokens fetchFrom ++ Token.punct ';' ::
      [.ident "fromPath", .punct '=', .ident "path", .punct ';', .ident "inputAddressed",
        .punct '=', .ident "true", .punct ';', .punct '}'])

theorem expr_fetchClosure {fetchFrom : String} {rest : List Token} (h : '\r' ∉ fetchFrom.toList) :
    Yields (parseExpr · (fetchTokens fetchFrom ++ .punct ';' :: rest))
      (.lambda "path" (.app (.select (.var "builtins") ["fetchClosure"]) (.attrs [
        (["fromStore"], lit fetchFrom), (["fromPath"], .var "path"),
        (["inputAddressed"], .var "true")])), .punct ';' :: rest) := by
  have hvar : ∀ (x : String) (more : List Token),
      Yields (parseExpr · ([.ident x] ++ .punct ';' :: more)) (.var x, .punct ';' :: more) :=
    fun x more => expr_simple rfl simple_var rfl (by simp)
  simp only [fetchTokens, List.append_assoc, List.cons_append, List.nil_append]
  refine expr_lambda (Nix.expr_app rfl (select_attr simple_var (parseAttrPath_one (by simp))) rfl
    (select_simple (simple_attrs (binds_name (expr_quoted h) (binds_name (hvar "path" _)
      (binds_name (hvar "true" _) (binds_nil rfl)))) (by simp [distinct])) (by simp)) rfl)

theorem expr_flake {description : String} {caches : List UsableCache} {entries : List FlakeEntry}
    (hstrings : ∀ s ∈ literals description caches entries, '\r' ∉ s.toList)
    (hprograms : ∀ g ∈ groups entries, ∀ a ∈ withApps g.2, '\r' ∉ a.2.2.toList) :
    Yields (parseExpr · (flakeTokens description caches entries))
      (flakeOf description caches (outputsOf entries), []) := by
  have hdescription : '\r' ∉ description.toList := hstrings description (by simp [literals])
  have hurls : ∀ s ∈ caches.map (·.url), '\r' ∉ s.toList := by
    intro s hs
    exact hstrings s (List.mem_append_left _ (List.mem_append_left _ (List.mem_cons_of_mem _ hs)))
  have hkeys : ∀ s ∈ caches.map (·.key), '\r' ∉ s.toList := by
    intro s hs
    exact hstrings s (List.mem_append_left _ (List.mem_append_right _ hs))
  have hfrom : '\r' ∉ ((caches.head?.map (·.url)).getD "").toList := by
    cases caches with
    | nil => simp
    | cons c caches => exact hurls c.url (by simp)
  have hshape : flakeTokens description caches entries =
      .punct '{' :: .ident "description" :: .punct '=' :: (quotedTokens description ++ .punct ';' ::
        (.ident "nixConfig" :: .punct '=' :: (nixConfigTokens caches ++ .punct ';' ::
          (.ident "outputs" :: .punct '=' :: (.ident "_" :: .punct ':' :: .keyword .letKw ::
            .ident "fetch" :: .punct '=' :: (fetchTokens ((caches.head?.map (·.url)).getD "") ++
              .punct ';' :: (.keyword .inKw :: .punct '{' ::
                ((groups entries).flatMap packagesTokens ++
                  ((appGroups entries).flatMap appsTokens ++
                    .punct '}' :: .punct ';' :: [.punct '}']))))))))) := by
    simp only [flakeTokens, headTokens, nixConfigTokens, fetchTokens, listTokens,
      List.flatten_cons, List.flatten_nil, List.flatMap_cons, List.flatMap_nil, List.append_nil,
      List.append_assoc, List.cons_append, List.nil_append]
  rw [hshape]
  refine expr_simple rfl (simple_attrs (binds_name (expr_quoted hdescription)
    (binds_name (expr_nixConfig hurls hkeys) (binds_cons rfl (parseAttrPath_one (by simp)) ?_
      (binds_nil rfl)))) (by simp [distinct])) rfl (by simp)
  refine expr_lambda (expr_let (binds_name (expr_fetchClosure hfrom) (binds_nil rfl))
    (by simp [distinct]) ?_)
  exact expr_simple rfl (simple_attrs (binds_outputs hprograms) (distinct_outputs entries)) rfl
    (by simp)

/-! ## Both directions -/

/-- A literal that denotes its string has no carriage return in it. -/
theorem parsesTo_quoted_iff {s : String} : ParsesTo (quoted s) (lit s) ↔ '\r' ∉ s.toList := by
  have hlex : lex (quoted s).toList = some (quotedTokens s) := (reads_quoted 0 s).lex
  constructor
  · rintro ⟨ts, hts, hparse⟩
    obtain rfl := Option.some.inj (hlex.symm.trans hts)
    by_cases hesc : escaped s.toList = []
    · rw [quotedTokens, strTokens, if_pos hesc] at hparse
      have hnil : lit s = .string [] :=
        (Prod.mk.inj (hparse.unique (expr_simple rfl (simple_string parts_nil) rfl (by simp)))).1
      have hs : s = "" := by
        by_contra hs
        rw [lit, if_neg hs] at hnil
        exact absurd (Expr.string.inj hnil) (by simp)
      rw [hs]
      simp
    · rw [quotedTokens, strTokens, if_neg hesc] at hparse
      have htext : lit s = .string [.text (String.ofList (unescape (escaped s.toList)))] :=
        (Prod.mk.inj (hparse.unique
          (expr_simple rfl (simple_string (parts_text parts_nil)) rfl (by simp)))).1
      by_cases hs : s = ""
      · rw [lit, if_pos hs] at htext
        exact absurd (Expr.string.inj htext) (by simp)
      · rw [lit, if_neg hs] at htext
        have hsame := StrPart.text.inj (List.cons.inj (Expr.string.inj htext)).1
        rw [hsame, String.toList_ofList]
        exact no_cr_unescape_escaped s.toList
  · intro h
    refine ⟨quotedTokens s, hlex, ?_⟩
    have hsimple := simple_quoted h []
    rw [List.append_nil] at hsimple
    exact expr_simple rfl hsimple rfl (by simp)

theorem isStorePath_of_green {job : JobRecord} {e : FlakeEntry} (h : Green job e)
    (hjob : StoresOutputs job) : IsStorePath e.packageOut ∧ IsStorePath e.binOutput := by
  have hout := hjob "out" (by simp) _ h.out
  refine ⟨hout, ?_⟩
  rw [h.bin]
  cases hbin : job.outputs.lookup "bin" with
  | none => exact hout
  | some p => exact hjob "bin" (by simp) p hbin

theorem mem_withApps {attrs : BTreeMap String FlakeEntry} {a : String × FlakeEntry × String}
    (ha : a ∈ withApps attrs) : (a.1, a.2.1) ∈ attrs.entries ∧ a.2.1.mainProgram = some a.2.2 := by
  obtain ⟨x, hx, h⟩ := List.mem_filterMap.mp ha
  obtain ⟨mp, hmp, rfl⟩ := Option.map_eq_some_iff.mp h
  exact ⟨hx, hmp⟩

/-- What is in a group is an entry. -/
theorem entry_of_group {entries : List FlakeEntry} {g : String × BTreeMap String FlakeEntry}
    {a : String × FlakeEntry} (hg : g ∈ groups entries) (ha : a ∈ g.2.entries) :
    a.2 ∈ entries ∧ g.1 = a.2.system ∧ a.1 = a.2.leaf := by
  have hflat : (g.1, a.1, a.2) ∈ flat (bySystem entries) :=
    List.mem_flatMap.mpr ⟨g, (List.mem_filter.mp hg).1, List.mem_map_of_mem ha⟩
  obtain ⟨e, he, heq⟩ := mem_flat_bySystem hflat
  obtain ⟨h₁, h₂⟩ := Prod.mk.inj heq
  obtain ⟨h₂, h₃⟩ := Prod.mk.inj h₂
  subst h₃
  exact ⟨he, h₁, h₂⟩

/-- Writable values make legible groups. -/
theorem Writable.legible {description : String} {caches : List UsableCache}
    {entries : List FlakeEntry} (h : Writable description caches entries)
    (hsafe : ∀ e ∈ entries, isSafeAttrSegment e.leaf = true)
    (hstore : ∀ e ∈ entries, IsStorePath e.packageOut ∧ IsStorePath e.binOutput)
    {g : String × BTreeMap String FlakeEntry} (hg : g ∈ groups entries) : Legible g := by
  have hpackages : ∀ a ∈ g.2.entries,
      IsBareName a.1 = true ∧ IsPath a.2.packageOut.toList = true := by
    intro a ha
    obtain ⟨he, -, hleaf⟩ := entry_of_group hg ha
    rw [hleaf]
    exact ⟨isBareName_of_safe (hsafe _ he) (h.leaves _ he),
      (isPath_iff (hstore _ he).1).mpr (h.paths _ he).1⟩
  obtain ⟨e, he, hsystem⟩ := mem_systems (List.mem_filter.mp hg).1
  obtain ⟨hsafeSystem, hstarts⟩ := h.systems e he
  refine ⟨?_, ?_, hpackages, ?_⟩
  · rw [hsystem]
    exact isBareName_of_safe hsafeSystem hstarts
  · rw [hsystem]
    exact isSegment_of_safe hsafeSystem hstarts
  · intro a ha
    obtain ⟨hmem, hmain⟩ := mem_withApps ha
    obtain ⟨he, -, -⟩ := entry_of_group hg hmem
    exact ⟨(hpackages _ hmem).1, (isPath_iff (hstore _ he).2).mpr
      ((h.paths _ he).2 (by simp [hmain]))⟩

theorem Writable.parsesTo {description : String} {caches : List UsableCache}
    {entries : List FlakeEntry} (h : Writable description caches entries)
    (hsafe : ∀ e ∈ entries, isSafeAttrSegment e.leaf = true)
    (hstore : ∀ e ∈ entries, IsStorePath e.packageOut ∧ IsStorePath e.binOutput) :
    ParsesTo (renderFlakeNix description caches entries)
      (flakeOf description caches (outputsOf entries)) := by
  have hread : Reads [] (renderFlakeNix description caches entries).toList
      (flakeTokens description caches entries) [] :=
    reads_flake fun g hg => h.legible hsafe hstore hg
  refine ⟨flakeTokens description caches entries, hread.lex, expr_flake h.strings ?_⟩
  intro g hg a ha
  obtain ⟨hmem, hmain⟩ := mem_withApps ha
  obtain ⟨he, -, -⟩ := entry_of_group hg hmem
  exact h.strings a.2.2 (List.mem_append_right _ (List.mem_filterMap.mpr ⟨a.2.1, he, hmain⟩))

/-- **The synthetic flake is well-formed exactly if all that is put into it can be written.** -/
theorem wellFormed_iff {description : String} {caches : List UsableCache} {jobs : List JobRecord}
    (hjobs : ∀ job ∈ jobs, StoresOutputs job) :
    WellFormed description caches jobs ↔
      Writable description caches (jobs.filterMap FlakeEntry.fromJob) := by
  have hstore : ∀ e ∈ jobs.filterMap FlakeEntry.fromJob,
      IsStorePath e.packageOut ∧ IsStorePath e.binOutput := by
    intro e he
    obtain ⟨job, hjob, hfrom⟩ := List.mem_filterMap.mp he
    exact isStorePath_of_green (fromJob_eq_some_iff.mp hfrom) (hjobs job hjob)
  have hsafeLeaf : ∀ e ∈ jobs.filterMap FlakeEntry.fromJob, isSafeAttrSegment e.leaf = true := by
    intro e he
    obtain ⟨job, -, hfrom⟩ := List.mem_filterMap.mp he
    exact (fromJob_eq_some_iff.mp hfrom).safe
  constructor
  · intro h
    obtain ⟨hsafe, hnodup⟩ := perm_packages_iff.mp h.packages
    have hnames : ∀ e ∈ jobs.filterMap FlakeEntry.fromJob,
        StartsWell e.system ∧ StartsWell e.leaf := by
      intro e he
      have hbare := h.names _ (h.packages.symm.subset (List.mem_map_of_mem he))
      exact ⟨startsWell_of_isBareName hbare.1, startsWell_of_isBareName hbare.2⟩
    refine ⟨fun e he => ⟨hsafe e he, (hnames e he).1⟩, fun e he => (hnames e he).2, hnodup, ?_, ?_⟩
    · intro e he
      obtain ⟨hout, hbin⟩ := hstore e he
      obtain ⟨hp, hb⟩ := h.paths e he
      exact ⟨(lex_path_iff hout).mp hp, fun hmain => (lex_path_iff hbin).mp (hb hmain)⟩
    · intro s hs
      exact parsesTo_quoted_iff.mp (h.strings s hs)
  · intro h
    have hsystems := fun e he => (h.systems e he).1
    have hpackages := perm_packages_iff.mpr ⟨hsystems, h.distinct⟩
    refine ⟨h.parsesTo hsafeLeaf hstore, fun _ _ _ => fromJob_eq_some_iff, hpackages,
      perm_apps hsystems h.distinct, ?_, ?_, ?_⟩
    · intro a ha
      obtain ⟨e, he, rfl⟩ := List.mem_map.mp (hpackages.subset ha)
      exact ⟨isBareName_of_safe (hsystems e he) (h.systems e he).2,
        isBareName_of_safe (hsafeLeaf e he) (h.leaves e he)⟩
    · intro e he
      obtain ⟨hout, hbin⟩ := hstore e he
      obtain ⟨hp, hb⟩ := h.paths e he
      exact ⟨(lex_path_iff hout).mpr hp, fun hmain => (lex_path_iff hbin).mpr (hb hmain)⟩
    · intro s hs
      exact parsesTo_quoted_iff.mpr (h.strings s hs)

/-! ## Jobs -/

/-- A Job with one output. -/
def someJob (attrPath out : String) (mainProgram : Option String) : JobRecord where
  attrPath := attrPath
  system := "x86_64-linux"
  status := .success
  mainProgram := mainProgram
  outputs := (∅ : HashMap String String).insert "out" out

theorem storesOutputs_someJob {attrPath out : String} {mainProgram : Option String}
    (h : IsStorePath out) : StoresOutputs (someJob attrPath out mainProgram) := by
  intro name hname p hp
  simp only [List.mem_cons, List.not_mem_nil, or_false] at hname
  rcases hname with rfl | rfl
  · rw [someJob, AList.lookup_insert] at hp
    rwa [← Option.some.inj hp]
  · rw [someJob, AList.lookup_insert_ne (by decide)] at hp
    exact absurd hp (by simp)

theorem isStorePath_of_name {name : String} (hne : name ≠ "")
    (h : name.toList.all (fun c => c.isAlphanum || "+-._?=".toList.contains c) = true) :
    IsStorePath ("/nix/store/" ++ name) := by
  refine ⟨name.toList, fun hnil => hne (String.toList_injective hnil), ?_, fun c hc => ?_⟩
  · rw [String.ofList_append, String.ofList_toList, String.ofList_toList]
  · simpa only [Bool.or_eq_true, List.contains_iff_mem] using List.all_eq_true.mp h c hc

theorem startsWell_of {s : String} (hhead : s.toList.head?.any (fun c => c.isAlpha || c == '_'))
    (hword : s ∉ Keyword.words.map Prod.fst) : StartsWell s := by
  refine ⟨?_, hword⟩
  cases hs : s.toList with
  | nil => simp [hs] at hhead
  | cons c cs =>
    refine ⟨c, cs, rfl, ?_⟩
    simpa [hs] using hhead

/-- A package with a program. -/
theorem wellFormed_iff_hello :
    WellFormed "hello" [⟨"https://cache.example.com", "argunix-1:abc"⟩]
      [someJob "packages.x86_64-linux.hello" ("/nix/store/" ++ "zzz-hello") (some "hello")] := by
  have hpath : IsStorePath ("/nix/store/" ++ "zzz-hello") :=
    isStorePath_of_name (by decide) (by rfl)
  have hentries : [someJob "packages.x86_64-linux.hello" ("/nix/store/" ++ "zzz-hello")
      (some "hello")].filterMap FlakeEntry.fromJob = [⟨"x86_64-linux", "hello",
        "/nix/store/" ++ "zzz-hello", "/nix/store/" ++ "zzz-hello", some "hello"⟩] := by
    rfl
  refine (wellFormed_iff ?_).mpr ?_
  · intro job hjob
    rw [List.mem_singleton.mp hjob]
    exact storesOutputs_someJob hpath
  · rw [hentries]
    refine ⟨?_, ?_, by decide, ?_, by decide⟩
    · intro e he
      rw [List.mem_singleton.mp he]
      exact ⟨by rfl, startsWell_of (by rfl) (by decide)⟩
    · intro e he
      rw [List.mem_singleton.mp he]
      exact startsWell_of (by rfl) (by decide)
    · intro e he
      rw [List.mem_singleton.mp he]
      refine ⟨⟨by decide, by decide⟩, fun _ => ?_⟩
      exact ⟨by decide, by decide⟩

/-- **A package whose name begins with a digit** is written as it is, and its name is no
    identifier. -/
theorem not_wellFormed_digit :
    ¬ ∀ (description : String) (caches : List UsableCache) (jobs : List JobRecord), caches ≠ [] →
      (∀ job ∈ jobs, StoresOutputs job) → WellFormed description caches jobs := by
  intro h
  have hpath : IsStorePath ("/nix/store/" ++ "zzz-7zip") :=
    isStorePath_of_name (by decide) (by rfl)
  have hwell := h "7zip" [⟨"https://cache.example.com", "argunix-1:abc"⟩]
    [someJob "packages.x86_64-linux.7zip" ("/nix/store/" ++ "zzz-7zip") none] (by simp) (by
      intro job hjob
      rw [List.mem_singleton.mp hjob]
      exact storesOutputs_someJob hpath)
  have hentry : (⟨"x86_64-linux", "7zip", "/nix/store/" ++ "zzz-7zip",
      "/nix/store/" ++ "zzz-7zip", none⟩ : FlakeEntry) ∈ [someJob "packages.x86_64-linux.7zip"
        ("/nix/store/" ++ "zzz-7zip") none].filterMap FlakeEntry.fromJob := by
    decide
  have hname := (hwell.names _ (hwell.packages.symm.subset (List.mem_map_of_mem hentry))).2
  exact absurd hname (by decide)

end Argunix.Web.Flake
