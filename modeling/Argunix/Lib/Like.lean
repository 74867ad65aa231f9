import Mathlib.Data.List.Basic
import Mathlib.Data.List.Infix
import Mathlib.Data.List.TakeWhile

/-!
# The `LIKE` operator

`text LIKE pattern ESCAPE '\'` as SQLite evaluates it: `%` stands for any sequence of characters,
`_` for one, a backslash takes the character after it literally, and ASCII letters are compared
without their case. Both operands are C strings by then, so that a NUL ends them.

A pattern that ends in a separator and `%` splits the text at the separator, as long as the text
has only one (`like_append_sep`); a pattern without wildcards is a comparison without case
(`like_of_literal`).
-/

set_option autoImplicit false

namespace Argunix.Lib

/-- Equal but for the case of ASCII letters. -/
def sameFold (c x : Char) : Bool := c.toLower = x.toLower

/-- The comparison of SQLite, for operands without a NUL. -/
def patternCompare : List Char → List Char → Bool
  | [], text => text.isEmpty
  | c :: pattern, text =>
    if c = '%' then text.tails.any fun rest => patternCompare pattern rest
    else match text with
      | [] => false
      | x :: text =>
        if c = '_' then patternCompare pattern text
        else if c = '\\' then
          match pattern with
          | [] => false
          | c' :: pattern => sameFold c' x && patternCompare pattern text
        else sameFold c x && patternCompare pattern text

/-- The character that ends a C string. -/
def nul : Char := '\x00'

/-- What is before the first NUL. -/
def cString (text : List Char) : List Char := text.takeWhile fun c => c ≠ nul

/-- `text LIKE pattern ESCAPE '\'` -/
def like (pattern text : List Char) : Bool := patternCompare (cString pattern) (cString text)

/-- `LIKE` without an `ESCAPE`: a backslash is a character like any other. -/
def likePlain (pattern text : List Char) : Bool :=
  like (pattern.flatMap fun c => if c = '\\' then ['\\', '\\'] else [c]) text

/-- Only the character itself folds to it. -/
def Caseless (sep : Char) : Prop := ∀ x : Char, sep.toLower = x.toLower → x = sep

/-- Neither a wildcard nor the escape. -/
def Literal (c : Char) : Prop := c ≠ '%' ∧ c ≠ '_' ∧ c ≠ '\\'

instance (c : Char) : Decidable (Literal c) := inferInstanceAs (Decidable (_ ∧ _))

theorem toLower_of_isDigit {c : Char} (h : c.isDigit = true) : c.toLower = c := by
  simp only [Char.isDigit, Bool.and_eq_true, decide_eq_true_eq] at h
  unfold Char.toLower
  rw [dif_neg]
  rintro ⟨hA, -⟩
  exact absurd (UInt32.le_trans hA h.2) (by decide)

/-- What is no letter is caseless. -/
theorem caseless_of_not_lower {sep : Char} (hfold : sep.toLower = sep)
    (h : sep.isLower = false) : Caseless sep := by
  intro x hx
  rw [hfold] at hx
  unfold Char.toLower at hx
  split at hx
  · rename_i hupper
    have hlow : sep.isLower = true := by
      have hdef : ∀ c : Char, c.isLower = (c.val ≥ 'a'.val && c.val ≤ 'z'.val) := fun _ => rfl
      rw [hx]
      have hA : 65 ≤ x.toNat := UInt32.le_iff_toNat_le.mp hupper.1
      have hZ : x.toNat ≤ 90 := UInt32.le_iff_toNat_le.mp hupper.2
      simp only [hdef, Bool.and_eq_true, decide_eq_true_eq, UInt32.le_iff_toNat_le,
        ge_iff_le]
      simp only [UInt32.toNat_add, Char.toNat_val]
      rw [show ('a'.val - 'A'.val).toNat = 32 from rfl, show 'a'.toNat = 97 from rfl,
        show 'z'.toNat = 122 from rfl]
      omega
    exact absurd (h.symm.trans hlow) (by simp)
  · exact hx.symm

variable {c x sep : Char} {p q t a b : List Char}

theorem patternCompare_nil : patternCompare [] t = t.isEmpty := rfl

theorem patternCompare_percent : patternCompare ('%' :: p) t = true ↔
    ∃ rest, rest <:+ t ∧ patternCompare p rest = true := by
  have hstep : patternCompare ('%' :: p) t = t.tails.any fun rest => patternCompare p rest := by
    cases p <;> cases t <;> rfl
  rw [hstep]
  simp only [List.any_eq_true, List.mem_tails]

@[simp]
theorem patternCompare_cons_nil (h : c ≠ '%') : patternCompare (c :: p) [] = false := if_neg h

theorem patternCompare_underscore : patternCompare ('_' :: p) (x :: t) = patternCompare p t := by
  cases p <;> rfl

theorem patternCompare_backslash :
    patternCompare ('\\' :: c :: p) (x :: t) = (sameFold c x && patternCompare p t) := rfl

theorem patternCompare_literal (h : Literal c) :
    patternCompare (c :: p) (x :: t) = (sameFold c x && patternCompare p t) := by
  cases p <;> exact (if_neg h.1).trans ((if_neg h.2.1).trans (if_neg h.2.2))

/-- A character of a pattern without the escape. -/
theorem pattern_char (h : '\\' ∉ c :: p) : c = '%' ∨ c = '_' ∨ Literal c := by
  by_cases h1 : c = '%'
  · exact Or.inl h1
  · by_cases h2 : c = '_'
    · exact Or.inr (Or.inl h2)
    · exact Or.inr (Or.inr ⟨h1, h2, fun h3 => h (by simp [h3])⟩)

/-- A literal of the pattern occurs in every text that matches. -/
theorem mem_of_patternCompare (hesc : '\\' ∉ p) (hlit : Literal sep) (hcase : Caseless sep)
    (h : patternCompare (p ++ sep :: q) t = true) : sep ∈ t := by
  induction p generalizing t with
  | nil =>
    cases t with
    | nil => simp [patternCompare_cons_nil hlit.1] at h
    | cons x t =>
      rw [List.nil_append, patternCompare_literal hlit, Bool.and_eq_true] at h
      rw [hcase x (of_decide_eq_true h.1)]
      exact List.mem_cons_self
  | cons c p ih =>
    have hesc' : '\\' ∉ p := fun hm => hesc (List.mem_cons_of_mem c hm)
    rcases pattern_char hesc with rfl | rfl | hc
    · obtain ⟨rest, hsuffix, hr⟩ := patternCompare_percent.mp h
      exact hsuffix.subset (ih hesc' hr)
    · cases t with
      | nil => simp [patternCompare_cons_nil] at h
      | cons x t =>
        rw [List.cons_append, patternCompare_underscore] at h
        exact List.mem_cons_of_mem x (ih hesc' h)
    · cases t with
      | nil => simp [patternCompare_cons_nil hc.1] at h
      | cons x t =>
        rw [List.cons_append, patternCompare_literal hc, Bool.and_eq_true] at h
        exact List.mem_cons_of_mem x (ih hesc' h.2)

theorem patternCompare_percent_all (t : List Char) : patternCompare ['%'] t = true :=
  patternCompare_percent.mpr ⟨[], List.nil_suffix, rfl⟩

/-- **A pattern `p` + separator + `%`** matches a text with one separator exactly if `p` matches
    what comes before it. -/
theorem patternCompare_append_sep (hesc : '\\' ∉ p) (hlit : Literal sep) (hcase : Caseless sep)
    (ha : sep ∉ a) (hb : sep ∉ b) :
    patternCompare (p ++ [sep, '%']) (a ++ sep :: b) = true ↔ patternCompare p a = true := by
  induction p generalizing a with
  | nil =>
    rw [List.nil_append]
    cases a with
    | nil =>
      rw [List.nil_append, patternCompare_literal hlit, patternCompare_percent_all]
      simp [sameFold, patternCompare_nil]
    | cons x a =>
      have hx : sameFold sep x = false := by
        rw [Bool.eq_false_iff]
        exact fun h => ha (by simp [hcase x (of_decide_eq_true h)])
      rw [List.cons_append, patternCompare_literal hlit, hx]
      simp [patternCompare_nil]
  | cons c p ih =>
    have hesc' : '\\' ∉ p := fun hm => hesc (List.mem_cons_of_mem c hm)
    have hpast : patternCompare (p ++ [sep, '%']) b = false := by
      rw [Bool.eq_false_iff]
      exact fun h => hb (mem_of_patternCompare hesc' hlit hcase h)
    rcases pattern_char hesc with rfl | rfl | hc
    · rw [List.cons_append, patternCompare_percent, patternCompare_percent]
      constructor
      · rintro ⟨rest, hsuffix, hr⟩
        rcases List.suffix_or_suffix_of_suffix hsuffix (List.suffix_append a (sep :: b)) with
          hin | ⟨a', rfl⟩
        · -- past the separator nothing matches
          rcases List.suffix_cons_iff.mp hin with rfl | hin
          · exact ⟨[], List.nil_suffix, (ih hesc' (a := []) (by simp)).mp hr⟩
          · exact absurd (hin.subset (mem_of_patternCompare hesc' hlit hcase hr)) hb
        · have ha' : a' <:+ a := List.suffix_append_self_iff.mp hsuffix
          exact ⟨a', ha', (ih hesc' fun hm => ha (ha'.subset hm)).mp hr⟩
      · rintro ⟨a', ha', hr⟩
        exact ⟨a' ++ sep :: b, List.suffix_append_self_iff.mpr ha',
          (ih hesc' fun hm => ha (ha'.subset hm)).mpr hr⟩
    · cases a with
      | nil => simp [patternCompare_underscore, hpast, patternCompare_cons_nil]
      | cons x a =>
        rw [List.cons_append, List.cons_append, patternCompare_underscore,
          patternCompare_underscore]
        exact ih hesc' fun hm => ha (List.mem_cons_of_mem x hm)
    · cases a with
      | nil => simp [patternCompare_literal hc, hpast, patternCompare_cons_nil hc.1]
      | cons x a =>
        rw [List.cons_append, List.cons_append, patternCompare_literal hc,
          patternCompare_literal hc, Bool.and_eq_true, Bool.and_eq_true,
          ih hesc' fun hm => ha (List.mem_cons_of_mem x hm)]

/-- A pattern of literals compares without case. -/
theorem patternCompare_of_literal (h : ∀ c ∈ p, Literal c) :
    patternCompare p t = true ↔ p.map Char.toLower = t.map Char.toLower := by
  induction p generalizing t with
  | nil => cases t <;> simp [patternCompare_nil]
  | cons c p ih =>
    cases t with
    | nil => simp [patternCompare_cons_nil (h c List.mem_cons_self).1]
    | cons x t =>
      rw [patternCompare_literal (h c List.mem_cons_self), Bool.and_eq_true,
        ih fun c' hc' => h c' (List.mem_cons_of_mem c hc')]
      simp [sameFold]

/-! ## Operands and NULs -/

theorem cString_of_not_mem (h : nul ∉ t) : cString t = t :=
  List.takeWhile_eq_self_iff.mpr fun _ hc => decide_eq_true fun heq => h (heq ▸ hc)

theorem cString_append (h : nul ∉ a) : cString (a ++ b) = a ++ cString b :=
  List.takeWhile_append_of_pos fun _ hc => decide_eq_true fun heq => h (heq ▸ hc)

theorem cString_cons (h : c ≠ nul) : cString (c :: t) = c :: cString t :=
  List.takeWhile_cons_of_pos (decide_eq_true h)

theorem mem_of_mem_cString (h : c ∈ cString t) : c ∈ t :=
  (List.takeWhile_sublist _).subset h

theorem like_eq (hp : nul ∉ p) (ht : nul ∉ t) : like p t = patternCompare p t := by
  rw [like, cString_of_not_mem hp, cString_of_not_mem ht]

theorem mem_of_like (hesc : '\\' ∉ p) (hnul : nul ∉ p) (hlit : Literal sep) (hsep : sep ≠ nul)
    (hcase : Caseless sep) (h : like (p ++ sep :: q) t = true) : sep ∈ t := by
  rw [like, cString_append hnul, cString_cons hsep] at h
  exact mem_of_mem_cString (mem_of_patternCompare hesc hlit hcase h)

theorem like_append_sep (hesc : '\\' ∉ p) (hnul : nul ∉ p) (hlit : Literal sep) (hsep : sep ≠ nul)
    (hcase : Caseless sep) (ha : sep ∉ a) (hanul : nul ∉ a) (hb : sep ∉ b) :
    like (p ++ [sep, '%']) (a ++ sep :: b) = true ↔ like p a = true := by
  have hpattern : nul ∉ p ++ [sep, '%'] := fun hm => by
    rcases List.mem_append.mp hm with hm | hm
    · exact hnul hm
    · rcases List.mem_cons.mp hm with hm | hm
      · exact hsep hm.symm
      · exact absurd hm (by decide)
  rw [like_eq hnul hanul, like, cString_append hanul, cString_cons hsep,
    cString_of_not_mem hpattern]
  exact patternCompare_append_sep hesc hlit hcase ha fun hm => hb (mem_of_mem_cString hm)

/-- A pattern of literals compares without case. -/
theorem like_of_literal (hp : nul ∉ p) (ht : nul ∉ t) (h : ∀ c ∈ p, Literal c) :
    like p t = true ↔ p.map Char.toLower = t.map Char.toLower := by
  rw [like_eq hp ht, patternCompare_of_literal h]

/-- What no wildcard, no capital letter and no NUL stands for but itself. -/
def PlainText (p : List Char) : Prop := ∀ c ∈ p, c ≠ '%' ∧ c ≠ '_' ∧ c ≠ nul ∧ c.toLower = c

instance (p : List Char) : Decidable (PlainText p) :=
  decidable_of_iff (p.all fun c => c ≠ '%' ∧ c ≠ '_' ∧ c ≠ nul ∧ c.toLower = c)
    ⟨fun h c hc => of_decide_eq_true (List.all_eq_true.mp h c hc),
      fun h => List.all_eq_true.mpr fun c hc => decide_eq_true (h c hc)⟩

theorem PlainText.of_cons (h : PlainText (c :: p)) : PlainText p :=
  fun x hx => h x (List.mem_cons_of_mem c hx)

theorem PlainText.of_start (ht : PlainText t) (h : p <+: t) : PlainText p :=
  fun c hc => ht c (h.subset hc)

theorem PlainText.no_nul (h : PlainText p) : nul ∉ p := fun hm => (h nul hm).2.2.1 rfl

/-- The pattern with its backslashes escaped, character by character. -/
theorem patternCompare_escaped (hp : PlainText p) (ht : PlainText t) :
    patternCompare ((p ++ ['%']).flatMap fun c => if c = '\\' then ['\\', '\\'] else [c]) t =
      true ↔ p <+: t := by
  induction p generalizing t with
  | nil => exact iff_of_true (patternCompare_percent_all t) List.nil_prefix
  | cons c p ih =>
    obtain ⟨hpercent, hunder, -, hfold⟩ := hp c List.mem_cons_self
    cases t with
    | nil =>
      refine iff_of_false ?_ (by simp)
      by_cases hesc : c = '\\'
      · subst hesc
        simp
      · simp [hesc, patternCompare_cons_nil hpercent]
    | cons x t =>
      have hfold' := (ht x List.mem_cons_self).2.2.2
      have ih' := ih hp.of_cons (ht.of_cons)
      rw [List.cons_prefix_cons, ← ih', List.cons_append, List.flatMap_cons]
      by_cases hesc : c = '\\'
      · rw [if_pos hesc, List.cons_append, List.cons_append, List.nil_append,
          patternCompare_backslash, Bool.and_eq_true, sameFold, ← hesc, hfold, hfold',
          decide_eq_true_eq]
      · rw [if_neg hesc, List.cons_append, List.nil_append,
          patternCompare_literal ⟨hpercent, hunder, hesc⟩, Bool.and_eq_true, sameFold, hfold,
          hfold', decide_eq_true_eq]

/-- **A plain pattern with `%` behind it finds what starts with it**, in texts that are plain. -/
theorem likePlain_percent_iff (hp : PlainText p) (ht : PlainText t) :
    likePlain (p ++ ['%']) t = true ↔ p <+: t := by
  have hnul : nul ∉ (p ++ ['%']).flatMap fun c => if c = '\\' then ['\\', '\\'] else [c] := by
    intro hm
    obtain ⟨c, hc, hin⟩ := List.mem_flatMap.mp hm
    have hcnul : c ≠ nul := by
      rcases List.mem_append.mp hc with hc | hc
      · exact (hp c hc).2.2.1
      · rw [List.mem_singleton.mp hc]
        decide
    split at hin
    · exact absurd hin (by decide)
    · exact hcnul (List.mem_singleton.mp hin).symm
  rw [likePlain, like_eq hnul ht.no_nul, patternCompare_escaped hp ht]

end Argunix.Lib
