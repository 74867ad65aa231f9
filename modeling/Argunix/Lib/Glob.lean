import Mathlib.Data.List.Infix

/-!
# Glob patterns

There are many dialects, and they agree on two things: a pattern without metacharacters matches
itself alone, and `*` stands for any run of characters. `Glob` is a dialect with these two laws, so
what is proved of every `Glob` does not depend on which further metacharacters there are.
`Glob.wildcards` is the dialect of `*` and `?`.
-/

set_option autoImplicit false

namespace Argunix.Lib

structure Glob where
  /-- The pattern matches the text. -/
  Matches : List Char → List Char → Prop
  IsMeta : Char → Prop
  star : IsMeta '*'
  plain : ∀ {p t : List Char}, (∀ c ∈ p, ¬ IsMeta c) → (Matches p t ↔ p = t)
  run : ∀ {p q t : List Char}, (∀ c ∈ p, ¬ IsMeta c) → (∀ c ∈ q, ¬ IsMeta c) →
    (Matches (p ++ '*' :: q) t ↔ ∃ r, t = p ++ r ++ q)

/-- `*` is any run of characters and `?` any one. -/
def wildcard : List Char → List Char → Bool
  | [], text => text.isEmpty
  | c :: pattern, text =>
    if c = '*' then text.tails.any fun rest => wildcard pattern rest
    else match text with
      | [] => false
      | x :: text => (c = '?' || c = x) && wildcard pattern text

variable {c x : Char} {p q t : List Char}

theorem wildcard_star :
    wildcard ('*' :: p) t = true ↔ ∃ rest, rest <:+ t ∧ wildcard p rest = true := by
  rw [wildcard.eq_def]
  simp only [if_true, List.any_eq_true, List.mem_tails]

theorem wildcard_literal (hstar : c ≠ '*') (hone : c ≠ '?') :
    wildcard (c :: p) t = true ↔ ∃ t', t = c :: t' ∧ wildcard p t' = true := by
  rw [wildcard.eq_def]
  simp only [if_neg hstar]
  cases t with
  | nil => simp
  | cons x t =>
    simp only [Bool.and_eq_true, Bool.or_eq_true, decide_eq_true_eq, hone, false_or,
      List.cons.injEq]
    constructor
    · intro ⟨heq, hrest⟩
      exact ⟨t, ⟨heq.symm, rfl⟩, hrest⟩
    · intro ⟨t', ⟨heq, ht⟩, hrest⟩
      exact ⟨heq.symm, ht ▸ hrest⟩

theorem wildcard_plain (h : ∀ c ∈ p, ¬ (c = '*' ∨ c = '?')) : wildcard p t = true ↔ p = t := by
  induction p generalizing t with
  | nil => cases t <;> simp [wildcard]
  | cons c p ih =>
    have hc := not_or.mp (h c List.mem_cons_self)
    rw [wildcard_literal hc.1 hc.2]
    constructor
    · intro ⟨t', ht, hrest⟩
      rw [ht, (ih fun d hd => h d (List.mem_cons_of_mem c hd)).mp hrest]
    · intro heq
      exact ⟨p, heq.symm, (ih fun d hd => h d (List.mem_cons_of_mem c hd)).mpr rfl⟩

theorem wildcard_run (hp : ∀ c ∈ p, ¬ (c = '*' ∨ c = '?')) (hq : ∀ c ∈ q, ¬ (c = '*' ∨ c = '?')) :
    wildcard (p ++ '*' :: q) t = true ↔ ∃ r, t = p ++ r ++ q := by
  induction p generalizing t with
  | nil =>
    rw [List.nil_append, wildcard_star]
    constructor
    · intro ⟨rest, ⟨r, hr⟩, hrest⟩
      exact ⟨r, by rw [← hr, (wildcard_plain hq).mp hrest]; rfl⟩
    · intro ⟨r, hr⟩
      exact ⟨q, ⟨r, hr.symm⟩, (wildcard_plain hq).mpr rfl⟩
  | cons c p ih =>
    have hc := not_or.mp (hp c List.mem_cons_self)
    have ih' := fun t => ih (t := t) fun d hd => hp d (List.mem_cons_of_mem c hd)
    rw [List.cons_append, wildcard_literal hc.1 hc.2]
    constructor
    · intro ⟨t', ht, hrest⟩
      obtain ⟨r, hr⟩ := (ih' t').mp hrest
      exact ⟨r, by rw [ht, hr]; rfl⟩
    · intro ⟨r, hr⟩
      exact ⟨p ++ r ++ q, hr, (ih' _).mpr ⟨r, rfl⟩⟩

def Glob.wildcards : Glob where
  Matches p t := wildcard p t = true
  IsMeta c := c = '*' ∨ c = '?'
  star := .inl rfl
  plain := wildcard_plain
  run := wildcard_run

end Argunix.Lib
