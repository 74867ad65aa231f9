import Mathlib.Data.Nat.Digits.Defs
import Mathlib.Data.List.Basic

/-!
# JSON, written down

The compact text of a value, as bytes: no blanks and no line breaks between the tokens. In a string
the quote, the backslash and the control characters are escaped and every other byte stands for
itself, so **the text of a value is one line** (`newline_not_mem_object`).
-/

set_option autoImplicit false

namespace Argunix.Lib.JsonText

/-- A text as it is sent. -/
abbrev Bytes := List UInt8

/-- The bytes of a string, in UTF-8. -/
def utf8 (s : String) : Bytes := s.toUTF8.data.toList

/-- A hexadecimal digit in lower case. -/
def hexDigit (n : ℕ) : UInt8 := UInt8.ofNat (if n < 10 then 48 + n else 87 + n)

/-- One byte of a string. -/
def escape (b : UInt8) : Bytes :=
  if b = 34 then [92, 34]
  else if b = 92 then [92, 92]
  else if b = 8 then [92, 98]
  else if b = 9 then [92, 116]
  else if b = 10 then [92, 110]
  else if b = 12 then [92, 102]
  else if b = 13 then [92, 114]
  else if b < 32 then [92, 117, 48, 48, hexDigit (b.toNat / 16), hexDigit (b.toNat % 16)]
  else [b]

/-- A string in its quotes. -/
def string (s : Bytes) : Bytes := 34 :: s.flatMap escape ++ [34]

/-- A natural number in decimal. -/
def nat (n : ℕ) : Bytes := (Nat.toDigits 10 n).map fun c => UInt8.ofNat c.toNat

/-- A number with its sign. -/
def int (n : ℤ) : Bytes := if n < 0 then 45 :: nat n.natAbs else nat n.natAbs

/-- The value that is none. -/
def null : Bytes := utf8 "null"

/-- A truth value. -/
def bool (b : Bool) : Bytes := utf8 (if b then "true" else "false")

/-- An `Option`: `None` is `null`. -/
def option {α : Type} (write : α → Bytes) : Option α → Bytes
  | none => null
  | some a => write a

/-- Values with commas between them. -/
def array (vs : List Bytes) : Bytes := 91 :: List.intercalate [44] vs ++ [93]

/-- A name and its value. -/
def member (m : String × Bytes) : Bytes := string (utf8 m.1) ++ 58 :: m.2

/-- Members with commas between them. -/
def object (ms : List (String × Bytes)) : Bytes :=
  123 :: List.intercalate [44] (ms.map member) ++ [125]

/-! ## One line -/

theorem newline_not_mem_escape (b : UInt8) : 10 ∉ escape b := by
  have h : ∀ n < 256, 10 ∉ escape (UInt8.ofNat n) := by decide +kernel
  have hb := h b.toNat b.toNat_lt
  rwa [UInt8.ofNat_toNat] at hb

theorem newline_not_mem_string (s : Bytes) : 10 ∉ string s := by
  intro h
  rcases List.mem_cons.mp h with h | h
  · exact absurd h (by decide)
  rcases List.mem_append.mp h with h | h
  · obtain ⟨b, -, hb⟩ := List.mem_flatMap.mp h
    exact newline_not_mem_escape b hb
  · exact absurd (List.mem_singleton.mp h) (by decide)

theorem newline_not_mem_nat (n : ℕ) : 10 ∉ nat n := by
  intro h
  obtain ⟨c, hc, heq⟩ := List.mem_map.mp h
  have hdigit := Nat.isDigit_of_mem_toDigits (by decide) (by decide) hc
  simp only [Char.isDigit, Bool.and_eq_true, decide_eq_true_eq] at hdigit
  have hlow : 48 ≤ c.toNat := hdigit.1
  have hhigh : c.toNat ≤ 57 := hdigit.2
  have := congrArg UInt8.toNat heq
  rw [UInt8.toNat_ofNat_of_lt' (Nat.lt_of_le_of_lt hhigh (by decide))] at this
  have hten : (10 : UInt8).toNat = 10 := rfl
  omega

theorem newline_not_mem_int (n : ℤ) : 10 ∉ int n := by
  unfold int
  split
  · intro h
    rcases List.mem_cons.mp h with h | h
    · exact absurd h (by decide)
    · exact newline_not_mem_nat _ h
  · exact newline_not_mem_nat _

theorem newline_not_mem_null : 10 ∉ null := by decide

theorem newline_not_mem_bool (b : Bool) : 10 ∉ bool b := by
  cases b <;> decide

theorem newline_not_mem_option {α : Type} {write : α → Bytes} (h : ∀ a, 10 ∉ write a)
    (o : Option α) : 10 ∉ option write o := by
  cases o with
  | none => exact newline_not_mem_null
  | some a => exact h a

theorem newline_not_mem_intercalate {vs : List Bytes} (h : ∀ v ∈ vs, 10 ∉ v) :
    10 ∉ List.intercalate [44] vs := by
  induction vs with
  | nil => exact List.not_mem_nil
  | cons v vs ih =>
    cases vs with
    | nil => simpa [List.intercalate] using h v
    | cons v' vs =>
      rw [List.intercalate_cons_cons]
      intro hm
      rcases List.mem_append.mp hm with hm | hm
      · rcases List.mem_append.mp hm with hm | hm
        · exact h v List.mem_cons_self hm
        · exact absurd (List.mem_singleton.mp hm) (by decide)
      · exact ih (fun w hw => h w (List.mem_cons_of_mem v hw)) hm

theorem newline_not_mem_bracketed {vs : List Bytes} {opening closing : UInt8}
    (h : ∀ v ∈ vs, 10 ∉ v) (ho : 10 ≠ opening) (hc : 10 ≠ closing) :
    10 ∉ opening :: List.intercalate [44] vs ++ [closing] := by
  intro hm
  rcases List.mem_cons.mp hm with hm | hm
  · exact ho hm
  rcases List.mem_append.mp hm with hm | hm
  · exact newline_not_mem_intercalate h hm
  · exact hc (List.mem_singleton.mp hm)

theorem newline_not_mem_array {vs : List Bytes} (h : ∀ v ∈ vs, 10 ∉ v) : 10 ∉ array vs :=
  newline_not_mem_bracketed h (by decide) (by decide)

/-- **The text of an object is one line** if the text of each member is. -/
theorem newline_not_mem_object {ms : List (String × Bytes)} (h : ∀ m ∈ ms, 10 ∉ m.2) :
    10 ∉ object ms := by
  refine newline_not_mem_bracketed (fun v hv => ?_) (by decide) (by decide)
  obtain ⟨m, hm, rfl⟩ := List.mem_map.mp hv
  intro hmem
  rcases List.mem_append.mp hmem with hmem | hmem
  · exact newline_not_mem_string _ hmem
  rcases List.mem_cons.mp hmem with hmem | hmem
  · exact absurd hmem (by decide)
  · exact h m hm hmem

theorem object_ne_nil (ms : List (String × Bytes)) : object ms ≠ [] := List.cons_ne_nil _ _

/-! ## How long a text is -/

/-- A text of characters that take one byte each. -/
theorem utf8_ofList {cs : List Char} (h : ∀ c ∈ cs, c.toNat < 128) :
    utf8 (String.ofList cs) = cs.map fun c => UInt8.ofNat c.toNat := by
  have hbytes : utf8 (String.ofList cs) = cs.flatMap String.utf8EncodeChar := by
    simp [utf8, List.utf8Encode]
  rw [hbytes, List.map_eq_flatMap]
  refine List.flatMap_congr fun c hc => ?_
  have hsize : c.utf8Size = 1 := by
    rw [Char.utf8Size_eq_one_iff, UInt32.le_iff_toNat_le]
    exact Nat.le_of_lt_succ (h c hc)
  rw [String.utf8EncodeChar_eq_singleton hsize]
  rfl

theorem escape_of_plain {b : UInt8} (h : 43 ≤ b.toNat) (h' : b.toNat ≠ 92) : escape b = [b] := by
  have hne : ∀ n : UInt8, n.toNat < 43 ∨ n.toNat = 92 → b ≠ n := by
    intro n hn heq
    subst heq
    omega
  have hlt : ¬ b < 32 := by
    rw [UInt8.lt_iff_toNat_lt]
    exact Nat.not_lt.mpr (Nat.le_trans (by decide) h)
  unfold escape
  rw [if_neg (hne 34 (by decide)), if_neg (hne 92 (by decide)), if_neg (hne 8 (by decide)),
    if_neg (hne 9 (by decide)), if_neg (hne 10 (by decide)), if_neg (hne 12 (by decide)),
    if_neg (hne 13 (by decide)), if_neg hlt]

/-- **A string that needs no escapes is two bytes longer in JSON.** -/
theorem length_string {s : Bytes} (h : ∀ b ∈ s, escape b = [b]) :
    (string s).length = s.length + 2 := by
  have hsame : s.flatMap escape = s := by
    rw [List.flatMap_congr h]
    exact List.flatMap_singleton' s
  rw [string, hsame, List.length_append, List.length_cons, List.length_singleton]

theorem length_nat_le {n k : ℕ} (hk : 0 < k) (h : n < 10 ^ k) : (nat n).length ≤ k := by
  rw [nat, List.length_map]
  exact Nat.toDigits_length 10 n k hk h

theorem length_int_le {n : ℤ} {k : ℕ} (hk : 0 < k) (h : n.natAbs < 10 ^ k) :
    (int n).length ≤ k + 1 := by
  have hdigits := length_nat_le hk h
  unfold int
  split
  · rw [List.length_cons]
    omega
  · omega

theorem length_option_le {α : Type} {write : α → Bytes} {n : ℕ} (hn : 4 ≤ n)
    (h : ∀ a, (write a).length ≤ n) (o : Option α) : (option write o).length ≤ n := by
  cases o with
  | none =>
    have hnull : null.length = 4 := by decide
    exact hnull.trans_le hn
  | some a => exact h a

theorem length_intercalate {vs : List Bytes} (h : vs ≠ []) :
    (List.intercalate [44] vs).length + 1 = (vs.map fun v => v.length + 1).sum := by
  induction vs with
  | nil => exact absurd rfl h
  | cons v vs ih =>
    cases vs with
    | nil => simp [List.intercalate]
    | cons v' vs =>
      have hrest := ih (List.cons_ne_nil _ _)
      rw [List.intercalate_cons_cons, List.map_cons, List.sum_cons, ← hrest, List.length_append,
        List.length_append, List.length_singleton]
      omega

/-- **The text of an object**, from its keys and the texts of its values. -/
theorem length_object {ms : List (String × Bytes)} (h : ms ≠ []) :
    (object ms).length =
      (ms.map fun m => (string (utf8 m.1)).length + m.2.length + 2).sum + 1 := by
  have hlen := length_intercalate (show ms.map member ≠ [] by simpa using h)
  have hmember : ∀ m : String × Bytes,
      (member m).length + 1 = (string (utf8 m.1)).length + m.2.length + 2 := by
    intro m
    rw [member, List.length_append, List.length_cons]
    omega
  rw [List.map_map] at hlen
  simp only [Function.comp_def, hmember] at hlen
  rw [object, List.length_append, List.length_cons, List.length_singleton, ← hlen]

end Argunix.Lib.JsonText
