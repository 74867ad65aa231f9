import Mathlib.Tactic.IntervalCases

/-!
# Base64

The standard alphabet with padding: three bytes are four characters, and the last group is filled
up with `=`. `decode_encode` is the round trip. `length_encode` and `plain_of_mem_encode` are
what a wire format needs to know of an encoded text: how long it is, and that it is plain.
-/

set_option autoImplicit false

namespace Argunix.Lib.Base64

/-- The character of a value below 64. -/
def digit (n : ℕ) : Char :=
  if n < 26 then Char.ofNat (65 + n)
  else if n < 52 then Char.ofNat (71 + n)
  else if n < 62 then Char.ofNat (n - 4)
  else if n = 62 then '+'
  else '/'

def value (c : Char) : Option ℕ :=
  let n := c.toNat
  if 65 ≤ n ∧ n ≤ 90 then some (n - 65)
  else if 97 ≤ n ∧ n ≤ 122 then some (n - 71)
  else if 48 ≤ n ∧ n ≤ 57 then some (n + 4)
  else if c = '+' then some 62
  else if c = '/' then some 63
  else none

/-- Four characters for three bytes. -/
def encode : List UInt8 → List Char
  | [] => []
  | [a] => [digit (a.toNat / 4), digit (a.toNat % 4 * 16), '=', '=']
  | [a, b] =>
    [digit (a.toNat / 4), digit (a.toNat % 4 * 16 + b.toNat / 16), digit (b.toNat % 16 * 4), '=']
  | a :: b :: c :: rest =>
    digit (a.toNat / 4) :: digit (a.toNat % 4 * 16 + b.toNat / 16) ::
      digit (b.toNat % 16 * 4 + c.toNat / 64) :: digit (c.toNat % 64) :: encode rest

/-- The padding is only in the last group, and the bits it stands for are zero. -/
def decode : List Char → Option (List UInt8)
  | [] => some []
  | [c₁, c₂, '=', '='] => do
    let v₁ ← value c₁
    let v₂ ← value c₂
    if v₂ % 16 = 0 then some [UInt8.ofNat (v₁ * 4 + v₂ / 16)] else none
  | [c₁, c₂, c₃, '='] => do
    let v₁ ← value c₁
    let v₂ ← value c₂
    let v₃ ← value c₃
    if v₃ % 4 = 0 then
      some [UInt8.ofNat (v₁ * 4 + v₂ / 16), UInt8.ofNat (v₂ % 16 * 16 + v₃ / 4)]
    else none
  | c₁ :: c₂ :: c₃ :: c₄ :: rest => do
    let v₁ ← value c₁
    let v₂ ← value c₂
    let v₃ ← value c₃
    let v₄ ← value c₄
    let bytes ← decode rest
    some (UInt8.ofNat (v₁ * 4 + v₂ / 16) :: UInt8.ofNat (v₂ % 16 * 16 + v₃ / 4) ::
      UInt8.ofNat (v₃ % 4 * 64 + v₄) :: bytes)
  | _ => none

/-! ## Characters -/

theorem value_digit {n : ℕ} (h : n < 64) : value (digit n) = some n := by
  interval_cases n <;> rfl

theorem digit_ne_pad (n : ℕ) : digit n ≠ '=' := by
  intro h
  by_cases hn : n < 64
  · have hvalue := value_digit hn
    rw [h] at hvalue
    cases hvalue
  · have hslash : digit n = '/' := by
      unfold digit
      rw [if_neg (by omega), if_neg (by omega), if_neg (by omega), if_neg (by omega)]
    rw [hslash] at h
    cases h

/-- A character that is written as itself, in one byte. -/
def Plain (c : Char) : Prop := 43 ≤ c.toNat ∧ c.toNat < 123 ∧ c.toNat ≠ 92

instance (c : Char) : Decidable (Plain c) := inferInstanceAs (Decidable (_ ∧ _))

theorem plain_digit (n : ℕ) : Plain (digit n) := by
  by_cases hn : n < 64
  · interval_cases n <;> decide
  · unfold digit
    rw [if_neg (by omega), if_neg (by omega), if_neg (by omega), if_neg (by omega)]
    decide

/-! ## Texts -/

theorem decode_cons {c₁ c₂ c₃ c₄ : Char} {rest : List Char} (h₃ : c₃ ≠ '=') (h₄ : c₄ ≠ '=') :
    decode (c₁ :: c₂ :: c₃ :: c₄ :: rest) = (do
      let v₁ ← value c₁
      let v₂ ← value c₂
      let v₃ ← value c₃
      let v₄ ← value c₄
      let bytes ← decode rest
      some (UInt8.ofNat (v₁ * 4 + v₂ / 16) :: UInt8.ofNat (v₂ % 16 * 16 + v₃ / 4) ::
        UInt8.ofNat (v₃ % 4 * 64 + v₄) :: bytes)) := by
  rw [decode]
  · intro h
    exact absurd h h₃
  · intro h
    exact absurd h h₄

/-- **What was encoded is decoded.** -/
theorem decode_encode (bytes : List UInt8) : decode (encode bytes) = some bytes := by
  have hlt : ∀ b : UInt8, b.toNat < 256 := fun b => b.toNat_lt
  have hbyte : ∀ (b : UInt8) (n : ℕ), n = b.toNat → UInt8.ofNat n = b := by
    intro b n h
    rw [h, UInt8.ofNat_toNat]
  induction bytes using encode.induct with
  | case1 => rfl
  | case2 a =>
    have ha := hlt a
    rw [encode, decode, value_digit (by omega), value_digit (by omega)]
    show (if _ then _ else _) = _
    rw [if_pos (by omega), hbyte a _ (by omega)]
  | case3 a b =>
    have ha := hlt a
    have hb := hlt b
    rw [encode, decode, value_digit (by omega), value_digit (by omega), value_digit (by omega)]
    · show (if _ then _ else _) = _
      rw [if_pos (by omega), hbyte a _ (by omega), hbyte b _ (by omega)]
    · exact digit_ne_pad _
  | case4 a b c rest ih =>
    have ha := hlt a
    have hb := hlt b
    have hc := hlt c
    rw [encode, decode_cons (digit_ne_pad _) (digit_ne_pad _), value_digit (by omega),
      value_digit (by omega), value_digit (by omega), value_digit (by omega), ih]
    show some _ = _
    rw [hbyte a _ (by omega), hbyte b _ (by omega), hbyte c _ (by omega)]

theorem length_encode (bytes : List UInt8) :
    (encode bytes).length = (bytes.length + 2) / 3 * 4 := by
  induction bytes using encode.induct with
  | case1 => rfl
  | case2 a => simp [encode]
  | case3 a b => simp [encode]
  | case4 a b c rest ih =>
    simp only [encode, List.length_cons, ih]
    omega

theorem plain_of_mem_encode {bytes : List UInt8} {c : Char} (h : c ∈ encode bytes) : Plain c := by
  have hpad : Plain '=' := by decide
  induction bytes using encode.induct with
  | case1 => cases h
  | case2 a =>
    simp only [encode, List.mem_cons, List.not_mem_nil, or_false] at h
    rcases h with rfl | rfl | rfl | rfl
    · exact plain_digit _
    · exact plain_digit _
    · exact hpad
    · exact hpad
  | case3 a b =>
    simp only [encode, List.mem_cons, List.not_mem_nil, or_false] at h
    rcases h with rfl | rfl | rfl | rfl
    · exact plain_digit _
    · exact plain_digit _
    · exact plain_digit _
    · exact hpad
  | case4 a b c' rest ih =>
    simp only [encode, List.mem_cons] at h
    rcases h with rfl | rfl | rfl | rfl | h
    · exact plain_digit _
    · exact plain_digit _
    · exact plain_digit _
    · exact plain_digit _
    · exact ih h

end Argunix.Lib.Base64
