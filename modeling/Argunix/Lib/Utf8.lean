import Mathlib.Data.List.Infix

/-!
# Bytes that are read as text, whatever they are

`fromUtf8Lossy` reads bytes as UTF-8 and puts a replacement character for what is none: one for
each byte that cannot begin a character, and one for each beginning of a character that does not go
on. It is total. What it says about ASCII is what the bytes say (`prefix_fromUtf8Lossy_iff`), since
no byte of a longer character, and no replacement, is ASCII.

The last section is about the other way, from text to bytes. A character is either one byte, below
0x80, or a first byte and continuations, none of them below 0x80. Bytes that begin with a
continuation are no text (`fromUTF8_of_isContinuation`).
-/

set_option autoImplicit false

namespace Argunix.Lib

/-- U+FFFD -/
def replacement : Char := Char.ofNat 0xFFFD

/-- `10xxxxxx` -/
def isContinuation (b : UInt8) : Bool := 0x80 ≤ b.toNat && b.toNat ≤ 0xBF

/-- What the second byte of three may be: no overlong forms and no surrogates. -/
def isSecondOfThree (a b : UInt8) : Bool :=
  if a.toNat = 0xE0 then 0xA0 ≤ b.toNat && b.toNat ≤ 0xBF
  else if a.toNat = 0xED then 0x80 ≤ b.toNat && b.toNat ≤ 0x9F
  else isContinuation b

/-- What the second byte of four may be: nothing overlong, and nothing above U+10FFFF. -/
def isSecondOfFour (a b : UInt8) : Bool :=
  if a.toNat = 0xF0 then 0x90 ≤ b.toNat && b.toNat ≤ 0xBF
  else if a.toNat = 0xF4 then 0x80 ≤ b.toNat && b.toNat ≤ 0x8F
  else isContinuation b

/-- The six bits of a continuation. -/
def bits (b : UInt8) : ℕ := b.toNat - 0x80

theorem bits_eq (b : UInt8) : bits b = b.toNat - 0x80 := rfl

/-- The first character, given its first byte, and the bytes behind it. -/
def lossyStep (a : UInt8) (rest : List UInt8) : Char × List UInt8 :=
  if a.toNat < 0x80 then (Char.ofNat a.toNat, rest)
  else if 0xC2 ≤ a.toNat ∧ a.toNat ≤ 0xDF then
    match rest with
    | b :: rest₁ =>
      if isContinuation b then (Char.ofNat ((a.toNat - 0xC0) * 64 + bits b), rest₁)
      else (replacement, rest)
    | [] => (replacement, rest)
  else if 0xE0 ≤ a.toNat ∧ a.toNat ≤ 0xEF then
    match rest with
    | b :: rest₁ =>
      if isSecondOfThree a b then
        match rest₁ with
        | c :: rest₂ =>
          if isContinuation c then
            (Char.ofNat ((a.toNat - 0xE0) * 4096 + bits b * 64 + bits c), rest₂)
          else (replacement, rest₁)
        | [] => (replacement, rest₁)
      else (replacement, rest)
    | [] => (replacement, rest)
  else if 0xF0 ≤ a.toNat ∧ a.toNat ≤ 0xF4 then
    match rest with
    | b :: rest₁ =>
      if isSecondOfFour a b then
        match rest₁ with
        | c :: rest₂ =>
          if isContinuation c then
            match rest₂ with
            | d :: rest₃ =>
              if isContinuation d then
                (Char.ofNat ((a.toNat - 0xF0) * 262144 + bits b * 4096 + bits c * 64 + bits d),
                  rest₃)
              else (replacement, rest₂)
            | [] => (replacement, rest₂)
          else (replacement, rest₁)
        | [] => (replacement, rest₁)
      else (replacement, rest)
    | [] => (replacement, rest)
  else (replacement, rest)

theorem le_toNat_ofNat {k n : ℕ} (hk : k ≤ n) (hn : n < 0xD800 ∨ (0xDFFF < n ∧ n < 0x110000)) :
    k ≤ (Char.ofNat n).toNat := by
  have hvalid : n.isValidChar := hn
  rw [Char.ofNat, dif_pos hvalid]
  exact hk

theorem of_isSecondOfThree {a b : UInt8} (h : isSecondOfThree a b = true) :
    0x80 ≤ b.toNat ∧ b.toNat ≤ 0xBF ∧ (a.toNat = 0xE0 → 0xA0 ≤ b.toNat) ∧
      (a.toNat = 0xED → b.toNat ≤ 0x9F) := by
  unfold isSecondOfThree at h
  split at h
  · simp only [Bool.and_eq_true, decide_eq_true_eq] at h
    omega
  · split at h
    · simp only [Bool.and_eq_true, decide_eq_true_eq] at h
      omega
    · simp only [isContinuation, Bool.and_eq_true, decide_eq_true_eq] at h
      omega

theorem of_isSecondOfFour {a b : UInt8} (h : isSecondOfFour a b = true) :
    0x80 ≤ b.toNat ∧ b.toNat ≤ 0xBF ∧ (a.toNat = 0xF0 → 0x90 ≤ b.toNat) ∧
      (a.toNat = 0xF4 → b.toNat ≤ 0x8F) := by
  unfold isSecondOfFour at h
  split at h
  · simp only [Bool.and_eq_true, decide_eq_true_eq] at h
    omega
  · split at h
    · simp only [Bool.and_eq_true, decide_eq_true_eq] at h
      omega
    · simp only [isContinuation, Bool.and_eq_true, decide_eq_true_eq] at h
      omega

/-- **A first byte that is not ASCII makes no ASCII character**, read alone or with the bytes that
    go with it. -/
theorem not_ascii_lossyStep {a : UInt8} (ha : 0x80 ≤ a.toNat) (rest : List UInt8) :
    0x80 ≤ (lossyStep a rest).1.toNat := by
  have hreplacement : 0x80 ≤ replacement.toNat := by decide
  fun_cases lossyStep a rest
  case case1 hascii => exact absurd hascii (Nat.not_lt.mpr ha)
  case case2 _ htwo b rest₁ hb =>
    simp only [isContinuation, Bool.and_eq_true, decide_eq_true_eq] at hb
    have hbits := bits_eq b
    dsimp only
    exact le_toNat_ofNat (by omega) (by omega)
  case case5 _ _ hthree b hb c rest₁ hc =>
    simp only [isContinuation, Bool.and_eq_true, decide_eq_true_eq] at hc
    have hb' := of_isSecondOfThree hb
    have hbits := bits_eq b
    have hbits₁ := bits_eq c
    dsimp only
    exact le_toNat_ofNat (by omega) (by omega)
  case case10 _ _ _ hfour b hb c hc d rest₁ hd =>
    simp only [isContinuation, Bool.and_eq_true, decide_eq_true_eq] at hc hd
    have hb' := of_isSecondOfFour hb
    have hbits := bits_eq b
    have hbits₁ := bits_eq c
    have hbits₂ := bits_eq d
    dsimp only
    exact le_toNat_ofNat (by omega) (by omega)
  all_goals exact hreplacement

theorem length_lossyStep (a : UInt8) (rest : List UInt8) :
    (lossyStep a rest).2.length ≤ rest.length := by
  fun_cases lossyStep a rest <;> simp only [List.length_cons, List.length_nil] <;> omega

/-- `String::from_utf8_lossy` -/
def fromUtf8Lossy : List UInt8 → List Char
  | [] => []
  | a :: rest => (lossyStep a rest).1 :: fromUtf8Lossy (lossyStep a rest).2
termination_by s => s.length
decreasing_by
  have := length_lossyStep a rest
  simp only [List.length_cons]
  omega

/-- The character of an ASCII byte. -/
def ascii (b : UInt8) : Char := Char.ofNat b.toNat

theorem toNat_ascii {b : UInt8} (h : b.toNat < 0x80) : (ascii b).toNat = b.toNat := by
  have hvalid : b.toNat.isValidChar := .inl (by omega)
  rw [ascii, Char.ofNat, dif_pos hvalid]
  rfl

theorem ascii_inj {a b : UInt8} (ha : a.toNat < 0x80) (hb : b.toNat < 0x80)
    (h : ascii a = ascii b) : a = b := by
  have hnat := congrArg Char.toNat h
  rw [toNat_ascii ha, toNat_ascii hb] at hnat
  exact UInt8.toNat_inj.mp hnat

theorem fromUtf8Lossy_of_ascii {a : UInt8} (ha : a.toNat < 0x80) (rest : List UInt8) :
    fromUtf8Lossy (a :: rest) = ascii a :: fromUtf8Lossy rest := by
  have hstep : lossyStep a rest = (ascii a, rest) := by
    unfold lossyStep
    exact if_pos ha
  rw [fromUtf8Lossy, hstep]

/-- **What the text begins with in ASCII the bytes begin with**, and the other way round. -/
theorem prefix_fromUtf8Lossy_iff {p : List UInt8} (hp : ∀ b ∈ p, b.toNat < 0x80)
    (s : List UInt8) : p.map ascii <+: fromUtf8Lossy s ↔ p <+: s := by
  induction p generalizing s with
  | nil => simp
  | cons b p ih =>
    have hb := hp b List.mem_cons_self
    cases s with
    | nil =>
      rw [fromUtf8Lossy]
      simp
    | cons a rest =>
      by_cases ha : a.toNat < 0x80
      · rw [fromUtf8Lossy_of_ascii ha, List.map_cons, List.cons_prefix_cons, List.cons_prefix_cons,
          ih (fun c hc => hp c (List.mem_cons_of_mem b hc))]
        exact and_congr_left fun _ => ⟨ascii_inj hb ha, congrArg ascii⟩
      · -- neither the character nor the byte is ASCII
        have hhead := not_ascii_lossyStep (Nat.not_lt.mp ha) rest
        rw [fromUtf8Lossy, List.map_cons, List.cons_prefix_cons, List.cons_prefix_cons]
        constructor
        · intro ⟨heq, _⟩
          rw [← heq, toNat_ascii hb] at hhead
          exact absurd hb (Nat.not_lt.mpr hhead)
        · intro ⟨heq, _⟩
          exact absurd (heq ▸ hb) ha

/-! ## The bytes of a text -/

def encode (cs : List Char) : List UInt8 := cs.flatMap String.utf8EncodeChar

@[simp]
theorem encode_nil : encode [] = [] := rfl

@[simp]
theorem encode_cons (c : Char) (cs : List Char) :
    encode (c :: cs) = String.utf8EncodeChar c ++ encode cs := rfl

theorem encode_append (cs cs' : List Char) : encode (cs ++ cs') = encode cs ++ encode cs' :=
  List.flatMap_append

theorem toUTF8_ofList (cs : List Char) : (String.ofList cs).toUTF8.data.toList = encode cs := by
  simp [encode, List.utf8Encode]

/-- **What was encoded is read back.** -/
theorem fromUTF8_encode (cs : List Char) :
    String.fromUTF8? ⟨(encode cs).toArray⟩ = some (String.ofList cs) := by
  have hbytes : (⟨(encode cs).toArray⟩ : ByteArray) = (String.ofList cs).toUTF8 := by
    rw [← toUTF8_ofList]
  rw [hbytes]
  exact dif_pos (String.ofList cs).isValidUTF8

theorem utf8EncodeChar_of_ascii {c : Char} (h : c.toNat < 0x80) :
    String.utf8EncodeChar c = [UInt8.ofNat c.toNat] := by
  have hsize : c.utf8Size = 1 := by
    rw [Char.utf8Size_eq_one_iff, UInt32.le_iff_toNat_le]
    exact Nat.le_of_lt_succ h
  rw [String.utf8EncodeChar_eq_singleton hsize]
  rfl

theorem toNat_ofNat_ascii {c : Char} (h : c.toNat < 0x80) :
    (UInt8.ofNat c.toNat).toNat = c.toNat := by
  rw [UInt8.toNat_ofNat']
  exact Nat.mod_eq_of_lt (Nat.lt_trans h (by decide))

/-- A longer character is a first byte and at least one continuation. -/
theorem utf8EncodeChar_of_not_ascii {c : Char} (h : 0x80 ≤ c.toNat) :
    ∃ a b rest, String.utf8EncodeChar c = a :: b :: rest ∧ 0x80 ≤ a.toNat ∧
      ∀ d ∈ b :: rest, isContinuation d = true := by
  have hascii : ¬ c.val.toNat ≤ 0x7f := Nat.not_le.mpr (Nat.lt_of_lt_of_le (by decide) h)
  have hlow : ∀ n, isContinuation (UInt8.ofNat (n % 64 + 0x80)) = true := by
    intro n
    rw [isContinuation, UInt8.toNat_ofNat', Bool.and_eq_true, decide_eq_true_eq, decide_eq_true_eq]
    omega
  unfold String.utf8EncodeChar
  dsimp only
  rw [if_neg hascii]
  split
  · refine ⟨_, _, _, rfl, ?_, ?_⟩
    · rw [UInt8.toNat_ofNat']
      omega
    · simp only [List.forall_mem_cons, List.not_mem_nil, false_imp_iff, implies_true, hlow,
        and_self]
  · split
    · refine ⟨_, _, _, rfl, ?_, ?_⟩
      · rw [UInt8.toNat_ofNat']
        omega
      · simp only [List.forall_mem_cons, List.not_mem_nil, false_imp_iff, implies_true, hlow,
        and_self]
    · refine ⟨_, _, _, rfl, ?_, ?_⟩
      · rw [UInt8.toNat_ofNat']
        omega
      · simp only [List.forall_mem_cons, List.not_mem_nil, false_imp_iff, implies_true, hlow,
        and_self]

/-- No byte of a longer character is ASCII. -/
theorem high_of_mem_utf8EncodeChar {c : Char} (h : 0x80 ≤ c.toNat) {b : UInt8}
    (hb : b ∈ String.utf8EncodeChar c) : 0x80 ≤ b.toNat := by
  obtain ⟨a, b', rest, heq, ha, hrest⟩ := utf8EncodeChar_of_not_ascii h
  rw [heq] at hb
  rcases List.mem_cons.mp hb with rfl | hb
  · exact ha
  · have hcont := hrest b hb
    rw [isContinuation, Bool.and_eq_true, decide_eq_true_eq] at hcont
    exact hcont.1

theorem not_isUTF8FirstByte {b : UInt8} (h : isContinuation b = true) : ¬ b.IsUTF8FirstByte := by
  have hall : ∀ n : Fin 64, ¬ (UInt8.ofNat (n.val + 0x80)).IsUTF8FirstByte := by decide +kernel
  rw [isContinuation, Bool.and_eq_true, decide_eq_true_eq, decide_eq_true_eq] at h
  have hb : b = UInt8.ofNat (b.toNat - 0x80 + 0x80) := by
    rw [Nat.sub_add_cancel h.1, UInt8.ofNat_toNat]
  rw [hb]
  exact hall ⟨b.toNat - 0x80, by omega⟩

/-- **Bytes that begin with a continuation are no text.** -/
theorem fromUTF8_of_isContinuation {b : UInt8} (h : isContinuation b = true)
    (rest : List UInt8) : String.fromUTF8? ⟨(b :: rest).toArray⟩ = none := by
  rw [String.fromUTF8?, dif_neg]
  intro hvalid
  exact not_isUTF8FirstByte h (hvalid.isUTF8FirstByte_getElem_zero (by simp [ByteArray.size]))

end Argunix.Lib
