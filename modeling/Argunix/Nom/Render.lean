import Argunix.Nom.Parser

/-!
# The stored log

`render_storage_line` puts a line of build output under its label and takes the ANSI escapes out of
it. `strip_ansi` walks over bytes: it skips what an ESC introduces, and copies the runs in between,
each of which it takes for UTF-8 (`expect`). A sequence of the long forms ends at an ASCII byte, so
that a run begins with a character. An ESC that introduces neither takes one more *byte* with it,
**and if a longer character stands there, its other bytes are left over and the next run is none**.

The machine looks at codes below 0x80 only, so it is written once, over bytes and over characters
(`skipEscape`). `stripLoop_eq` compares the two: as long as every ESC that it meets is followed by
an ASCII character the bytes are those of the text that `strip` leaves, and otherwise it panics.
Hence the condition in `strips_iff`; the comment in the source overlooks the one-byte form.
-/

set_option autoImplicit false

namespace Argunix.Nom

open Argunix.Lib
open Argunix.Forge (utf8)

/-! ## Skipping an escape -/

section

variable {α : Type} (code : α → ℕ)

/-- `ESC [ <params...> <final byte in 0x40..=0x7E>`, from the parameters on. -/
def skipCsi : List α → List α
  | [] => []
  | c :: rest => if 0x40 ≤ code c ∧ code c ≤ 0x7e then rest else skipCsi rest

/-- `ESC ] ... BEL` or `ESC ] ... ESC \`, from what follows the bracket on. -/
def skipOsc : List α → List α
  | [] => []
  | c :: rest =>
    if code c = 0x07 then rest
    else if code c = 0x1b ∧ rest.head?.map code = some 0x5c then rest.tail
    else skipOsc rest

/-- What is left behind an ESC. -/
def skipEscape : List α → List α
  | [] => []
  | c :: rest =>
    if code c = 0x5b then skipCsi code rest
    else if code c = 0x5d then skipOsc code rest
    else rest

theorem length_skipCsi (s : List α) : (skipCsi code s).length ≤ s.length := by
  induction s with
  | nil => exact Nat.le_refl _
  | cons c rest ih =>
    rw [skipCsi, List.length_cons]
    split <;> omega

theorem length_skipOsc (s : List α) : (skipOsc code s).length ≤ s.length := by
  induction s with
  | nil => exact Nat.le_refl _
  | cons c rest ih =>
    rw [skipOsc, List.length_cons]
    split
    · omega
    · split
      · rw [List.length_tail]
        omega
      · omega

theorem length_skipEscape (s : List α) : (skipEscape code s).length ≤ s.length := by
  cases s with
  | nil => exact Nat.le_refl _
  | cons c rest =>
    have hcsi := length_skipCsi code rest
    have hosc := length_skipOsc code rest
    rw [skipEscape, List.length_cons]
    split
    · omega
    · split <;> omega

end

/-! ## Rendering -/

/-- `out.push_str(from_utf8(kept).expect(..))`, if the run is not empty. `none` is the panic. -/
def flush (out : String) (kept : List UInt8) : Option String :=
  if kept = [] then some out
  else (String.fromUTF8? ⟨kept.toArray⟩).map (out ++ ·)

/-- The loop. `kept` is the run since the last escape. -/
def stripLoop (out : String) (kept : List UInt8) : List UInt8 → Option String
  | [] => flush out kept
  | b :: rest =>
    if b.toNat ≠ 0x1b then stripLoop out (kept ++ [b]) rest
    else (flush out kept).bind fun out => stripLoop out [] (skipEscape UInt8.toNat rest)
termination_by bytes => bytes.length
decreasing_by
  · simp
  · exact Nat.lt_succ_of_le (length_skipEscape UInt8.toNat rest)

/-- The escape character. -/
def esc : Char := '\x1b'

/-- `strip_ansi`, with the panic. -/
def stripAnsi (s : String) : Option String :=
  if esc ∉ s.toList then some s else stripLoop "" [] (utf8 s)

/-- `none` is a panic, `some none` an event that is not stored. -/
def renderStorageLine : NomEvent → Option (Option String)
  | .line _ label text => (stripAnsi text).map fun t => some (label ++ "> " ++ t)
  | .message _ text => some (some text)
  | .raw text => some (some text)
  | .actStart .. | .actStop _ | .progress .. => some none

/-- `append_log_event`: the buffer and whether it was truncated. -/
def appendLogEvent (logBuf : List UInt8) (ev : NomEvent) (cap : ℕ) (logTruncated : Bool) :
    Option (List UInt8 × Bool) :=
  (renderStorageLine ev).map fun line =>
    match line with
    | none => (logBuf, logTruncated)
    | some line =>
      if cap ≤ logBuf.length then (logBuf, true)
      else (logBuf ++ utf8 line ++ [NomParser.newline], logTruncated)

/-! ## What stripping is to do -/

/-- The last character of a CSI sequence. -/
def IsFinal (c : Char) : Prop := 0x40 ≤ c.toNat ∧ c.toNat ≤ 0x7e

/-- The character that ends an operating system command. -/
def bel : Char := '\x07'

/-- A sequence that ESC introduces, in front of the rest of the text. One that does not end goes on
    to the end of the text. -/
inductive Sequence : List Char → List Char → Prop
  | lone : Sequence [esc] []
  | single {c : Char} (rest : List Char) : c ≠ '[' → c ≠ ']' → Sequence [esc, c] rest
  | csi {params : List Char} {final : Char} (rest : List Char) :
    (∀ p ∈ params, ¬ IsFinal p) → IsFinal final →
      Sequence (esc :: '[' :: params ++ [final]) rest
  | csiOpen {params : List Char} : (∀ p ∈ params, ¬ IsFinal p) → Sequence (esc :: '[' :: params) []
  | oscBel {body : List Char} (rest : List Char) :
    bel ∉ body → ¬ [esc, '\\'] <:+: body → Sequence (esc :: ']' :: body ++ [bel]) rest
  | oscSt {body : List Char} (rest : List Char) :
    bel ∉ body → ¬ [esc, '\\'] <:+: body → Sequence (esc :: ']' :: body ++ [esc, '\\']) rest
  | oscOpen {body : List Char} :
    bel ∉ body → ¬ [esc, '\\'] <:+: body → Sequence (esc :: ']' :: body) []

/-- The second text is the first without its escape sequences, and nothing else is missing. -/
inductive Deleted : List Char → List Char → Prop
  | nil : Deleted [] []
  | keep {c : Char} {s t : List Char} : c ≠ esc → Deleted s t → Deleted (c :: s) (c :: t)
  | escape {sequence s t : List Char} :
    Sequence sequence s → Deleted s t → Deleted (sequence ++ s) t

/-- What is wanted of a line. -/
structure Cleaned (s t : String) : Prop where
  noEscape : esc ∉ t.toList
  deleted : Deleted s.toList t.toList
  unchanged : esc ∉ s.toList → t = s
  idempotent : stripAnsi t = some t

/-- Stripping is total and clean. -/
def Strips (s : String) : Prop := ∃ t, stripAnsi s = some t ∧ Cleaned s t

/-- Storing the event does not panic, whatever was stored before. -/
def Stored (ev : NomEvent) : Prop :=
  ∀ logBuf cap logTruncated, (appendLogEvent logBuf ev cap logTruncated).isSome

/-- The text without its escape sequences. -/
def strip : List Char → List Char
  | [] => []
  | c :: cs => if c ≠ esc then c :: strip cs else strip (skipEscape Char.toNat cs)
termination_by cs => cs.length
decreasing_by
  · simp
  · exact Nat.lt_succ_of_le (length_skipEscape Char.toNat cs)

/-- **Behind every ESC that introduces a sequence stands an ASCII character**, or nothing. -/
def AsciiEscapes : List Char → Prop
  | [] => True
  | c :: cs =>
    if c ≠ esc then AsciiEscapes cs
    else (∀ d ∈ cs.head?, d.toNat < 0x80) ∧ AsciiEscapes (skipEscape Char.toNat cs)
termination_by cs => cs.length
decreasing_by
  · simp
  · exact Nat.lt_succ_of_le (length_skipEscape Char.toNat cs)

/-! ## Bytes and characters -/

section

variable {cs : List Char} {c : Char}

theorem skipCsi_high {w : List UInt8} (hw : ∀ b ∈ w, 0x80 ≤ b.toNat) (s : List UInt8) :
    skipCsi UInt8.toNat (w ++ s) = skipCsi UInt8.toNat s := by
  induction w with
  | nil => rfl
  | cons b w ih =>
    have hb := hw b List.mem_cons_self
    rw [List.cons_append, skipCsi, if_neg (by omega),
      ih fun b' hb' => hw b' (List.mem_cons_of_mem b hb')]

theorem skipOsc_high {w : List UInt8} (hw : ∀ b ∈ w, 0x80 ≤ b.toNat) (s : List UInt8) :
    skipOsc UInt8.toNat (w ++ s) = skipOsc UInt8.toNat s := by
  induction w with
  | nil => rfl
  | cons b w ih =>
    have hb := hw b List.mem_cons_self
    rw [List.cons_append, skipOsc, if_neg (by omega), if_neg (by omega),
      ih fun b' hb' => hw b' (List.mem_cons_of_mem b hb')]

theorem skipCsi_encode (cs : List Char) :
    skipCsi UInt8.toNat (encode cs) = encode (skipCsi Char.toNat cs) := by
  induction cs with
  | nil => rfl
  | cons c cs ih =>
    by_cases hc : c.toNat < 0x80
    · rw [encode_cons, utf8EncodeChar_of_ascii hc, List.singleton_append, skipCsi, skipCsi,
        toNat_ofNat_ascii hc, ih]
      split <;> rfl
    · rw [encode_cons, skipCsi_high fun b => high_of_mem_utf8EncodeChar (Nat.not_lt.mp hc), ih,
        skipCsi, if_neg (by omega)]

/-- An ASCII character stands in front of a text if its byte stands in front of the bytes. -/
theorem head_encode (cs : List Char) {n : ℕ} (hn : n < 0x80) :
    (encode cs).head?.map UInt8.toNat = some n ↔ cs.head?.map Char.toNat = some n := by
  cases cs with
  | nil => rfl
  | cons c cs =>
    by_cases hc : c.toNat < 0x80
    · rw [encode_cons, utf8EncodeChar_of_ascii hc, List.singleton_append, List.head?_cons,
        Option.map_some, toNat_ofNat_ascii hc, List.head?_cons, Option.map_some]
    · obtain ⟨a, b, rest, heq, ha, -⟩ := utf8EncodeChar_of_not_ascii (Nat.not_lt.mp hc)
      rw [encode_cons, heq, List.cons_append, List.head?_cons, List.head?_cons, Option.map_some,
        Option.map_some, Option.some_inj, Option.some_inj]
      omega

theorem tail_encode (h : ∀ d ∈ cs.head?, d.toNat < 0x80) : (encode cs).tail = encode cs.tail := by
  cases cs with
  | nil => rfl
  | cons c cs =>
    rw [encode_cons, utf8EncodeChar_of_ascii (h c rfl)]
    rfl

theorem skipOsc_encode (cs : List Char) :
    skipOsc UInt8.toNat (encode cs) = encode (skipOsc Char.toNat cs) := by
  induction cs with
  | nil => rfl
  | cons c cs ih =>
    by_cases hc : c.toNat < 0x80
    · rw [encode_cons, utf8EncodeChar_of_ascii hc, List.singleton_append, skipOsc, skipOsc,
        toNat_ofNat_ascii hc, ih]
      split
      · rfl
      · have hhead := head_encode cs (n := 0x5c) (by decide)
        by_cases hst : c.toNat = 0x1b ∧ cs.head?.map Char.toNat = some 0x5c
        · rw [if_pos hst, if_pos ⟨hst.1, hhead.mpr hst.2⟩]
          refine tail_encode fun d hd => ?_
          have hd' := hst.2
          rw [Option.mem_def.mp hd, Option.map_some, Option.some_inj] at hd'
          omega
        · rw [if_neg hst, if_neg fun h => hst ⟨h.1, hhead.mp h.2⟩]
    · rw [encode_cons, skipOsc_high fun b => high_of_mem_utf8EncodeChar (Nat.not_lt.mp hc), ih,
        skipOsc, if_neg (by omega), if_neg (by omega)]

/-- **Behind an ASCII character the bytes that are left are those of the text that is left.** -/
theorem skipEscape_encode (h : ∀ d ∈ cs.head?, d.toNat < 0x80) :
    skipEscape UInt8.toNat (encode cs) = encode (skipEscape Char.toNat cs) := by
  cases cs with
  | nil => rfl
  | cons c cs =>
    have hc := h c rfl
    rw [encode_cons, utf8EncodeChar_of_ascii hc, List.singleton_append, skipEscape, skipEscape,
      toNat_ofNat_ascii hc, skipCsi_encode, skipOsc_encode]
    split
    · rfl
    · split <;> rfl

/-- Otherwise they begin in the middle of a character. -/
theorem skipEscape_high (hc : 0x80 ≤ c.toNat) (cs : List Char) :
    ∃ b rest, skipEscape UInt8.toNat (encode (c :: cs)) = b :: rest ∧ isContinuation b = true := by
  obtain ⟨a, b, rest, heq, ha, hrest⟩ := utf8EncodeChar_of_not_ascii hc
  refine ⟨b, rest ++ encode cs, ?_, hrest b List.mem_cons_self⟩
  rw [encode_cons, heq, List.cons_append, skipEscape, if_neg (by omega), if_neg (by omega)]
  rfl

end

/-! ## The loop -/

theorem flush_encode (out : String) (ks : List Char) :
    flush out (encode ks) = some (out ++ String.ofList ks) := by
  rw [flush, fromUTF8_encode]
  split
  · rename_i hnil
    cases ks with
    | nil => simp
    | cons c ks =>
      rw [encode_cons] at hnil
      exact absurd (List.append_eq_nil_iff.mp hnil).1 String.utf8EncodeChar_ne_nil
  · rfl

theorem toNat_ne_esc {c : Char} (h : c ≠ esc) : c.toNat ≠ 0x1b := by
  intro heq
  exact h (Char.toNat_inj.mp (heq.trans (by decide)))

theorem stripLoop_run {w : List UInt8} (hw : ∀ b ∈ w, b.toNat ≠ 0x1b) (out : String)
    (kept s : List UInt8) : stripLoop out kept (w ++ s) = stripLoop out (kept ++ w) s := by
  induction w generalizing kept with
  | nil => rw [List.nil_append, List.append_nil]
  | cons b w ih =>
    rw [List.cons_append, stripLoop, if_pos (hw b List.mem_cons_self),
      ih fun b' hb' => hw b' (List.mem_cons_of_mem b hb'), List.append_assoc]
    rfl

theorem esc_notMem_utf8EncodeChar {c : Char} (h : c ≠ esc) :
    ∀ b ∈ String.utf8EncodeChar c, b.toNat ≠ 0x1b := by
  intro b hb
  by_cases hc : c.toNat < 0x80
  · rw [utf8EncodeChar_of_ascii hc] at hb
    rw [List.mem_singleton.mp hb, toNat_ofNat_ascii hc]
    exact toNat_ne_esc h
  · have := high_of_mem_utf8EncodeChar (Nat.not_lt.mp hc) hb
    omega

/-- A run that begins in the middle of a character is never copied. -/
theorem stripLoop_of_isContinuation {b : UInt8} (hb : isContinuation b = true) (out : String)
    (kept s : List UInt8) : stripLoop out (b :: kept) s = none := by
  have hflush : ∀ kept, flush out (b :: kept) = none := by
    intro kept
    rw [flush, if_neg (List.cons_ne_nil b kept), fromUTF8_of_isContinuation hb]
    rfl
  induction s generalizing kept with
  | nil => rw [stripLoop, hflush]
  | cons d s ih =>
    rw [stripLoop]
    split
    · exact ih (kept ++ [d])
    · rw [hflush]
      rfl

/-- **What the loop makes of a text**, behind a run of characters. -/
theorem stripLoop_eq (cs : List Char) (out : String) (ks : List Char) :
    (AsciiEscapes cs →
      stripLoop out (encode ks) (encode cs) = some (out ++ String.ofList (ks ++ strip cs))) ∧
    (¬ AsciiEscapes cs → stripLoop out (encode ks) (encode cs) = none) := by
  induction hn : cs.length using Nat.strongRecOn generalizing cs out ks with
  | _ n ih =>
    cases cs with
    | nil =>
      rw [AsciiEscapes, encode_nil, stripLoop, flush_encode, strip, List.append_nil]
      exact ⟨fun _ => rfl, fun h => absurd trivial h⟩
    | cons c cs =>
      rw [AsciiEscapes, strip]
      by_cases hc : c = esc
      · subst hc
        have hbyte : encode (esc :: cs) = 0x1b :: encode cs := rfl
        rw [if_neg (by simp), if_neg (by simp), hbyte, stripLoop, if_neg (by decide),
          flush_encode, Option.bind_some]
        by_cases hhead : ∀ d ∈ cs.head?, d.toNat < 0x80
        · have hlen := length_skipEscape Char.toNat cs
          have := ih (skipEscape Char.toNat cs).length
            (by rw [← hn, List.length_cons]; omega) (skipEscape Char.toNat cs)
            (out ++ String.ofList ks) [] rfl
          rw [encode_nil, List.nil_append] at this
          rw [skipEscape_encode hhead, String.ofList_append, ← String.append_assoc]
          exact ⟨fun h => this.1 h.2, fun h => this.2 fun h' => h ⟨hhead, h'⟩⟩
        · refine ⟨fun h => absurd h.1 hhead, fun _ => ?_⟩
          cases cs with
          | nil => exact absurd (fun d hd => absurd hd (by simp)) hhead
          | cons d cs =>
            have hd : 0x80 ≤ d.toNat := by
              refine Nat.not_lt.mp fun hlt => hhead fun e he => ?_
              obtain rfl := Option.some.inj (Option.mem_def.mp he)
              exact hlt
            obtain ⟨b, rest, heq, hb⟩ := skipEscape_high hd cs
            have hne : b.toNat ≠ 0x1b := by
              rw [isContinuation, Bool.and_eq_true, decide_eq_true_eq] at hb
              omega
            rw [heq, stripLoop, if_pos hne]
            exact stripLoop_of_isContinuation hb _ [] rest
      · have hkept : encode ks ++ String.utf8EncodeChar c = encode (ks ++ [c]) := by
          rw [encode_append, encode_cons, encode_nil, List.append_nil]
        have := ih cs.length (by rw [← hn, List.length_cons]; omega) cs out (ks ++ [c]) rfl
        rw [if_pos hc, if_pos hc, encode_cons, stripLoop_run (esc_notMem_utf8EncodeChar hc), hkept]
        rwa [List.append_assoc] at this

/-! ## What is left of a text -/

theorem skipCsi_cases (cs : List Char) :
    ∃ params, (∀ p ∈ params, ¬ IsFinal p) ∧
      ((∃ final, IsFinal final ∧ cs = params ++ final :: skipCsi Char.toNat cs) ∨
        (cs = params ∧ skipCsi Char.toNat cs = [])) := by
  induction cs with
  | nil => exact ⟨[], fun p hp => absurd hp List.not_mem_nil, .inr ⟨rfl, rfl⟩⟩
  | cons c cs ih =>
    rw [skipCsi]
    by_cases hc : 0x40 ≤ c.toNat ∧ c.toNat ≤ 0x7e
    · rw [if_pos hc]
      exact ⟨[], fun p hp => absurd hp List.not_mem_nil, .inl ⟨c, hc, rfl⟩⟩
    · rw [if_neg hc]
      obtain ⟨params, hparams, hends⟩ := ih
      refine ⟨c :: params, List.forall_mem_cons.mpr ⟨hc, hparams⟩, ?_⟩
      rcases hends with ⟨final, hfinal, heq⟩ | ⟨heq, hnil⟩
      · exact .inl ⟨final, hfinal, congrArg (c :: ·) heq⟩
      · exact .inr ⟨congrArg (c :: ·) heq, hnil⟩

theorem toNat_eq_iff {c : Char} {n : ℕ} {d : Char} (hd : d.toNat = n) : c.toNat = n ↔ c = d := by
  rw [← hd, Char.toNat_inj]

/-- Nothing in the body ends the sequence. -/
def IsBody (body : List Char) : Prop := bel ∉ body ∧ ¬ [esc, '\\'] <:+: body

theorem IsBody.nil : IsBody [] := ⟨List.not_mem_nil, by simp⟩

theorem IsBody.cons {c : Char} {body : List Char} (h : IsBody body) (hbel : c ≠ bel)
    (hst : ¬ (c = esc ∧ body.head? = some '\\')) : IsBody (c :: body) := by
  refine ⟨List.not_mem_cons_of_ne_of_not_mem hbel.symm h.1, ?_⟩
  intro hinfix
  rcases List.infix_cons_iff.mp hinfix with hprefix | hinfix
  · obtain ⟨hesc, hprefix⟩ := List.cons_prefix_cons.mp hprefix
    obtain ⟨rest, rfl⟩ := hprefix
    exact hst ⟨hesc.symm, rfl⟩
  · exact h.2 hinfix

theorem skipOsc_cases (cs : List Char) :
    ∃ body, IsBody body ∧
      (cs = body ++ bel :: skipOsc Char.toNat cs ∨
        cs = body ++ esc :: '\\' :: skipOsc Char.toNat cs ∨
        (cs = body ∧ skipOsc Char.toNat cs = [])) := by
  induction cs with
  | nil => exact ⟨[], .nil, .inr (.inr ⟨rfl, rfl⟩)⟩
  | cons c cs ih =>
    rw [skipOsc]
    by_cases hbel : c.toNat = 0x07
    · rw [if_pos hbel, (toNat_eq_iff (d := bel) (by decide)).mp hbel]
      exact ⟨[], .nil, .inl rfl⟩
    · rw [if_neg hbel]
      by_cases hst : c.toNat = 0x1b ∧ cs.head?.map Char.toNat = some 0x5c
      · rw [if_pos hst]
        obtain ⟨d, hd, hcode⟩ := Option.map_eq_some_iff.mp hst.2
        obtain ⟨rest, rfl⟩ := List.head?_eq_some_iff.mp hd
        rw [(toNat_eq_iff (d := esc) (by decide)).mp hst.1,
          (toNat_eq_iff (d := '\\') (by decide)).mp hcode]
        exact ⟨[], .nil, .inr (.inl rfl)⟩
      · rw [if_neg hst]
        obtain ⟨body, hbody, hends⟩ := ih
        -- what the body begins with the text begins with
        have hhead : body.head? = some '\\' → cs.head? = some '\\' := by
          intro h
          obtain ⟨rest, rfl⟩ := List.head?_eq_some_iff.mp h
          rcases hends with heq | heq | ⟨heq, -⟩ <;> rw [heq] <;> rfl
        have hcons : IsBody (c :: body) := by
          refine hbody.cons (fun heq => hbel (heq ▸ by decide)) fun h => hst ?_
          exact ⟨h.1 ▸ by decide, by rw [hhead h.2]; decide⟩
        refine ⟨c :: body, hcons, ?_⟩
        rcases hends with heq | heq | ⟨heq, hnil⟩
        · exact .inl (congrArg (c :: ·) heq)
        · exact .inr (.inl (congrArg (c :: ·) heq))
        · exact .inr (.inr ⟨congrArg (c :: ·) heq, hnil⟩)

/-- **What is skipped is a sequence.** -/
theorem exists_sequence (cs : List Char) :
    ∃ sequence, esc :: cs = sequence ++ skipEscape Char.toNat cs ∧
      Sequence sequence (skipEscape Char.toNat cs) := by
  cases cs with
  | nil => exact ⟨[esc], rfl, .lone⟩
  | cons c cs =>
    have hopen : c.toNat = 0x5b ↔ c = '[' := toNat_eq_iff (by decide)
    have hclose : c.toNat = 0x5d ↔ c = ']' := toNat_eq_iff (by decide)
    rw [skipEscape]
    by_cases hcsi : c.toNat = 0x5b
    · rw [if_pos hcsi, hopen.mp hcsi]
      obtain ⟨params, hparams, ⟨final, hfinal, heq⟩ | ⟨heq, hnil⟩⟩ := skipCsi_cases cs
      · refine ⟨esc :: '[' :: params ++ [final], ?_, .csi _ hparams hfinal⟩
        conv_lhs => rw [heq]
        simp
      · rw [hnil]
        exact ⟨esc :: '[' :: params, by rw [heq, List.append_nil], .csiOpen hparams⟩
    · rw [if_neg hcsi]
      by_cases hosc : c.toNat = 0x5d
      · rw [if_pos hosc, hclose.mp hosc]
        obtain ⟨body, hbody, heq | heq | ⟨heq, hnil⟩⟩ := skipOsc_cases cs
        · refine ⟨esc :: ']' :: body ++ [bel], ?_, .oscBel _ hbody.1 hbody.2⟩
          conv_lhs => rw [heq]
          simp
        · refine ⟨esc :: ']' :: body ++ [esc, '\\'], ?_, .oscSt _ hbody.1 hbody.2⟩
          conv_lhs => rw [heq]
          simp
        · rw [hnil]
          exact ⟨esc :: ']' :: body, by rw [heq, List.append_nil], .oscOpen hbody.1 hbody.2⟩
      · rw [if_neg hosc]
        exact ⟨[esc, c], rfl, .single cs (mt hopen.mpr hcsi) (mt hclose.mpr hosc)⟩

theorem deleted_strip (cs : List Char) : Deleted cs (strip cs) := by
  fun_induction strip cs with
  | case1 => exact .nil
  | case2 c cs hc ih => exact .keep hc ih
  | case3 c cs hc ih =>
    obtain rfl := not_not.mp hc
    obtain ⟨sequence, heq, hseq⟩ := exists_sequence cs
    rw [heq]
    exact .escape hseq ih

theorem esc_notMem_strip (cs : List Char) : esc ∉ strip cs := by
  fun_induction strip cs with
  | case1 => exact List.not_mem_nil
  | case2 c cs hc ih => exact List.not_mem_cons_of_ne_of_not_mem (Ne.symm hc) ih
  | case3 c cs hc ih => exact ih

/-- A text without an ESC is all left, and nothing stands behind an ESC. -/
theorem of_esc_notMem {cs : List Char} (h : esc ∉ cs) : strip cs = cs ∧ AsciiEscapes cs := by
  induction cs with
  | nil => exact ⟨by rw [strip], by rw [AsciiEscapes]; trivial⟩
  | cons c cs ih =>
    have hc : c ≠ esc := fun heq => h (heq ▸ List.mem_cons_self)
    obtain ⟨hstrip, hascii⟩ := ih fun hmem => h (List.mem_cons_of_mem c hmem)
    rw [strip, if_pos hc, hstrip, AsciiEscapes, if_pos hc]
    exact ⟨rfl, hascii⟩

/-- **When `strip_ansi` returns, and what.** -/
theorem stripAnsi_eq (s : String) :
    (AsciiEscapes s.toList → stripAnsi s = some (String.ofList (strip s.toList))) ∧
      (¬ AsciiEscapes s.toList → stripAnsi s = none) := by
  have hbytes : utf8 s = encode s.toList := by
    rw [← toUTF8_ofList, String.ofList_toList]
    rfl
  have hloop := stripLoop_eq s.toList "" []
  rw [encode_nil, String.empty_append, List.nil_append] at hloop
  unfold stripAnsi
  split
  · rename_i hplain
    obtain ⟨hstrip, hascii⟩ := of_esc_notMem hplain
    rw [hstrip, String.ofList_toList]
    exact ⟨fun _ => rfl, fun h => absurd hascii h⟩
  · rw [hbytes]
    exact hloop

theorem stripAnsi_of_esc_notMem {s : String} (h : esc ∉ s.toList) : stripAnsi s = some s :=
  if_pos h

theorem strips_iff_ascii (s : String) : Strips s ↔ AsciiEscapes s.toList := by
  constructor
  · intro ⟨t, ht, _⟩
    by_contra hnot
    rw [(stripAnsi_eq s).2 hnot] at ht
    exact absurd ht (by simp)
  · intro hascii
    have hnone : esc ∉ (String.ofList (strip s.toList)).toList := by
      rw [String.toList_ofList]
      exact esc_notMem_strip s.toList
    refine ⟨_, (stripAnsi_eq s).1 hascii, hnone, ?_, ?_, stripAnsi_of_esc_notMem hnone⟩
    · rw [String.toList_ofList]
      exact deleted_strip s.toList
    · intro hplain
      rw [(of_esc_notMem hplain).1, String.ofList_toList]

/-- Only a line of build output is stripped. -/
theorem stored_iff_ascii (ev : NomEvent) :
    Stored ev ↔ ∀ activity label text, ev = .line activity label text →
      AsciiEscapes text.toList := by
  have hstored : Stored ev ↔ (renderStorageLine ev).isSome := by
    simp only [Stored, appendLogEvent, Option.isSome_map]
    exact ⟨fun h => h [] 0 false, fun h _ _ _ => h⟩
  rw [hstored]
  cases ev with
  | line activity label text =>
    rw [renderStorageLine, Option.isSome_map]
    constructor
    · intro hsome activity' label' text' heq
      obtain ⟨rfl, rfl, rfl⟩ := NomEvent.line.inj heq
      by_contra hnot
      rw [(stripAnsi_eq text).2 hnot] at hsome
      exact absurd hsome (by simp)
    · intro h
      rw [(stripAnsi_eq text).1 (h activity label text rfl)]
      rfl
  | message | raw | actStart | actStop | progress =>
    exact ⟨fun _ _ _ _ heq => NomEvent.noConfusion heq, fun _ => rfl⟩

/-- **Stripping is total and clean exactly where every ESC is followed by an ASCII character**, and
    an event is stored without a panic exactly where that holds of its text. -/
theorem strips_iff (s : String) (ev : NomEvent) :
    (Strips s ↔ AsciiEscapes s.toList) ∧
      (Stored ev ↔ ∀ activity label text, ev = .line activity label text →
        AsciiEscapes text.toList) :=
  ⟨strips_iff_ascii s, stored_iff_ascii ev⟩

/-- The message of a builder that prints an ESC and an accented letter. -/
def accentMessage : String :=
  "\x7b\"action\":\"result\",\"id\":7,\"type\":101,\"fields\":[\"\\u001b\u00e9\"]\x7d"

/-- `serde_json` at this message. -/
def readAccent (json : String) : Option Json :=
  if json = accentMessage then
    some (.obj [("action", .str "result"), ("id", .int 7), ("type", .int 101),
      ("fields", .arr [.str "\u001b\u00e9"])])
  else none

/-- **An ESC in front of an accented letter panics**, in a line that a builder's log can produce. -/
theorem not_strips_accent :
    ¬ Strips "\u001b\u00e9" ∧
      ∃ ev ∈ NomParser.events readAccent [utf8 ("@nix " ++ accentMessage)], ¬ Stored ev := by
  have hnot : ¬ AsciiEscapes "\u001b\u00e9".toList := by
    intro h
    have hchars : "\u001b\u00e9".toList = [esc, '\u00e9'] := by decide
    rw [hchars, AsciiEscapes, if_neg (by simp)] at h
    exact absurd (h.1 '\u00e9' rfl) (by decide)
  refine ⟨fun h => hnot ((strips_iff_ascii _).mp h), .line 7 "build" "\u001b\u00e9", ?_,
    fun h => hnot ((stored_iff_ascii _).mp h 7 "build" _ rfl)⟩
  decide +kernel

end Argunix.Nom
