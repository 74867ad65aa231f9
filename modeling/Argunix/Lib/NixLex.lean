import Mathlib.Data.List.TakeWhile
import Mathlib.Tactic.Tauto

/-!
# The lexer of the Nix language

A text is cut into tokens from left to right, always the longest that fits. Three lexemes contain
others: a URI and a path begin with what alone would be an identifier or a number, so they are
tried first, and only then the shorter ones. A double quote and a dollar sign with a brace change
the rules, until the matching quote or brace changes them back; `modes` is the stack of what is
open.

Indented strings and paths with an interpolation are left out: the lexer gives up on them.

Text that is made of pieces is lexed piece by piece. `Lexes` is a run of the lexer over a piece,
runs compose (`Lexes.trans`), and a run over all of the text is the lexer's answer
(`lex_of_lexes`). `Reads` is such a run whatever comes after the piece. There is one rule for each
kind of piece: `Reads.word`, `Reads.path`, `Reads.quoted`, and `Reads.fixed` for fixed text, which
is lexed by computation.
-/

set_option autoImplicit false

namespace Argunix.Lib.Nix

/-! ## Tokens -/

/-- The reserved words. -/
inductive Keyword
  | ifKw
  | thenKw
  | elseKw
  | assertKw
  | withKw
  | letKw
  | inKw
  | recKw
  | inheritKw
  | orKw
deriving DecidableEq, Repr

/-- How they are spelled. -/
def Keyword.words : List (String × Keyword) :=
  [("if", ifKw), ("then", thenKw), ("else", elseKw), ("assert", assertKw), ("with", withKw),
    ("let", letKw), ("in", inKw), ("rec", recKw), ("inherit", inheritKw), ("or", orKw)]

/-- The keyword a word is, if it is one. -/
def Keyword.ofList (w : List Char) : Option Keyword :=
  (words.find? fun k => k.1.toList = w).map Prod.snd

theorem Keyword.ofList_eq_none {s : String} :
    ofList s.toList = none ↔ s ∉ words.map Prod.fst := by
  simp only [ofList, Option.map_eq_none_iff, List.find?_eq_none, decide_eq_true_eq, List.mem_map,
    not_exists, not_and, String.toList_inj]

/-- What the lexer yields. -/
inductive Token
  | ident (name : String)
  | keyword (word : Keyword)
  | number (text : String)
  | path (text : String)
  | spath (text : String)
  | hpath (text : String)
  | uri (text : String)
  | op (text : String)
  | punct (c : Char)
  | dquote
  | str (value : String)
  | dollarCurly
deriving DecidableEq, Repr

/-! ## Lexemes

Each function gives the length of the longest lexeme of its kind at the start of the text, and `0`
if there is none. -/

/-- An identifier starts with a letter or an underscore. -/
def idStart (c : Char) : Bool := c.isAlpha || c = '_'

/-- It goes on with these; 39 is the apostrophe. -/
def idChar (c : Char) : Bool := c.isAlphanum || c = '_' || c = Char.ofNat 39 || c = '-'

/-- What a piece of a path is made of. -/
def pathChar (c : Char) : Bool := c.isAlphanum || c = '.' || c = '_' || c = '-' || c = '+'

/-- What the scheme of a URI is made of. -/
def schemeChar (c : Char) : Bool := c.isAlphanum || c = '+' || c = '-' || c = '.'

/-- What follows the colon of a URI. -/
def uriChar (c : Char) : Bool :=
  c.isAlphanum || c ∈ "%/?:@&=+$,-_.!~*".toList || c = Char.ofNat 39

/-- `[a-zA-Z\_][a-zA-Z0-9\_\'\-]*` -/
def idLen : List Char → ℕ
  | [] => 0
  | c :: cs => if idStart c then 1 + (cs.takeWhile idChar).length else 0

/-- `[0-9]+` -/
def intLen (cs : List Char) : ℕ := (cs.takeWhile Char.isDigit).length

/-- `([Ee][+-]?[0-9]+)?` -/
def exponentLen : List Char → ℕ
  | e :: s :: cs =>
    if e ≠ 'e' ∧ e ≠ 'E' then 0
    else if s = '+' ∨ s = '-' then (if intLen cs = 0 then 0 else 2 + intLen cs)
    else if intLen (s :: cs) = 0 then 0
    else 1 + intLen (s :: cs)
  | _ => 0

/-- `(([1-9][0-9]*\.[0-9]*)|(0?\.[0-9]+))([Ee][+-]?[0-9]+)?` -/
def floatLen (cs : List Char) : ℕ :=
  let digits := cs.takeWhile Char.isDigit
  match cs.dropWhile Char.isDigit with
  | '.' :: rest =>
    let n := digits.length + 1 + intLen rest
    if digits.head?.any (· ≠ '0') ∨ (digits.length ≤ 1 ∧ 0 < intLen rest) then
      n + exponentLen (cs.drop n)
    else 0
  | _ => 0

/-- `[a-zA-Z][a-zA-Z0-9\+\-\.]*\:[a-zA-Z0-9\%\/\?\:\@\&\=\+\$\,\-\_\.\!\~\*\']+` -/
def uriLen : List Char → ℕ
  | [] => 0
  | c :: cs =>
    if c.isAlpha then
      match cs.dropWhile schemeChar with
      | ':' :: rest =>
        let n := (rest.takeWhile uriChar).length
        if n = 0 then 0 else 1 + (cs.takeWhile schemeChar).length + 1 + n
      | _ => 0
    else 0

/-- `(PATH_CHAR | \/PATH_CHAR)*\/?`; the flag says that the last character was a slash. -/
def segments : Bool → List Char → ℕ
  | _, [] => 0
  | slash, c :: cs =>
    if pathChar c then 1 + segments false cs
    else if c = '/' ∧ slash = false then 1 + segments true cs
    else 0

/-- `{PATH_CHAR}*(\/{PATH_CHAR}+)+\/?` -/
def pathLen (cs : List Char) : ℕ :=
  match cs.dropWhile pathChar with
  | '/' :: c :: rest =>
    if pathChar c then (cs.takeWhile pathChar).length + 2 + segments false rest else 0
  | _ => 0

/-- `\~(\/{PATH_CHAR}+)+\/?` -/
def hpathLen : List Char → ℕ
  | '~' :: '/' :: cs => if pathLen ('/' :: cs) = 0 then 0 else 1 + pathLen ('/' :: cs)
  | _ => 0

/-- `\<{PATH_CHAR}+(\/{PATH_CHAR}+)*\>` -/
def spathLen : List Char → ℕ
  | '<' :: cs =>
    let word := cs.takeWhile fun c => pathChar c || c = '/'
    match cs.drop word.length with
    | '>' :: _ => if (word.splitOn '/').all (· ≠ []) then word.length + 2 else 0
    | _ => 0
  | _ => 0

/-- `\#[^\r\n]*` -/
def lineCommentLen : List Char → ℕ
  | '#' :: cs => 1 + (cs.takeWhile fun c => c ≠ '\r' ∧ c ≠ '\n').length
  | _ => 0

/-- Up to the end of a block comment. -/
def closeCommentLen : List Char → Option ℕ
  | '*' :: '/' :: _ => some 2
  | _ :: cs => (closeCommentLen cs).map (· + 1)
  | [] => none

/-- The length of the comment that starts here; one that is not closed is none. -/
def blockCommentLen : List Char → ℕ
  | '/' :: '*' :: cs => ((closeCommentLen cs).map (· + 2)).getD 0
  | _ => 0

/-- The operators of more than one character. -/
def operators : List (List Char) :=
  ["...".toList, "==".toList, "!=".toList, "<=".toList, ">=".toList, "&&".toList, "||".toList,
    "->".toList, "//".toList, "++".toList]

/-- The length of the operator that starts here. -/
def opLen (cs : List Char) : ℕ := ((operators.find? (·.isPrefixOf cs)).map List.length).getD 0

/-- A piece of a string: up to its end, or to an interpolation. -/
def strPiece : List Char → List Char
  | '\\' :: c :: cs => '\\' :: c :: strPiece cs
  | '$' :: '{' :: _ => []
  | '$' :: '"' :: _ => ['$']
  | '$' :: '\\' :: c :: cs => '$' :: '\\' :: c :: strPiece cs
  | ['$', '\\'] => []
  | '$' :: c :: cs => '$' :: c :: strPiece cs
  | ['$'] => []
  | ['\\'] => []
  | '"' :: _ => []
  | c :: cs => c :: strPiece cs
  | [] => []

/-- What the characters of a string piece stand for. A carriage return, with or without a line
    feed, is a line feed. -/
def unescape : List Char → List Char
  | '\\' :: 'n' :: cs => '\n' :: unescape cs
  | '\\' :: 'r' :: cs => '\r' :: unescape cs
  | '\\' :: 't' :: cs => '\t' :: unescape cs
  | '\\' :: c :: cs => c :: unescape cs
  | '\r' :: '\n' :: cs => '\n' :: unescape cs
  | '\r' :: cs => '\n' :: unescape cs
  | c :: cs => c :: unescape cs
  | [] => []

/-! ## The lexer -/

/-- The start conditions of the lexer. -/
inductive Mode
  | default
  | string
deriving DecidableEq, Repr

/-- White space. -/
def blank (c : Char) : Bool := c = ' ' || c = '\t' || c = '\r' || c = '\n'

/-- A word is a keyword or an identifier. -/
def identToken (word : List Char) : Token :=
  match Keyword.ofList word with
  | some word => .keyword word
  | none => .ident (String.ofList word)

/-- A kind of lexeme: its length, and from the lexeme and what follows its token, or nothing if it
    is blank. -/
structure Rule where
  len : List Char → ℕ
  act : List Char → List Char → Option (Option Token)

/-- A rule whose lexemes all have a token. -/
def Rule.plain (len : List Char → ℕ) (token : List Char → Token) : Rule where
  len := len
  act word _ := some (some (token word))

/-- A rule whose lexemes have none. -/
def Rule.skip (len : List Char → ℕ) : Rule where
  len := len
  act _ _ := some none

/-- A slash at the end of a path is an error, an interpolation is not covered. -/
def pathRule : Rule where
  len := pathLen
  act word rest :=
    if word.getLast? = some '/' ∨ ['$', '{'].isPrefixOf rest then none
    else some (some (.path (String.ofList word)))

/-- A single character, unless it begins an indented string. -/
def punctRule : Rule where
  len cs := if cs.isEmpty then 0 else 1
  act word rest :=
    if [Char.ofNat 39, Char.ofNat 39].isPrefixOf (word ++ rest) then none
    else some (word.head?.map .punct)

theorem pathRule_act (word rest : List Char) :
    pathRule.act word rest = if word.getLast? = some '/' ∨ ['$', '{'].isPrefixOf rest then none
      else some (some (.path (String.ofList word))) := rfl

/-- The rules in their order. Of two matches of the same length the first wins. -/
def rules : List Rule :=
  [.plain uriLen fun word => .uri (String.ofList word), pathRule,
    .plain hpathLen fun word => .hpath (String.ofList word),
    .plain spathLen fun word => .spath (String.ofList word),
    .plain floatLen fun word => .number (String.ofList word), .plain idLen identToken,
    .plain intLen fun word => .number (String.ofList word), .skip lineCommentLen,
    .skip blockCommentLen, .plain opLen fun word => .op (String.ofList word),
    .skip fun cs => if cs.head?.any blank then 1 else 0, punctRule]

/-- The next lexeme outside of strings: its length, and its token. -/
def scan (cs : List Char) : Option (ℕ × Option Token) := do
  let rule ← rules.find? fun r => 0 < r.len cs
  let token ← rule.act (cs.take (rule.len cs)) (cs.drop (rule.len cs))
  some (rule.len cs, token)

/-- One step: what is left, what is open, and the token if there is one. -/
def step (modes : List Mode) (cs : List Char) : Option (List Char × List Mode × List Token) :=
  match modes.head? with
  | some .string =>
    match cs with
    | '"' :: rest => some (rest, modes.tail, [.dquote])
    | '$' :: '{' :: rest => some (rest, .default :: modes, [.dollarCurly])
    | _ =>
      if strPiece cs = [] then none
      else some (cs.drop (strPiece cs).length, modes,
        [.str (String.ofList (unescape (strPiece cs)))])
  | _ =>
    match cs with
    | '"' :: rest => some (rest, .string :: modes, [.dquote])
    | '$' :: '{' :: rest => some (rest, .default :: modes, [.dollarCurly])
    | '{' :: rest => some (rest, .default :: modes, [.punct '{'])
    | '}' :: rest => some (rest, modes.tail, [.punct '}'])
    | _ => (scan cs).map fun r => (cs.drop r.1, modes, r.2.toList)

/-- `n` bounds the number of steps. -/
def lexFrom : ℕ → List Mode → List Char → Option (List Token)
  | _, _, [] => some []
  | 0, _, _ :: _ => none
  | n + 1, modes, c :: cs => do
    let (rest, modes, ts) ← step modes (c :: cs)
    let more ← lexFrom n modes rest
    some (ts ++ more)

/-- The tokens of a text, or none if some part of it is no token. -/
def lex (cs : List Char) : Option (List Token) := lexFrom cs.length [] cs

/-! ## Runs -/

/-- A run of the lexer over the start of `cs`. -/
inductive Lexes : List Mode → List Char → List Token → List Mode → List Char → Prop
  | done {modes : List Mode} {cs : List Char} : Lexes modes cs [] modes cs
  | step {modes modes' modes'' : List Mode} {cs cs' cs'' : List Char} {ts ts' : List Token} :
    step modes cs = some (cs', modes', ts) → Lexes modes' cs' ts' modes'' cs'' →
    Lexes modes cs (ts ++ ts') modes'' cs''

variable {modes modes' modes'' : List Mode} {cs cs' cs'' rest : List Char}
  {ts ts' : List Token}

theorem Lexes.trans (h : Lexes modes cs ts modes' cs') (h' : Lexes modes' cs' ts' modes'' cs'') :
    Lexes modes cs (ts ++ ts') modes'' cs'' := by
  induction h with
  | done => exact h'
  | step hstep _ ih =>
    rw [List.append_assoc]
    exact .step hstep (ih h')

theorem Lexes.single (h : Nix.step modes cs = some (cs', modes', ts)) :
    Lexes modes cs ts modes' cs' := by
  have := Lexes.step h .done
  rwa [List.append_nil] at this

theorem step_nil (modes : List Mode) : Nix.step modes [] = none := by
  unfold Nix.step
  split <;> rfl

/-- A lexeme is not empty. -/
theorem scan_pos {n : ℕ} {t : Option Token} (h : scan cs = some (n, t)) : 0 < n := by
  simp only [scan, Option.bind_eq_bind, Option.bind_eq_some_iff] at h
  obtain ⟨rule, hrule, token, -, h⟩ := h
  obtain ⟨rfl, -⟩ := Prod.mk.inj (Option.some.inj h)
  simpa using List.find?_some hrule

/-- A step consumes something. -/
theorem length_step {c : Char} (h : Nix.step modes (c :: cs) = some (cs', modes', ts)) :
    cs'.length ≤ cs.length := by
  unfold Nix.step at h
  split at h
  · split at h
    case h_3 =>
      split at h
      · exact absurd h (by simp)
      · rename_i hpiece
        obtain ⟨rfl, -⟩ := Prod.mk.inj (Option.some.inj h)
        have := List.length_pos_iff.mpr hpiece
        rw [List.length_drop, List.length_cons]
        omega
    all_goals
      rename_i heq
      obtain ⟨-, rfl⟩ := List.cons.inj heq
      obtain ⟨rfl, -⟩ := Prod.mk.inj (Option.some.inj h)
      simp
  · split at h
    case h_5 =>
      obtain ⟨⟨n, t⟩, hscan, h⟩ := Option.map_eq_some_iff.mp h
      obtain ⟨rfl, -⟩ := Prod.mk.inj h
      have := scan_pos hscan
      rw [List.length_drop, List.length_cons]
      omega
    all_goals
      rename_i heq
      obtain ⟨-, rfl⟩ := List.cons.inj heq
      obtain ⟨rfl, -⟩ := Prod.mk.inj (Option.some.inj h)
      simp

theorem lexFrom_of_lexes (h : Lexes modes cs ts modes' cs') (hend : cs' = []) {n : ℕ}
    (hn : cs.length ≤ n) : lexFrom n modes cs = some ts := by
  induction h generalizing n with
  | done =>
    subst hend
    cases n <;> rfl
  | @step modes _ _ cs cs' _ ts ts' hstep hrun ih =>
    cases cs with
    | nil => exact absurd (step_nil modes ▸ hstep) (by simp)
    | cons c cs =>
      have hle := length_step hstep
      cases n with
      | zero => exact absurd hn (by simp)
      | succ n =>
        have := ih hend (n := n) (by simp only [List.length_cons] at hn; omega)
        simp [lexFrom, hstep, this]

/-- **A run over the whole text is the answer.** -/
theorem lex_of_lexes (h : Lexes [] cs ts modes' []) : lex cs = some ts :=
  lexFrom_of_lexes h rfl le_rfl

/-! ## Words -/

variable {w u : List Char} {c : Char}

/-- The word could be an identifier. -/
def IsIdent (w : List Char) : Bool :=
  match w with
  | [] => false
  | c :: cs => idStart c && cs.all idChar

/-- What comes after an identifier does not make it longer: not as an identifier, and not as the
    beginning of a path or of a URI. -/
def wordEnds (rest : List Char) : Bool :=
  rest.head?.all (fun c => !idChar c) &&
    match rest.dropWhile pathChar with
    | ':' :: c :: _ => !uriChar c
    | c :: _ => c ≠ '/' && c ≠ ':'
    | [] => true

theorem pathChar_of_schemeChar (h : schemeChar c = true) : pathChar c = true := by
  simp only [schemeChar, pathChar, Bool.or_eq_true, decide_eq_true_eq] at h ⊢
  tauto

theorem idChar_of_idStart (h : idStart c = true) : idChar c = true := by
  simp only [idStart, idChar, Char.isAlphanum, Bool.or_eq_true, decide_eq_true_eq] at h ⊢
  tauto

theorem not_isDigit_of_idStart (h : idStart c = true) : c.isDigit = false := by
  by_contra hd
  have halpha : c.isAlpha = (decide (c.val ≥ 'A'.val ∧ c.val ≤ 'Z'.val) ||
      (c.val ≥ 'a'.val && c.val ≤ 'z'.val)) := rfl
  simp only [idStart, halpha, Char.isDigit, Bool.or_eq_true,
    Bool.and_eq_true, decide_eq_true_eq, Bool.not_eq_false, ge_iff_le,
    UInt32.le_iff_toNat_le] at h hd
  have h9 : '9'.val.toNat = 57 := rfl
  have hA : 'A'.val.toNat = 65 := rfl
  have ha : 'a'.val.toNat = 97 := rfl
  rcases h with (h | h) | rfl
  · omega
  · omega
  · exact absurd hd (by decide)

theorem idChar_of_isIdent (h : IsIdent w = true) (hc : c ∈ w) : idChar c = true := by
  cases w with
  | nil => exact absurd hc (by simp)
  | cons d w =>
    simp only [IsIdent, Bool.and_eq_true, List.all_eq_true] at h
    rcases List.mem_cons.mp hc with rfl | hc
    · exact idChar_of_idStart h.1
    · exact h.2 c hc

/-- After some characters of an identifier: an apostrophe, or what comes after it. -/
theorem head_dropWhile_ident {p : Char → Bool} (hp : ∀ c, idChar c = true → p c = false →
    c = '_' ∨ c = Char.ofNat 39) (hw : ∀ c ∈ w, idChar c = true) :
    ((w ++ u).dropWhile p = u.dropWhile p) ∨
      ∃ c v, (w ++ u).dropWhile p = c :: v ∧ (c = '_' ∨ c = Char.ofNat 39) := by
  rw [List.dropWhile_append]
  cases hdrop : w.dropWhile p with
  | nil => exact .inl (by simp)
  | cons c v =>
    refine .inr ⟨c, v ++ u, by simp, ?_⟩
    have hmem : c ∈ w := (List.dropWhile_sublist p).subset (hdrop ▸ List.mem_cons_self ..)
    have hhead := List.head?_dropWhile_not p w
    rw [hdrop] at hhead
    exact hp c (hw c hmem) (by simpa using hhead)

theorem pathLen_eq_zero (h : ∀ c v, cs.dropWhile pathChar = c :: v → c ≠ '/') :
    pathLen cs = 0 := by
  unfold pathLen
  split
  · rename_i heq
    exact absurd rfl (h _ _ heq)
  · rfl

theorem ne_slash_of_wordEnds {v : List Char} (hu : wordEnds u = true)
    (h : u.dropWhile pathChar = c :: v) : c ≠ '/' := by
  rintro rfl
  simp only [wordEnds, h, Bool.and_eq_true] at hu
  exact absurd hu.2 (by simp)

theorem pathLen_word (hw : IsIdent w = true) (hu : wordEnds u = true) : pathLen (w ++ u) = 0 := by
  have hp : ∀ c, idChar c = true → pathChar c = false → c = '_' ∨ c = Char.ofNat 39 := by
    intro c hid hpath
    grind [idChar, pathChar]
  refine pathLen_eq_zero fun c v hdrop => ?_
  rcases head_dropWhile_ident (u := u) hp fun c => idChar_of_isIdent hw with h | ⟨d, v', h, hd⟩
  · exact ne_slash_of_wordEnds hu (h ▸ hdrop)
  · obtain ⟨rfl, -⟩ := List.cons.inj (h.symm.trans hdrop)
    rcases hd with rfl | rfl <;> decide

/-- Two runs of characters that end at the same place. -/
theorem dropWhile_of_dropWhile {p q : Char → Bool} (hpq : ∀ c, p c = true → q c = true)
    (hc : q c = false) (h : u.dropWhile p = c :: rest) : u.dropWhile q = c :: rest := by
  calc
    u.dropWhile q = (u.takeWhile p ++ c :: rest).dropWhile q := by
      rw [← h, List.takeWhile_append_dropWhile]
    _ = c :: rest := by
      rw [List.dropWhile_append_of_pos fun d hd => hpq d (List.mem_takeWhile_imp hd),
        List.dropWhile_cons_of_neg (by simp [hc])]

theorem uriLen_word (hw : IsIdent w = true) (hu : wordEnds u = true) : uriLen (w ++ u) = 0 := by
  have hp : ∀ c, idChar c = true → schemeChar c = false → c = '_' ∨ c = Char.ofNat 39 := by
    intro c hid hscheme
    grind [idChar, schemeChar]
  cases w with
  | nil => exact absurd hw (by simp [IsIdent])
  | cons c w =>
    have hw' : ∀ d ∈ w, idChar d = true := fun d hd =>
      idChar_of_isIdent hw (List.mem_cons_of_mem c hd)
    rw [List.cons_append, uriLen]
    split
    · rcases head_dropWhile_ident (u := u) hp hw' with h | ⟨d, v, h, hd⟩
      · rw [h]
        split
        · rename_i rest heq
          -- the colon that ends the scheme also ends the path characters
          have hpath := dropWhile_of_dropWhile (fun _ => pathChar_of_schemeChar) rfl heq
          simp only [wordEnds, hpath, Bool.and_eq_true] at hu
          cases rest with
          | nil => exact absurd hu.2 (by simp)
          | cons e rest =>
            have he : uriChar e = false := by simpa using hu.2
            simp [he]
        · rfl
      · rw [h]
        rcases hd with rfl | rfl <;> rfl
    · rfl

theorem idLen_word (hw : IsIdent w = true) (hu : wordEnds u = true) :
    idLen (w ++ u) = w.length := by
  simp only [wordEnds, Bool.and_eq_true] at hu
  cases w with
  | nil => exact absurd hw (by simp [IsIdent])
  | cons c w =>
    simp only [IsIdent, Bool.and_eq_true, List.all_eq_true] at hw
    have hnone : u.takeWhile idChar = [] := by
      cases u with
      | nil => rfl
      | cons d u => simpa using hu.1
    rw [List.cons_append, idLen, if_pos hw.1, List.takeWhile_append_of_pos hw.2, hnone,
      List.append_nil, List.length_cons]
    omega

theorem scan_word (hw : IsIdent w = true) (hu : wordEnds u = true) :
    scan (w ++ u) = some (w.length, some (identToken w)) := by
  have huri := uriLen_word hw hu
  have hpath := pathLen_word hw hu
  have hid := idLen_word hw hu
  have hlen : 0 < w.length := by
    cases w with
    | nil => exact absurd hw (by simp [IsIdent])
    | cons c w => simp
  have hfirst : hpathLen (w ++ u) = 0 ∧ spathLen (w ++ u) = 0 ∧ floatLen (w ++ u) = 0 := by
    cases w with
    | nil => exact absurd hw (by simp [IsIdent])
    | cons c w =>
      simp only [IsIdent, Bool.and_eq_true] at hw
      have hdigit := not_isDigit_of_idStart hw.1
      have hne : c ≠ '~' ∧ c ≠ '<' ∧ c ≠ '.' := by
        refine ⟨?_, ?_, ?_⟩ <;> rintro rfl <;> exact absurd hw.1 (by decide)
      refine ⟨?_, ?_, ?_⟩
      · unfold hpathLen
        split <;> simp_all
      · unfold spathLen
        split <;> simp_all
      · have hdrop : (c :: (w ++ u)).dropWhile Char.isDigit = c :: (w ++ u) :=
          List.dropWhile_cons_of_neg (by simp [hdigit])
        simp only [List.cons_append, floatLen, hdrop]
        split <;> simp_all
  simp [scan, rules, Rule.plain, pathRule, huri, hpath, hid, hfirst, hlen]

/-- Not in a string. -/
def Plain (modes : List Mode) : Prop := modes.head? ≠ some .string

/-- A lexeme outside of strings that changes no mode. -/
theorem Lexes.scan {n : ℕ} {t : Option Token} (hm : Plain modes)
    (hfirst : ∀ d ∈ cs.head?, d ∉ ['"', '$', '{', '}']) (h : Nix.scan cs = some (n, t)) :
    Lexes modes cs t.toList modes (cs.drop n) := by
  refine .single ?_
  unfold Nix.step
  split
  · exact absurd ‹_› hm
  · split
    case h_5 => rw [h, Option.map_some]
    all_goals exact absurd (hfirst _ rfl) (by simp)

/-- **An identifier.** -/
theorem Lexes.word (hm : Plain modes) (hw : IsIdent w = true) (hu : wordEnds u = true) :
    Lexes modes (w ++ u) [identToken w] modes u := by
  have hfirst : ∀ d ∈ (w ++ u).head?, d ∉ ['"', '$', '{', '}'] := by
    cases w with
    | nil => exact absurd hw (by simp [IsIdent])
    | cons c w =>
      rintro d hd hmem
      obtain rfl : c = d := by simpa using hd
      simp only [IsIdent, Bool.and_eq_true] at hw
      simp only [List.mem_cons, List.not_mem_nil, or_false] at hmem
      rcases hmem with rfl | rfl | rfl | rfl <;> exact absurd hw.1 (by decide)
  have hrun := Lexes.scan hm hfirst (scan_word hw hu)
  rwa [List.drop_left] at hrun

/-! ## Fixed text -/

/-- A piece of fixed text. -/
inductive Piece
  | word (w : List Char)
  | blank (c : Char)
  | punct (c : Char)
  | openCurly
  | closeCurly
deriving DecidableEq, Repr

namespace Piece

/-- A piece as it is written. -/
def text : Piece → List Char
  | word w => w
  | blank c => [c]
  | punct c => [c]
  | openCurly => ['{']
  | closeCurly => ['}']

/-- A piece as it is read. -/
def tokens : Piece → List Token
  | word w => [identToken w]
  | blank _ => []
  | punct c => [.punct c]
  | openCurly => [.punct '{']
  | closeCurly => [.punct '}']

/-- The modes behind a piece. -/
def after : Piece → List Mode → List Mode
  | openCurly, modes => .default :: modes
  | closeCurly, modes => modes.tail
  | _, modes => modes

/-- The piece is a lexeme, if the text goes on with `u`. What decides it has to be in `u`. -/
def fits (u : List Char) : Piece → Bool
  | word w => IsIdent w && u.dropWhile pathChar ≠ [] && wordEnds u
  | blank c => Nix.blank c
  | punct c => c ∈ [';', '[', ']', ':'] || (c = '=' && u.head?.any (· ≠ '=')) ||
      (c = '.' && u.head?.any idStart && u.dropWhile pathChar ≠ [] && wordEnds ('.' :: u))
  | openCurly | closeCurly => true

end Piece

theorem dropWhile_append_of_ne_nil {p : Char → Bool} (h : u.dropWhile p ≠ []) :
    (u ++ rest).dropWhile p = u.dropWhile p ++ rest := by
  rw [List.dropWhile_append, if_neg (by simpa using h)]

/-- What has been seen decides. -/
theorem wordEnds_append (h : u.dropWhile pathChar ≠ []) (hu : wordEnds u = true) :
    wordEnds (u ++ rest) = true := by
  have hhead : (u ++ rest).head? = u.head? := by
    cases u with
    | nil => exact absurd rfl h
    | cons e u => rfl
  simp only [wordEnds, dropWhile_append_of_ne_nil h, hhead, Bool.and_eq_true] at hu ⊢
  refine ⟨hu.1, ?_⟩
  have hu := hu.2
  revert h hu
  -- a colon is followed by something that has been seen as well
  rcases u.dropWhile pathChar with _ | ⟨c, _ | ⟨d, v⟩⟩
  · simp
  · intro _ hc
    have hc : c ≠ '/' ∧ c ≠ ':' := by
      split at hc <;> simp_all
    simp only [List.cons_append, List.nil_append]
    split <;> simp_all
  · intro _ hc
    simp only [List.cons_append]
    split at hc <;> simp_all

theorem scan_blank (h : blank c = true) : scan (c :: u) = some (1, none) := by
  simp only [blank, Bool.or_eq_true, decide_eq_true_eq] at h
  rcases h with ((rfl | rfl) | rfl) | rfl <;> rfl

theorem scan_punct (h : c ∈ [';', '[', ']', ':']) : scan (c :: u) = some (1, some (.punct c)) := by
  simp only [List.mem_cons, List.not_mem_nil, or_false] at h
  rcases h with rfl | rfl | rfl | rfl <;> rfl

/-- The two characters that may also begin something longer. -/
theorem scan_punct_of (h : c = '=' ∨ c = '.') (hpath : pathLen (c :: u) = 0)
    (hfloat : floatLen (c :: u) = 0) (hop : opLen (c :: u) = 0) :
    scan (c :: u) = some (1, some (.punct c)) := by
  have hlens : uriLen (c :: u) = 0 ∧ hpathLen (c :: u) = 0 ∧ spathLen (c :: u) = 0 ∧
      idLen (c :: u) = 0 ∧ intLen (c :: u) = 0 ∧ lineCommentLen (c :: u) = 0 ∧
      blockCommentLen (c :: u) = 0 ∧ blank c = false := by
    rcases h with rfl | rfl <;> exact ⟨rfl, rfl, rfl, rfl, rfl, rfl, rfl, rfl⟩
  have hfind : rules.find? (fun r => 0 < r.len (c :: u)) = some punctRule := by
    simp [rules, Rule.plain, Rule.skip, pathRule, punctRule, hpath, hfloat, hop, hlens]
  rw [scan, hfind]
  rcases h with rfl | rfl <;> rfl

theorem scan_equals (h : u.head?.any (· ≠ '=') = true) :
    scan ('=' :: u) = some (1, some (.punct '=')) := by
  refine scan_punct_of (.inl rfl) rfl rfl ?_
  cases u with
  | nil => exact absurd h (by simp)
  | cons d u =>
    have hd : d ≠ '=' := by simpa using h
    simp [opLen, operators, List.isPrefixOf, hd.symm]

theorem scan_dot (h : u.head?.any idStart = true) (hu : wordEnds ('.' :: u) = true) :
    scan ('.' :: u) = some (1, some (.punct '.')) := by
  cases u with
  | nil => exact absurd h (by simp)
  | cons d u =>
    have hd : idStart d = true := by simpa using h
    have hdigit := not_isDigit_of_idStart hd
    refine scan_punct_of (.inr rfl) ?_ ?_ ?_
    · exact pathLen_eq_zero fun _ _ => ne_slash_of_wordEnds hu
    · simp [floatLen, intLen, hdigit, List.takeWhile, List.dropWhile]
    · have hne : '.' ≠ d := by
        rintro rfl
        exact absurd hd (by decide)
      simp [opLen, operators, List.isPrefixOf, hne]

namespace Piece

/-- The text of several pieces. -/
def textOf (pieces : List Piece) : List Char := pieces.flatMap text

/-- The tokens of several pieces. -/
def tokensOf (pieces : List Piece) : List Token := pieces.flatMap tokens

/-- The modes behind several pieces. -/
def afterAll (pieces : List Piece) (modes : List Mode) : List Mode :=
  pieces.foldl (fun modes p => p.after modes) modes

/-- Every piece is a lexeme where it stands, and none stands in a string. -/
def fitting : List Piece → List Mode → Bool
  | [], _ => true
  | p :: pieces, modes =>
    modes.head? ≠ some .string && p.fits (textOf pieces) && fitting pieces (p.after modes)

end Piece

theorem Lexes.piece {p : Piece} (hm : Plain modes) (hp : p.fits u = true) :
    Lexes modes (p.text ++ (u ++ rest)) p.tokens (p.after modes) (u ++ rest) := by
  have hmode : ∀ {α : Type} (a b : α),
      (match modes.head? with | some .string => a | _ => b) = b := by
    intro α a b
    split
    · exact absurd ‹_› hm
    · rfl
  cases p with
  | word w =>
    simp only [Piece.fits, Bool.and_eq_true, decide_eq_true_eq] at hp
    exact .word hm hp.1.1 (wordEnds_append hp.1.2 hp.2)
  | blank c =>
    have hc : blank c = true := hp
    refine Lexes.scan hm ?_ (scan_blank hc)
    rintro d hd hmem
    obtain rfl : c = d := by simpa [Piece.text] using hd
    simp only [List.mem_cons, List.not_mem_nil, or_false] at hmem
    rcases hmem with rfl | rfl | rfl | rfl <;> exact absurd hc (by decide)
  | punct c =>
    simp only [Piece.fits, Bool.or_eq_true, Bool.and_eq_true, decide_eq_true_eq] at hp
    have hhead : ∀ {p : Char → Bool}, u.head?.any p = true → (u ++ rest).head?.any p = true := by
      intro p h
      cases u with
      | nil => exact absurd h (by simp)
      | cons d u => simpa using h
    have hscan : Nix.scan (c :: (u ++ rest)) = some (1, some (.punct c)) := by
      rcases hp with (hc | ⟨rfl, hd⟩) | ⟨⟨⟨rfl, hd⟩, hlen⟩, hu⟩
      · exact scan_punct hc
      · exact scan_equals (hhead hd)
      · exact scan_dot (hhead hd) (wordEnds_append (by simpa [pathChar] using hlen) hu)
    refine Lexes.scan hm ?_ hscan
    rintro d hd hmem
    obtain rfl : c = d := by simpa [Piece.text] using hd
    revert hp
    simp only [List.mem_cons, List.not_mem_nil, or_false] at hmem
    rcases hmem with rfl | rfl | rfl | rfl <;> simp
  | openCurly => exact .single (hmode _ _)
  | closeCurly => exact .single (hmode _ _)

theorem Lexes.pieces {pieces : List Piece} (h : Piece.fitting pieces modes = true) :
    Lexes modes (Piece.textOf pieces ++ rest) (Piece.tokensOf pieces)
      (Piece.afterAll pieces modes) rest := by
  induction pieces generalizing modes with
  | nil => exact .done
  | cons p pieces ih =>
    simp only [Piece.fitting, Bool.and_eq_true, decide_eq_true_eq] at h
    have hrun := (Lexes.piece h.1.1 h.1.2).trans (ih h.2)
    simpa [Piece.textOf, Piece.tokensOf, Piece.afterAll] using hrun

/-- The pieces of a text without strings, numbers and operators. -/
def cut : List Char → List Piece
  | [] => []
  | c :: cs =>
    if c = '{' then .openCurly :: cut cs
    else if c = '}' then .closeCurly :: cut cs
    else if blank c then .blank c :: cut cs
    else if idChar c then
      match cut cs with
      | .word w :: pieces => .word (c :: w) :: pieces
      | pieces => .word [c] :: pieces
    else .punct c :: cut cs

theorem textOf_cons (p : Piece) (pieces : List Piece) :
    Piece.textOf (p :: pieces) = p.text ++ Piece.textOf pieces := rfl

theorem textOf_cut (cs : List Char) : Piece.textOf (cut cs) = cs := by
  induction cs with
  | nil => rfl
  | cons c cs ih =>
    unfold cut
    split_ifs with h₁ h₂ h₃ h₄
    · rw [textOf_cons, ih, h₁]
      rfl
    · rw [textOf_cons, ih, h₂]
      rfl
    · rw [textOf_cons, ih]
      rfl
    · split
      · rename_i w pieces heq
        rw [heq, textOf_cons] at ih
        rw [textOf_cons, ← ih]
        rfl
      · rw [textOf_cons, ih]
        rfl
    · rw [textOf_cons, ih]
      rfl

/-- What a fixed text comes to: its tokens and what is open after it, if it can be lexed without
    looking at what follows. -/
def fixed (modes : List Mode) (cs : List Char) : Option (List Token × List Mode) :=
  if Piece.fitting (cut cs) modes then
    some (Piece.tokensOf (cut cs), Piece.afterAll (cut cs) modes)
  else none

/-- **Fixed text is lexed by computation.** -/
theorem Lexes.fixed (h : Nix.fixed modes cs = some (ts, modes')) :
    Lexes modes (cs ++ rest) ts modes' rest := by
  unfold Nix.fixed at h
  split_ifs at h with hfit
  obtain ⟨rfl, rfl⟩ := Prod.mk.inj (Option.some.inj h)
  have hrun : Lexes modes (Piece.textOf (cut cs) ++ rest) _ _ rest := Lexes.pieces hfit
  rwa [textOf_cut] at hrun

/-! ## Strings -/

theorem Lexes.openQuote (hm : Plain modes) :
    Lexes modes ('"' :: rest) [.dquote] (.string :: modes) rest := by
  refine .single ?_
  unfold Nix.step
  split
  · exact absurd ‹_› hm
  · rfl

theorem Lexes.closeQuote : Lexes (.string :: modes) ('"' :: rest) [.dquote] modes rest :=
  .single rfl

theorem Lexes.interpolation :
    Lexes (.string :: modes) ('$' :: '{' :: rest) [.dollarCurly]
      (.default :: .string :: modes) rest := .single rfl

/-- The token of a string piece; an empty one has none. -/
def strTokens (w : List Char) : List Token :=
  if w = [] then [] else [.str (String.ofList (unescape w))]

/-- **A piece of a string**, up to its end. -/
theorem Lexes.strPiece (h : Nix.strPiece (w ++ '"' :: rest) = w) :
    Lexes (.string :: modes) (w ++ '"' :: rest) (strTokens w) (.string :: modes)
      ('"' :: rest) := by
  by_cases hw : w = []
  · subst hw
    exact .done
  · rw [strTokens, if_neg hw]
    refine .single ?_
    simp only [Nix.step, List.head?_cons]
    split
    · rename_i heq
      rw [heq, Nix.strPiece] at h
      exact absurd h.symm hw
    · rename_i heq
      rw [heq, Nix.strPiece] at h
      exact absurd h.symm hw
    · rw [h, if_neg hw, List.drop_left]

/-! ## Paths -/

/-- An absolute path. -/
def IsPath (w : List Char) : Bool :=
  w.head? = some '/' && pathLen w = w.length && w.getLast? ≠ some '/'

/-- What comes after a path does not make it longer. -/
def pathEnds (rest : List Char) : Bool :=
  rest.head?.all fun c => !pathChar c && c ≠ '/' && c ≠ '$'

theorem segments_le (slash : Bool) (w : List Char) : segments slash w ≤ w.length := by
  induction w generalizing slash with
  | nil => simp [segments]
  | cons c w ih =>
    rw [segments, List.length_cons]
    have := ih false
    have := ih true
    split_ifs <;> omega

theorem segments_append {slash : Bool} (h : segments slash w = w.length)
    (hrest : pathEnds rest = true) : segments slash (w ++ rest) = w.length := by
  induction w generalizing slash with
  | nil =>
    cases rest with
    | nil => rfl
    | cons c rest =>
      have hc : (pathChar c = false ∧ c ≠ '/') ∧ c ≠ '$' := by simpa [pathEnds] using hrest
      simp [segments, hc]
  | cons c w ih =>
    rw [segments, List.length_cons] at h
    rw [List.cons_append, segments, List.length_cons]
    have := segments_le false w
    have := segments_le true w
    split_ifs at h ⊢ with h₁ h₂
    · rw [ih (by omega)]
      omega
    · rw [ih (by omega)]
      omega

theorem pathChar_of_segments {slash : Bool} (h : segments slash w = w.length) (hc : c ∈ w) :
    pathChar c = true ∨ c = '/' := by
  induction w generalizing slash with
  | nil => exact absurd hc (by simp)
  | cons d w ih =>
    rw [segments, List.length_cons] at h
    have := segments_le false w
    have := segments_le true w
    split_ifs at h with h₁ h₂
    · rcases List.mem_cons.mp hc with rfl | hc
      · exact .inl h₁
      · exact ih (show segments false w = w.length by omega) hc
    · rcases List.mem_cons.mp hc with rfl | hc
      · exact .inr h₂.1
      · exact ih (show segments true w = w.length by omega) hc

theorem pathLen_absolute (hc : pathChar c = true) :
    pathLen ('/' :: c :: u) = 2 + segments false u := by
  have hdrop : ('/' :: c :: u).dropWhile pathChar = '/' :: c :: u := rfl
  have htake : ('/' :: c :: u).takeWhile pathChar = [] := rfl
  rw [pathLen, hdrop, htake]
  simp [hc]

/-- An absolute path begins with a slash and a character. -/
theorem isPath_cases (hw : IsPath w = true) :
    ∃ c v, w = '/' :: c :: v ∧ pathChar c = true ∧ segments false v = v.length ∧
      w.getLast? ≠ some '/' := by
  simp only [IsPath, Bool.and_eq_true, decide_eq_true_eq] at hw
  obtain ⟨⟨hhead, hlen⟩, hlast⟩ := hw
  obtain ⟨v, rfl⟩ : ∃ v, w = '/' :: v := List.head?_eq_some_iff.mp hhead
  cases v with
  | nil => exact absurd hlen (by decide)
  | cons c v =>
    by_cases hc : pathChar c = true
    · rw [pathLen_absolute hc, List.length_cons, List.length_cons] at hlen
      exact ⟨c, v, rfl, hc, by omega, hlast⟩
    · have hzero : pathLen ('/' :: c :: v) = 0 := by
        have hdrop : ('/' :: c :: v).dropWhile pathChar = '/' :: c :: v := rfl
        rw [pathLen, hdrop]
        simp [hc]
      rw [hzero] at hlen
      exact absurd hlen (by simp)

/-- The rule for paths comes first for what begins with a slash and a character. -/
theorem scan_absolute (hc : pathChar c = true) :
    scan ('/' :: c :: u) =
      (pathRule.act (('/' :: c :: u).take (2 + segments false u))
        (('/' :: c :: u).drop (2 + segments false u))).map fun t => (2 + segments false u, t) := by
  have hfind : rules.find? (fun r => 0 < r.len ('/' :: c :: u)) = some pathRule := by
    have huri : uriLen ('/' :: c :: u) = 0 := rfl
    have hlen := pathLen_absolute (u := u) hc
    have hpos : 0 < pathLen ('/' :: c :: u) := by omega
    simp [rules, Rule.plain, pathRule, huri, hpos]
  have hlen : pathRule.len ('/' :: c :: u) = 2 + segments false u := pathLen_absolute hc
  rw [scan, hfind, Option.bind_eq_bind, Option.bind_some, hlen]
  cases pathRule.act (('/' :: c :: u).take (2 + segments false u))
    (('/' :: c :: u).drop (2 + segments false u)) <;> rfl

theorem scan_path (hw : IsPath w = true) (hrest : pathEnds rest = true) :
    scan (w ++ rest) = some (w.length, some (.path (String.ofList w))) := by
  obtain ⟨c, v, rfl, hc, hv, hlast⟩ := isPath_cases hw
  have hlen : 2 + segments false (v ++ rest) = ('/' :: c :: v).length := by
    rw [segments_append hv hrest, List.length_cons, List.length_cons]
    omega
  have hdollar : ['$', '{'].isPrefixOf rest = false := by
    cases rest with
    | nil => rfl
    | cons d rest =>
      have hd : (pathChar d = false ∧ d ≠ '/') ∧ d ≠ '$' := by simpa [pathEnds] using hrest
      simp [List.isPrefixOf, hd.2.symm]
  have happend : '/' :: c :: v ++ rest = '/' :: c :: (v ++ rest) := rfl
  rw [happend, scan_absolute hc, hlen, ← happend, List.take_left, List.drop_left, pathRule_act,
    if_neg (by rw [not_or]; exact ⟨hlast, by simp [hdollar]⟩)]
  rfl

/-- **A path.** -/
theorem Lexes.path (hm : Plain modes) (hw : IsPath w = true) (hrest : pathEnds rest = true) :
    Lexes modes (w ++ rest) [.path (String.ofList w)] modes rest := by
  have hrun := Lexes.scan (t := some (.path (String.ofList w))) hm ?_ (scan_path hw hrest)
  · rwa [List.drop_left] at hrun
  · obtain ⟨c, v, rfl, -⟩ := isPath_cases hw
    simp

/-- A text that begins like an absolute path is lexed as one token exactly if it is one. -/
theorem lex_eq_path_iff (hc : pathChar c = true) :
    lex ('/' :: c :: u) = some [.path (String.ofList ('/' :: c :: u))] ↔
      IsPath ('/' :: c :: u) = true := by
  constructor
  · intro h
    have hstep : step [] ('/' :: c :: u) = (scan ('/' :: c :: u)).map fun r =>
        (('/' :: c :: u).drop r.1, [], r.2.toList) := rfl
    rw [lex, List.length_cons, lexFrom, hstep, scan_absolute hc, pathRule_act] at h
    split_ifs at h with hbad
    · exact absurd h (by simp)
    · simp only [Option.map_some, Option.bind_eq_bind, Option.bind_some, Option.toList_some,
        Option.bind_eq_some_iff] at h
      obtain ⟨more, -, h⟩ := h
      have htake : ('/' :: c :: u).take (2 + segments false u) = '/' :: c :: u := by
        have htoken := (List.cons.inj (Option.some.inj h)).1
        exact String.ofList_injective (Token.path.inj htoken)
      have hle := segments_le false u
      have hlen := congrArg List.length htake
      rw [htake] at hbad
      simp only [IsPath, Bool.and_eq_true, decide_eq_true_eq, pathLen_absolute hc]
      rw [not_or] at hbad
      simp only [List.length_take, List.length_cons] at hlen ⊢
      exact ⟨⟨rfl, by omega⟩, hbad.1⟩
  · intro h
    have hrun : Lexes [] (_ ++ []) _ [] [] := Lexes.path (by simp [Plain]) h rfl
    rw [List.append_nil] at hrun
    exact lex_of_lexes hrun

/-! ## Text that ends in itself -/

/-- The text is lexed alike whatever follows. -/
def Reads (modes : List Mode) (cs : List Char) (ts : List Token) (modes' : List Mode) : Prop :=
  ∀ rest, Lexes modes (cs ++ rest) ts modes' rest

theorem Reads.lex (h : Reads [] cs ts modes) : Nix.lex cs = some ts := by
  have hrun := h []
  rw [List.append_nil] at hrun
  exact lex_of_lexes hrun

theorem Reads.nil : Reads modes [] [] modes := fun _ => .done

theorem Reads.append (h : Reads modes cs ts modes') (h' : Reads modes' cs' ts' modes'') :
    Reads modes (cs ++ cs') (ts ++ ts') modes'' := by
  intro rest
  rw [List.append_assoc]
  exact (h (cs' ++ rest)).trans (h' rest)

theorem Reads.fixed {m : List Mode} (h : Nix.fixed modes cs = some (ts, m)) :
    Reads modes cs ts m := fun _ => .fixed h

theorem Reads.flatMap {α : Type} {l : List α} {text : α → List Char} {tokens : α → List Token}
    (h : ∀ x ∈ l, Reads modes (text x) (tokens x) modes) :
    Reads modes (l.flatMap text) (l.flatMap tokens) modes := by
  induction l with
  | nil => exact .nil
  | cons x l ih =>
    rw [List.flatMap_cons, List.flatMap_cons]
    exact (h x (by simp)).append (ih fun y hy => h y (List.mem_cons_of_mem x hy))

/-- The text decides that an identifier in front of it ends there. -/
def endsWord (u : List Char) : Bool := u.dropWhile pathChar ≠ [] && wordEnds u

/-- An identifier, with text behind it that ends it. -/
theorem Reads.word {v : List Char} (hm : Plain modes) (hw : IsIdent w = true)
    (hu : endsWord u = true) (h : Reads modes (u ++ v) ts modes') :
    Reads modes (w ++ (u ++ v)) (identToken w :: ts) modes' := by
  simp only [endsWord, Bool.and_eq_true, decide_eq_true_eq] at hu
  intro rest
  have hends : wordEnds (u ++ v ++ rest) = true := by
    rw [List.append_assoc]
    exact wordEnds_append hu.1 hu.2
  rw [List.append_assoc]
  exact (Lexes.word hm hw hends).trans (h rest)

/-- A path, with text behind it that ends it. -/
theorem Reads.path {v : List Char} (hm : Plain modes) (hw : IsPath w = true) (hne : u ≠ [])
    (hu : pathEnds u = true) (h : Reads modes (u ++ v) ts modes') :
    Reads modes (w ++ (u ++ v)) (.path (String.ofList w) :: ts) modes' := by
  intro rest
  rw [List.append_assoc]
  refine (Lexes.path hm hw ?_).trans (h rest)
  cases u with
  | nil => exact absurd rfl hne
  | cons c u => exact hu

/-- The characters of an identifier that a path can have too: all but the apostrophe. -/
def IsSegment (w : List Char) : Bool := IsIdent w && w.all pathChar

/-- Two identifiers with a dot between them. -/
theorem Reads.dotted {v x : List Char} (hm : Plain modes) (hw : IsIdent w = true)
    (hx : IsSegment x = true) (hu : endsWord u = true) (h : Reads modes (u ++ v) ts modes') :
    Reads modes (w ++ '.' :: (x ++ (u ++ v))) (identToken w :: .punct '.' :: identToken x :: ts)
      modes' := by
  simp only [IsSegment, Bool.and_eq_true, List.all_eq_true] at hx
  have hdrop : ('.' :: (x ++ u)).dropWhile pathChar = u.dropWhile pathChar := by
    rw [← List.cons_append]
    refine List.dropWhile_append_of_pos fun c hc => ?_
    rcases List.mem_cons.mp hc with rfl | hc
    · rfl
    · exact hx.2 c hc
  have hends : endsWord ('.' :: (x ++ u)) = true := by
    simp only [endsWord, wordEnds, hdrop, Bool.and_eq_true] at hu ⊢
    exact ⟨hu.1, rfl, hu.2.2⟩
  have hstart : ∀ rest, (x ++ rest).head?.any idStart = true := by
    intro rest
    have hx := hx.1
    cases x with
    | nil => exact absurd hx (by simp [IsIdent])
    | cons c x =>
      simp only [IsIdent, Bool.and_eq_true] at hx
      simpa using hx.1
  have hbehind : Reads modes ('.' :: (x ++ u) ++ v) (.punct '.' :: identToken x :: ts) modes' := by
    intro rest
    simp only [endsWord, Bool.and_eq_true, decide_eq_true_eq] at hends
    have hwordEnds : wordEnds ('.' :: (x ++ u) ++ (v ++ rest)) = true :=
      wordEnds_append hends.1 hends.2
    have hdot : Lexes modes ('.' :: (x ++ (u ++ v) ++ rest)) [.punct '.'] modes _ :=
      Lexes.scan hm (by simp) (scan_dot (by rw [List.append_assoc]; exact hstart _)
        (by simpa [List.append_assoc] using hwordEnds))
    have hrun := hdot.trans (Reads.word hm hx.1 hu h rest)
    simpa [List.append_assoc] using hrun
  have hread := Reads.word hm hw hends hbehind
  simpa [List.append_assoc] using hread

/-- A string without interpolations. -/
theorem Reads.quoted (hm : Plain modes) (h : ∀ rest, strPiece (w ++ '"' :: rest) = w) :
    Reads modes ('"' :: (w ++ ['"'])) (.dquote :: (strTokens w ++ [.dquote])) modes := by
  intro rest
  rw [List.cons_append, List.append_assoc]
  exact (Lexes.openQuote hm).trans ((Lexes.strPiece (h rest)).trans .closeQuote)

end Argunix.Lib.Nix
