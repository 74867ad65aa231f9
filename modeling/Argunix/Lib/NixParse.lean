import Argunix.Lib.NixLex

/-!
# A parser for a part of the Nix language

Sets, lists, strings with interpolations, selection, application, functions of one argument and
`let`: what a plain flake is written in. There are no operators, no `rec`, `inherit`, `with`,
`assert` and `if`, and no patterns; the parser rejects them, so what it accepts is Nix, but not the
other way round. Two definitions of one attribute are an error of the parser, as they are in Nix.

The parser is given fuel. `Yields` says that it gives an answer for all large enough fuel, and there
is one rule for each construct, to put an answer together from answers for the parts.
-/

set_option autoImplicit false

namespace Argunix.Lib.Nix

mutual

/-- The expressions that are needed here. -/
inductive Expr
  | var (name : String)
  | number (text : String)
  | path (text : String)
  | uri (text : String)
  | string (parts : List StrPart)
  | list (items : List Expr)
  | attrs (binds : List (List String × Expr))
  | select (e : Expr) (attr : List String)
  | app (f a : Expr)
  | lambda (x : String) (body : Expr)
  | letIn (binds : List (List String × Expr)) (body : Expr)

/-- A string is text and antiquotations. -/
inductive StrPart
  | text (s : String)
  | interp (e : Expr)

end

/-! ## The parser -/

/-- A token that may be a name. -/
def attrName : Token → Option String
  | .ident name => some name
  -- the one keyword that may be an attribute
  | .keyword .orKw => some "or"
  | _ => none

/-- `a.b.c` -/
def parseAttrPath : List Token → Option (List String × List Token)
  | t :: .punct '.' :: ts => do
    let name ← attrName t
    let (names, ts) ← parseAttrPath ts
    some (name :: names, ts)
  | t :: ts => (attrName t).map fun name => ([name], ts)
  | [] => none

/-- The first token of an expression that can be an argument. -/
def startsSimple : List Token → Bool
  | .ident _ :: _ | .number _ :: _ | .path _ :: _ | .uri _ :: _ | .dquote :: _ => true
  | .punct c :: _ => c = '(' || c = '{' || c = '['
  | _ => false

/-- A name follows. -/
def startsAttr : List Token → Bool
  | t :: _ => (attrName t).isSome
  | [] => false

/-- No attribute is defined twice, and none both as a whole and in parts. -/
def distinct (binds : List (List String × Expr)) : Bool :=
  decide (binds.Pairwise fun a b => ¬ a.1 <+: b.1 ∧ ¬ b.1 <+: a.1)

mutual

/-- An expression. The number is fuel. -/
def parseExpr : ℕ → List Token → Option (Expr × List Token)
  | 0, _ => none
  | n + 1, .ident x :: .punct ':' :: ts => (parseExpr n ts).map fun r => (.lambda x r.1, r.2)
  | n + 1, .keyword .letKw :: ts =>
    match parseBinds n ts with
    | some (binds, .keyword .inKw :: ts) =>
      if distinct binds then (parseExpr n ts).map fun r => (.letIn binds r.1, r.2) else none
    | _ => none
  | n + 1, ts => (parseSelect n ts).bind fun r => parseArgs n r.1 r.2

/-- The arguments that follow a function. -/
def parseArgs : ℕ → Expr → List Token → Option (Expr × List Token)
  | 0, _, _ => none
  | n + 1, f, ts =>
    if startsSimple ts then (parseSelect n ts).bind fun r => parseArgs n (.app f r.1) r.2
    else some (f, ts)

/-- A simple expression and what is selected from it. -/
def parseSelect : ℕ → List Token → Option (Expr × List Token)
  | 0, _ => none
  | n + 1, ts => (parseSimple n ts).bind fun r =>
    match r.2 with
    | .punct '.' :: ts => (parseAttrPath ts).map fun p => (.select r.1 p.1, p.2)
    | ts => some (r.1, ts)

/-- What needs no parentheses. -/
def parseSimple : ℕ → List Token → Option (Expr × List Token)
  | 0, _ => none
  | _ + 1, .ident x :: ts => some (.var x, ts)
  | _ + 1, .number text :: ts => some (.number text, ts)
  | _ + 1, .path text :: ts => some (.path text, ts)
  | _ + 1, .uri text :: ts => some (.uri text, ts)
  | n + 1, .dquote :: ts => (parseParts n ts).map fun r => (.string r.1, r.2)
  | n + 1, .punct '(' :: ts =>
    match parseExpr n ts with
    | some (e, .punct ')' :: ts) => some (e, ts)
    | _ => none
  | n + 1, .punct '{' :: ts =>
    match parseBinds n ts with
    | some (binds, .punct '}' :: ts) => if distinct binds then some (.attrs binds, ts) else none
    | _ => none
  | n + 1, .punct '[' :: ts =>
    match parseItems n ts with
    | some (items, .punct ']' :: ts) => some (.list items, ts)
    | _ => none
  | _ + 1, _ => none

/-- The rest of a string. -/
def parseParts : ℕ → List Token → Option (List StrPart × List Token)
  | 0, _ => none
  | _ + 1, .dquote :: ts => some ([], ts)
  | n + 1, .str s :: ts => (parseParts n ts).map fun r => (.text s :: r.1, r.2)
  | n + 1, .dollarCurly :: ts =>
    match parseExpr n ts with
    | some (e, .punct '}' :: ts) => (parseParts n ts).map fun r => (.interp e :: r.1, r.2)
    | _ => none
  | _ + 1, _ => none

/-- The rest of a list. -/
def parseItems : ℕ → List Token → Option (List Expr × List Token)
  | 0, _ => none
  | n + 1, ts =>
    if startsSimple ts then
      (parseSelect n ts).bind fun r => (parseItems n r.2).map fun rs => (r.1 :: rs.1, rs.2)
    else some ([], ts)

/-- The rest of a set. -/
def parseBinds : ℕ → List Token → Option (List (List String × Expr) × List Token)
  | 0, _ => none
  | n + 1, ts =>
    if startsAttr ts then
      match parseAttrPath ts with
      | some (attr, .punct '=' :: ts) =>
        match parseExpr n ts with
        | some (e, .punct ';' :: ts) => (parseBinds n ts).map fun r => ((attr, e) :: r.1, r.2)
        | _ => none
      | _ => none
    else some ([], ts)

end

/-! ## Answers -/

/-- The answer for all large enough fuel. -/
def Yields {α : Type} (f : ℕ → Option α) (a : α) : Prop := ∃ n, ∀ m, n ≤ m → f m = some a

/-- **The text is a Nix expression.** -/
def ParsesTo (text : String) (e : Expr) : Prop :=
  ∃ ts, lex text.toList = some ts ∧ Yields (parseExpr · ts) (e, [])

variable {α β : Type} {f : ℕ → Option α} {a : α} {b : β} {ts ts' rest : List Token} {e e' : Expr}
  {x : String} {binds : List (List String × Expr)}

/-- A function that needs one unit of fuel itself. -/
theorem Yields.succ (h : Yields (fun n => f (n + 1)) a) : Yields f a := by
  obtain ⟨n, hn⟩ := h
  refine ⟨n + 1, fun m hm => ?_⟩
  obtain ⟨m, rfl⟩ : ∃ k, m = k + 1 := ⟨m - 1, by omega⟩
  exact hn m (by omega)

theorem Yields.const : Yields (fun _ => some a) a := ⟨0, fun _ _ => rfl⟩

theorem Yields.bind {g : α → ℕ → Option β} (h : Yields f a) (h' : Yields (g a) b) :
    Yields (fun n => (f n).bind fun r => g r n) b := by
  obtain ⟨n, hn⟩ := h
  obtain ⟨n', hn'⟩ := h'
  refine ⟨max n n', fun m hm => ?_⟩
  simp only [hn m (by omega), Option.bind_some, hn' m (by omega)]

theorem Yields.map {g : α → β} (h : Yields f a) : Yields (fun n => (f n).map g) (g a) := by
  obtain ⟨n, hn⟩ := h
  refine ⟨n, fun m hm => ?_⟩
  simp only [hn m hm, Option.map_some]

theorem Yields.congr {g : ℕ → Option α} (h : Yields f a) (hfg : ∀ n, f n = g n) : Yields g a := by
  obtain ⟨n, hn⟩ := h
  exact ⟨n, fun m hm => (hfg m).symm.trans (hn m hm)⟩

theorem Yields.unique {a' : α} (h : Yields f a) (h' : Yields f a') : a = a' := by
  obtain ⟨n, hn⟩ := h
  obtain ⟨n', hn'⟩ := h'
  exact Option.some.inj ((hn (max n n') (by omega)).symm.trans (hn' (max n n') (by omega)))

/-! ### Attribute paths -/

theorem parseAttrPath_one (h : rest.head? ≠ some (.punct '.')) :
    parseAttrPath (.ident x :: rest) = some ([x], rest) := by
  unfold parseAttrPath
  split
  · rename_i heq
    obtain ⟨-, rfl⟩ := List.cons.inj heq
    exact absurd rfl h
  · rename_i heq
    obtain ⟨rfl, rfl⟩ := List.cons.inj heq
    rfl
  · rename_i heq
    exact absurd heq (by simp)

theorem parseAttrPath_cons {names : List String} (h : parseAttrPath ts = some (names, rest)) :
    parseAttrPath (.ident x :: .punct '.' :: ts) = some (x :: names, rest) := by
  simp [parseAttrPath, attrName, h]

/-! ### Simple expressions -/

theorem simple_var : Yields (parseSimple · (.ident x :: rest)) (.var x, rest) := .succ .const

theorem simple_path : Yields (parseSimple · (.path x :: rest)) (.path x, rest) := .succ .const

theorem simple_string {parts : List StrPart} (h : Yields (parseParts · ts) (parts, rest)) :
    Yields (parseSimple · (.dquote :: ts)) (.string parts, rest) := .succ h.map

theorem simple_attrs (h : Yields (parseBinds · ts) (binds, .punct '}' :: rest))
    (hdistinct : distinct binds = true) :
    Yields (parseSimple · (.punct '{' :: ts)) (.attrs binds, rest) := by
  obtain ⟨n, hn⟩ := h
  refine .succ ⟨n, fun m hm => ?_⟩
  simp only [parseSimple, hn m hm, hdistinct, if_true]

theorem simple_list {items : List Expr} (h : Yields (parseItems · ts) (items, .punct ']' :: rest)) :
    Yields (parseSimple · (.punct '[' :: ts)) (.list items, rest) := by
  obtain ⟨n, hn⟩ := h
  refine .succ ⟨n, fun m hm => ?_⟩
  simp only [parseSimple, hn m hm]

/-! ### Selection and application -/

theorem select_simple (h : Yields (parseSimple · ts) (e, rest))
    (hrest : rest.head? ≠ some (.punct '.')) : Yields (parseSelect · ts) (e, rest) := by
  obtain ⟨n, hn⟩ := h
  refine .succ ⟨n, fun m hm => ?_⟩
  simp only [parseSelect, hn m hm, Option.bind_some]
  split
  · exact absurd rfl hrest
  · rfl

theorem select_attr {names : List String} (h : Yields (parseSimple · ts) (e, .punct '.' :: ts'))
    (hpath : parseAttrPath ts' = some (names, rest)) :
    Yields (parseSelect · ts) (.select e names, rest) := by
  obtain ⟨n, hn⟩ := h
  refine .succ ⟨n, fun m hm => ?_⟩
  simp only [parseSelect, hn m hm, Option.bind_some, hpath, Option.map_some]

theorem args_nil (h : startsSimple rest = false) : Yields (parseArgs · e rest) (e, rest) := by
  refine .succ ⟨0, fun m _ => ?_⟩
  simp [parseArgs, h]

theorem args_cons {result : Expr} (hts : startsSimple ts = true)
    (h : Yields (parseSelect · ts) (e', ts'))
    (h' : Yields (parseArgs · (.app e e') ts') (result, rest)) :
    Yields (parseArgs · e ts) (result, rest) := by
  refine .succ ((h.bind (g := fun r n => parseArgs n (.app e r.1) r.2) h').congr fun n => ?_)
  simp [parseArgs, hts]

/-- No function and no `let`. -/
def startsPlain : List Token → Bool
  | .ident _ :: .punct ':' :: _ => false
  | .keyword .letKw :: _ => false
  | _ => true

/-- An expression with its arguments. -/
theorem expr_args (hts : startsPlain ts = true) (h : Yields (parseSelect · ts) (e, ts'))
    (h' : Yields (parseArgs · e ts') (e', rest)) : Yields (parseExpr · ts) (e', rest) := by
  refine .succ ((h.bind (g := fun r n => parseArgs n r.1 r.2) h').congr fun n => ?_)
  unfold startsPlain at hts
  split at hts
  · exact absurd hts (by simp)
  · exact absurd hts (by simp)
  · rw [parseExpr]
    · assumption
    · assumption

/-- `f a` -/
theorem expr_app (hts : startsPlain ts = true) (h : Yields (parseSelect · ts) (e, ts'))
    (hts' : startsSimple ts' = true) (h' : Yields (parseSelect · ts') (e', rest))
    (hrest : startsSimple rest = false) : Yields (parseExpr · ts) (.app e e', rest) :=
  expr_args hts h (args_cons hts' h' (args_nil hrest))

theorem expr_select (hts : startsPlain ts = true) (h : Yields (parseSelect · ts) (e, rest))
    (hrest : startsSimple rest = false) : Yields (parseExpr · ts) (e, rest) :=
  expr_args hts h (args_nil hrest)

/-- A simple expression on its own. -/
theorem expr_simple (hts : startsPlain ts = true) (h : Yields (parseSimple · ts) (e, rest))
    (hrest : startsSimple rest = false) (hdot : rest.head? ≠ some (.punct '.')) :
    Yields (parseExpr · ts) (e, rest) := expr_select hts (select_simple h hdot) hrest

theorem expr_lambda (h : Yields (parseExpr · ts) (e, rest)) :
    Yields (parseExpr · (.ident x :: .punct ':' :: ts)) (.lambda x e, rest) := .succ h.map

theorem expr_let (h : Yields (parseBinds · ts) (binds, .keyword .inKw :: ts'))
    (hdistinct : distinct binds = true) (h' : Yields (parseExpr · ts') (e, rest)) :
    Yields (parseExpr · (.keyword .letKw :: ts)) (.letIn binds e, rest) := by
  obtain ⟨n, hn⟩ := h
  obtain ⟨n', hn'⟩ := h'
  refine .succ ⟨max n n', fun m hm => ?_⟩
  simp only [parseExpr, hn m (by omega), hdistinct, if_true, hn' m (by omega), Option.map_some]

/-! ### Strings, lists and bindings -/

theorem parts_nil : Yields (parseParts · (.dquote :: rest)) ([], rest) := .succ .const

theorem parts_text {parts : List StrPart} (h : Yields (parseParts · ts) (parts, rest)) :
    Yields (parseParts · (.str x :: ts)) (.text x :: parts, rest) := .succ h.map

theorem parts_interp {parts : List StrPart} (h : Yields (parseExpr · ts) (e, .punct '}' :: ts'))
    (h' : Yields (parseParts · ts') (parts, rest)) :
    Yields (parseParts · (.dollarCurly :: ts)) (.interp e :: parts, rest) := by
  obtain ⟨n, hn⟩ := h
  obtain ⟨n', hn'⟩ := h'
  refine .succ ⟨max n n', fun m hm => ?_⟩
  simp only [parseParts, hn m (by omega), hn' m (by omega), Option.map_some]

theorem items_nil (h : startsSimple rest = false) : Yields (parseItems · rest) ([], rest) := by
  refine .succ ⟨0, fun m _ => ?_⟩
  simp [parseItems, h]

theorem items_cons {items : List Expr} (hts : startsSimple ts = true)
    (h : Yields (parseSelect · ts) (e, ts')) (h' : Yields (parseItems · ts') (items, rest)) :
    Yields (parseItems · ts) (e :: items, rest) := by
  have hbind := h.bind (g := fun r n => (parseItems n r.2).map fun rs => (r.1 :: rs.1, rs.2)) h'.map
  refine .succ (hbind.congr fun n => ?_)
  simp [parseItems, hts]

theorem binds_nil (h : startsAttr rest = false) : Yields (parseBinds · rest) ([], rest) := by
  refine .succ ⟨0, fun m _ => ?_⟩
  simp [parseBinds, h]

/-- `attr = e;` -/
theorem binds_cons {attr : List String} {ts₁ ts₂ : List Token} (hts : startsAttr ts = true)
    (hattr : parseAttrPath ts = some (attr, .punct '=' :: ts₁))
    (h : Yields (parseExpr · ts₁) (e, .punct ';' :: ts₂))
    (h' : Yields (parseBinds · ts₂) (binds, rest)) :
    Yields (parseBinds · ts) ((attr, e) :: binds, rest) := by
  obtain ⟨n, hn⟩ := h
  obtain ⟨n', hn'⟩ := h'
  refine .succ ⟨max n n', fun m hm => ?_⟩
  simp only [parseBinds, hts, if_true, hattr, hn m (by omega), hn' m (by omega), Option.map_some]

/-- A list of items. -/
theorem items_flatMap {l : List α} {tokens : α → List Token} {expr : α → Expr}
    (hstart : ∀ x ∈ l, ∀ rest, startsSimple (tokens x ++ rest) = true)
    (h : ∀ x ∈ l, ∀ rest, rest.head? ≠ some (.punct '.') →
      Yields (parseSelect · (tokens x ++ rest)) (expr x, rest))
    (hdot : ∀ x ∈ l, ∀ rest, (tokens x ++ rest).head? ≠ some (.punct '.'))
    (hrest : startsSimple rest = false) (hrestDot : rest.head? ≠ some (.punct '.')) :
    Yields (parseItems · (l.flatMap tokens ++ rest)) (l.map expr, rest) := by
  induction l with
  | nil => exact items_nil hrest
  | cons x l ih =>
    have ih := ih (fun y hy => hstart y (List.mem_cons_of_mem x hy))
      (fun y hy => h y (List.mem_cons_of_mem x hy)) fun y hy => hdot y (List.mem_cons_of_mem x hy)
    rw [List.flatMap_cons, List.append_assoc, List.map_cons]
    refine items_cons (hstart x (by simp) _) (h x (by simp) _ ?_) ih
    cases l with
    | nil => exact hrestDot
    | cons y l =>
      rw [List.flatMap_cons, List.append_assoc]
      exact hdot y (by simp) _

/-- `attr = value;` -/
def bindTokens (attr value : List Token) : List Token :=
  attr ++ (Token.punct '=' :: (value ++ [Token.punct ';']))

/-- A list of bindings, and more. -/
theorem binds_flatMap {l : List α} {attrTokens tokens : α → List Token} {attr : α → List String}
    {expr : α → Expr} (hstart : ∀ x ∈ l, ∀ rest, startsAttr (attrTokens x ++ rest) = true)
    (hattr : ∀ x ∈ l, ∀ rest, parseAttrPath (attrTokens x ++ .punct '=' :: rest) =
      some (attr x, .punct '=' :: rest))
    (hexpr : ∀ x ∈ l, ∀ rest, Yields (parseExpr · (tokens x ++ .punct ';' :: rest))
      (expr x, .punct ';' :: rest))
    (h : Yields (parseBinds · ts) (binds, rest)) :
    Yields (parseBinds · ((l.flatMap fun x => bindTokens (attrTokens x) (tokens x)) ++ ts))
      ((l.map fun x => (attr x, expr x)) ++ binds, rest) := by
  induction l with
  | nil => exact h
  | cons x l ih =>
    have ih := ih (fun y hy => hstart y (List.mem_cons_of_mem x hy))
      (fun y hy => hattr y (List.mem_cons_of_mem x hy))
      fun y hy => hexpr y (List.mem_cons_of_mem x hy)
    simp only [List.flatMap_cons, bindTokens, List.append_assoc, List.cons_append,
      List.nil_append, List.map_cons]
    exact binds_cons (hstart x (by simp) _) (hattr x (by simp) _) (hexpr x (by simp) _) ih

end Argunix.Lib.Nix
