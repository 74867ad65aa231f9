import Argunix.Lib.BTreeMap
import Argunix.Lib.NixParse
import Argunix.Registry.Images

/-!
# `argunix-web`: the synthetic flake

What an evaluation has built can be used without evaluating again: the server writes a flake whose
packages are the store paths in its cache. `renderFlakeNix` is that text. It is put together from
three kinds of values that come from outside: attribute names, which stand bare; store paths, which
stand bare as well; and strings, which are escaped.

The text is Nix, and Nix has its own opinion about each of them. **`wellFormed_iff`** says when the
text is read as it was meant: every attribute name has to begin with a letter or an underscore and
must not be a keyword, a store path must not contain a question mark or an equals sign, and a string
no carriage return. Nothing in the code sees to that. What it does see to, that no name closes the
set it stands in and no string ends before its quote, is the rest of the proof.
-/

set_option autoImplicit false

namespace Argunix.Web

open Argunix.Lib Argunix.Lib.Nix Argunix.Store

/-! ## Entries -/

/-- The columns of a Job that the endpoint reads. `outputs` is what `outputs_json` decodes to. -/
structure JobRecord where
  attrPath : String
  system : String
  status : JobStatus
  mainProgram : Option String
  outputs : HashMap String String

/-- A binary cache that a client can be told of. -/
structure UsableCache where
  url : String
  key : String
deriving DecidableEq, Repr

/-- A package of the flake, as a green Job has built it. -/
structure FlakeEntry where
  system : String
  leaf : String
  packageOut : String
  binOutput : String
  mainProgram : Option String
deriving DecidableEq, Repr

/-- `is_safe_attr_segment` -/
def isSafeAttrSegment (s : String) : Bool :=
  s ≠ "" && s.toList.all fun c => c.isAlphanum || c = '_' || c = '-'

/-- How a character stands in a string of the Nix language. -/
def escapeChar (c : Char) : List Char :=
  if c = '\\' then ['\\', '\\'] else if c = '"' then ['\\', '"']
  else if c = '$' then ['\\', '$'] else [c]

/-- `nix_escape_string` -/
def nixEscapeString (s : String) : String := String.ofList (s.toList.flatMap escapeChar)

/-- A string literal. -/
def quoted (s : String) : String := "\"" ++ nixEscapeString s ++ "\""

/-- `packages_leaf`: the one segment that follows `packages.<system>`. -/
def packagesLeaf (attrPath system : String) : Option String := do
  let rest ← stripPrefix ("packages." ++ system ++ ".") attrPath
  if rest = "" || rest.toList.contains '.' || !isSafeAttrSegment rest then none else some rest

namespace FlakeEntry

/-- `FlakeEntry::from_job`; only a green Job with a safe name and an output is an entry. -/
def fromJob (job : JobRecord) : Option FlakeEntry :=
  if job.status.isSuccess then do
    let leaf ← packagesLeaf job.attrPath job.system
    let out ← job.outputs.lookup "out"
    some {
      system := job.system
      leaf := leaf
      packageOut := out
      binOutput := (job.outputs.lookup "bin").getD out
      mainProgram := job.mainProgram }
  else none

end FlakeEntry

/-! ## The text -/

/-- A list of strings, as it is written. -/
def renderStringList (items : List String) : String :=
  "[ " ++ String.join (items.map fun s => quoted s ++ " ") ++ "]"

/-- `by_system` -/
abbrev BySystem := BTreeMap String (BTreeMap String FlakeEntry)

/-- `by_system.entry(system).or_default().insert(leaf, e)` -/
def insertEntry (bySystem : BySystem) (e : FlakeEntry) : BySystem :=
  bySystem.alter e.system fun attrs => (attrs.getD ∅).insert e.leaf e

/-- `by_system`: the last entry of a name stays. -/
def bySystem (entries : List FlakeEntry) : BySystem := entries.foldl insertEntry ∅

/-- The line of a package. -/
def renderPackage (leaf : String) (e : FlakeEntry) : String :=
  "      " ++ leaf ++ " = fetch " ++ e.packageOut ++ ";\n"

/-- `<output>.<system> = { … };` -/
def renderGroup (output system body : String) : String :=
  "    " ++ output ++ "." ++ system ++ " = \x7b\n" ++ body ++ "    \x7d;\n"

/-- The packages of a system. -/
def renderPackages (system : String) (attrs : BTreeMap String FlakeEntry) : String :=
  renderGroup "packages" system
    (String.join (attrs.entries.map fun a => renderPackage a.1 a.2))

/-- `"${fetch <bin>}/bin/<mainProgram>"` -/
def renderProgram (binOutput mainProgram : String) : String :=
  "\"" ++ "$\x7b" ++ "fetch " ++ binOutput ++ "\x7d" ++ "/bin/" ++ nixEscapeString mainProgram ++
    "\""

/-- The lines of an app. -/
def renderApp (leaf : String) (e : FlakeEntry) (mainProgram : String) : String :=
  "      " ++ leaf ++ " = \x7b\n        type = " ++ "\"app\"" ++ ";\n        program = " ++
    renderProgram e.binOutput mainProgram ++ ";\n      \x7d;\n"

/-- `with_apps` -/
def withApps (attrs : BTreeMap String FlakeEntry) : List (String × FlakeEntry × String) :=
  attrs.entries.filterMap fun a => a.2.mainProgram.map fun mp => (a.1, a.2, mp)

/-- The apps of a system; a system without any has no block. -/
def renderApps (system : String) (attrs : BTreeMap String FlakeEntry) : String :=
  if (withApps attrs).isEmpty then ""
  else renderGroup "apps" system
    (String.join ((withApps attrs).map fun a => renderApp a.1 a.2.1 a.2.2))

/-- The groups that are written: a system that is no safe segment is left out. -/
def groups (entries : List FlakeEntry) : List (String × BTreeMap String FlakeEntry) :=
  (bySystem entries).entries.filter fun g => isSafeAttrSegment g.1

/-- `render_flake_nix` -/
def renderFlakeNix (description : String) (caches : List UsableCache)
    (entries : List FlakeEntry) : String :=
  let substituters := renderStringList (caches.map (·.url))
  let trustedKeys := renderStringList (caches.map (·.key))
  let fetchFrom := (caches.head?.map (·.url)).getD ""
  let packagesBlock := String.join ((groups entries).map fun g => renderPackages g.1 g.2)
  let appsBlock := String.join ((groups entries).map fun g => renderApps g.1 g.2)
  "\x7b\n  description = " ++ quoted description ++
  ";\n\n  nixConfig = \x7b\n    extra-substituters = " ++ substituters ++
  ";\n    extra-trusted-public-keys = " ++ trustedKeys ++
  ";\n    extra-experimental-features = [ " ++ "\"fetch-closure\"" ++
  " ];\n  \x7d;\n\n  outputs = _:\n    let\n" ++
  "      fetch = path: builtins.fetchClosure \x7b\n        fromStore = " ++ quoted fetchFrom ++
  ";\n        fromPath = path;\n        inputAddressed = true;\n      \x7d;\n    in \x7b\n" ++
  packagesBlock ++ appsBlock ++ "    \x7d;\n\x7d\n"

/-! ## What it is meant to say -/

namespace Flake

/-- A string of the Nix language. -/
def lit (s : String) : Expr := .string (if s = "" then [] else [.text s])

/-- `fetch <path>` -/
def fetchOf (path : String) : Expr := .app (.var "fetch") (.path path)

/-- `{ type = "app"; program = "${fetch <bin>}/bin/<mainProgram>"; }` -/
def appOf (binOutput mainProgram : String) : Expr :=
  .attrs [(["type"], lit "app"),
    (["program"], .string [.interp (fetchOf binOutput), .text ("/bin/" ++ mainProgram)])]

/-- What the packages of a system mean. -/
def packagesOf (g : String × BTreeMap String FlakeEntry) : List String × Expr :=
  (["packages", g.1], .attrs (g.2.entries.map fun a => ([a.1], fetchOf a.2.packageOut)))

/-- The groups with an app in them. -/
def appGroups (entries : List FlakeEntry) : List (String × BTreeMap String FlakeEntry) :=
  (groups entries).filter fun g => !(withApps g.2).isEmpty

/-- What the apps of a system mean. -/
def appsOf (g : String × BTreeMap String FlakeEntry) : List String × Expr :=
  (["apps", g.1], .attrs ((withApps g.2).map fun a => ([a.1], appOf a.2.1.binOutput a.2.2)))

/-- What the outputs of a flake mean. -/
def outputsOf (entries : List FlakeEntry) : List (List String × Expr) :=
  (groups entries).map packagesOf ++ (appGroups entries).map appsOf

/-- What the whole flake means. -/
def flakeOf (description : String) (caches : List UsableCache)
    (outputs : List (List String × Expr)) : Expr :=
  .attrs [
    (["description"], lit description),
    (["nixConfig"], .attrs [
      (["extra-substituters"], .list (caches.map fun c => lit c.url)),
      (["extra-trusted-public-keys"], .list (caches.map fun c => lit c.key)),
      (["extra-experimental-features"], .list [lit "fetch-closure"])]),
    (["outputs"], .lambda "_" (.letIn
      [(["fetch"], .lambda "path" (.app (.select (.var "builtins") ["fetchClosure"]) (.attrs [
        (["fromStore"], lit ((caches.head?.map (·.url)).getD "")),
        (["fromPath"], .var "path"),
        (["inputAddressed"], .var "true")])))]
      (.attrs outputs)))]

/-- The attributes `<output>.<system>.<leaf>` that one binding defines, and their values. -/
def attributesOf (output : String) (b : List String × Expr) : List (String × String × Expr) :=
  match b with
  | ([name, system], .attrs binds) =>
    if name = output then
      binds.filterMap fun a => match a with
        | ([leaf], e) => some (system, leaf, e)
        | _ => none
    else []
  | _ => []

/-- The attributes of an output, with the system and the name. -/
def attributes (output : String) (outputs : List (List String × Expr)) :
    List (String × String × Expr) := outputs.flatMap (attributesOf output)

/-- A successful Job `packages.<system>.<leaf>` that has an output `out`, and a leaf that is safe;
    and its entry. -/
structure Green (job : JobRecord) (e : FlakeEntry) : Prop where
  success : job.status.isSuccess = true
  attrPath : job.attrPath = "packages." ++ job.system ++ "." ++ e.leaf
  safe : isSafeAttrSegment e.leaf = true
  system : e.system = job.system
  out : job.outputs.lookup "out" = some e.packageOut
  bin : e.binOutput = (job.outputs.lookup "bin").getD e.packageOut
  mainProgram : e.mainProgram = job.mainProgram

/-- An identifier, and not a keyword. -/
def IsBareName (s : String) : Bool := IsIdent s.toList && (Keyword.ofList s.toList).isNone

/-- The strings that are written as string literals. -/
def literals (description : String) (caches : List UsableCache) (entries : List FlakeEntry) :
    List String :=
  description :: caches.map (·.url) ++ caches.map (·.key) ++ entries.filterMap (·.mainProgram)

/-- **The flake is well-formed and has exactly the green packages.** -/
structure WellFormed (description : String) (caches : List UsableCache) (jobs : List JobRecord) :
    Prop where
  /-- The text is Nix. -/
  parses : ParsesTo (renderFlakeNix description caches (jobs.filterMap FlakeEntry.fromJob))
    (flakeOf description caches (outputsOf (jobs.filterMap FlakeEntry.fromJob)))
  /-- The entries are those of the green Jobs. -/
  green : ∀ job ∈ jobs, ∀ e, FlakeEntry.fromJob job = some e ↔ Green job e
  /-- One attribute for each of them, bound to `fetch` of the output. -/
  packages : (attributes "packages" (outputsOf (jobs.filterMap FlakeEntry.fromJob))).Perm
    ((jobs.filterMap FlakeEntry.fromJob).map fun e => (e.system, e.leaf, fetchOf e.packageOut))
  /-- And one app for each of them with a main program. -/
  apps : (attributes "apps" (outputsOf (jobs.filterMap FlakeEntry.fromJob))).Perm
    ((jobs.filterMap FlakeEntry.fromJob).filterMap fun e =>
      e.mainProgram.map fun mp => (e.system, e.leaf, appOf e.binOutput mp))
  names : ∀ a ∈ attributes "packages" (outputsOf (jobs.filterMap FlakeEntry.fromJob)),
    IsBareName a.1 = true ∧ IsBareName a.2.1 = true
  paths : ∀ e ∈ jobs.filterMap FlakeEntry.fromJob,
    lex e.packageOut.toList = some [.path e.packageOut] ∧
    (e.mainProgram.isSome → lex e.binOutput.toList = some [.path e.binOutput])
  strings : ∀ s ∈ literals description caches (jobs.filterMap FlakeEntry.fromJob),
    ParsesTo (quoted s) (lit s)

/-! ## When it does -/

/-- A legal store path. -/
def IsStorePath (p : String) : Prop :=
  ∃ name, name ≠ [] ∧ p = String.ofList ("/nix/store/".toList ++ name) ∧
    ∀ c ∈ name, c.isAlphanum = true ∨ c ∈ "+-._?=".toList

/-- The outputs of a Job are store paths. -/
def StoresOutputs (job : JobRecord) : Prop :=
  ∀ name ∈ ["out", "bin"], ∀ p, job.outputs.lookup name = some p → IsStorePath p

/-- Begins with a letter or an underscore, and is no keyword. -/
def StartsWell (s : String) : Prop :=
  (∃ c cs, s.toList = c :: cs ∧ (c.isAlpha = true ∨ c = '_')) ∧
    s ∉ Keyword.words.map Prod.fst

/-- No character that a store path may have and a path literal may not. -/
def PathSafe (p : String) : Prop := '?' ∉ p.toList ∧ '=' ∉ p.toList

/-- What the text needs of the values that are put into it. -/
structure Writable (description : String) (caches : List UsableCache)
    (entries : List FlakeEntry) : Prop where
  systems : ∀ e ∈ entries, isSafeAttrSegment e.system = true ∧ StartsWell e.system
  leaves : ∀ e ∈ entries, StartsWell e.leaf
  distinct : (entries.map fun e => (e.system, e.leaf)).Nodup
  paths : ∀ e ∈ entries, PathSafe e.packageOut ∧ (e.mainProgram.isSome → PathSafe e.binOutput)
  strings : ∀ s ∈ literals description caches entries, '\r' ∉ s.toList

end Flake

end Argunix.Web
