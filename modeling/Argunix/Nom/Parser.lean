import Argunix.Lib.HashMap
import Argunix.Lib.Segments
import Argunix.Lib.Utf8
import Argunix.Web.Badge

/-!
# The parser of nix's `internal-json` log

`NomParser` is fed the stderr of a build in chunks, as they come. It keeps the line that is not
complete yet, and a table of the activities that were started and not stopped, by id. What it keeps
between two calls is all that matters of the calls before, and so **the chunks make no difference**
(`feedAll_eq_feed`, from `splitLines_append`).

Over the lines the table has a meaning of its own: `Labelled` is said with the start and stop
messages among the lines, and `Tracks` says that the table holds just that. `Told` is what the
events are to say, line by line. `serde_json` is a parameter.
-/

set_option autoImplicit false

namespace Argunix.Nom

open Argunix.Lib
open Argunix.Web (stripPrefix stripPrefix_eq_some stripSuffix)
open Argunix.Forge (splitOnce utf8)

/-- The activities that are shown. -/
inductive ActivityKind
  | build
  | substitute
  /-- A file transfer. -/
  | download
  | copyPath
deriving DecidableEq, Repr

/-- What a log is turned into. -/
inductive NomEvent
  | line (activity : ℕ) (label text : String)
  | actStart (id parent : ℕ) (act : ActivityKind) (label : String)
  | actStop (id : ℕ)
  | progress (done expected running failed : ℕ)
  | message (level : UInt8) (text : String)
  | raw (text : String)
deriving DecidableEq, Repr

def actCopyPath : ℕ := 100
def actFileTransfer : ℕ := 101
def actBuilds : ℕ := 104
def actBuild : ℕ := 105
def actSubstitute : ℕ := 108

def resBuildLogLine : ℕ := 101
def resProgress : ℕ := 105
def resPostBuildLogLine : ℕ := 107

/-- The state between two calls of `feed`. -/
structure NomParser where
  /-- An incomplete line, carried across calls. -/
  pending : List UInt8
  /-- The labels of the live activities. -/
  activities : HashMap ℕ String
  /-- The aggregate counter, once it was seen. -/
  buildsActivity : Option ℕ

/-- `NomParser::default()` -/
def NomParser.new : NomParser := ⟨[], ∅, none⟩

/-! ## Reading a message -/

/-- `Value::get` with a name. A value that was read gives a member once. -/
def get (key : String) : Json → Option Json
  | .obj members => Json.member members key
  | _ => none

/-- A member that is a number without a sign. -/
def getU64 (key : String) (v : Json) : Option ℕ := (get key v).bind Json.u64

/-- A member that is a string. -/
def getStr (key : String) (v : Json) : Option String := (get key v).bind Json.string

/-- `fields`, if it is an array. -/
def fields (v : Json) : Option (List Json) :=
  match get "fields" v with
  | some (.arr elements) => some elements
  | _ => none

/-- The first of the `fields`, or nothing. -/
def fieldStr (v : Json) : String := (((fields v).bind List.head?).bind Json.string).getD ""

/-- One of the `fields`, or zero. -/
def fieldU64 (v : Json) (i : ℕ) : ℕ := (((fields v).bind fun f => f[i]?).bind Json.u64).getD 0

/-- The name in `/nix/store/<hash>-<name>`, with or without `.drv`; else the last segment. -/
def shortName (path : String) : String :=
  let base := String.ofList ((segments '/' path.toList).getLastD path.toList)
  let base := (stripSuffix ".drv" base).getD base
  match splitOnce '-' base with
  | some (hash, name) => if hash.utf8ByteSize = 32 ∧ name ≠ "" then name else base
  | none => base

/-- The activities that are shown. All others are internal noise. -/
def kindOf (typ : ℕ) : Option ActivityKind :=
  if typ = actBuild then some .build
  else if typ = actSubstitute then some .substitute
  else if typ = actFileTransfer then some .download
  else if typ = actCopyPath then some .copyPath
  else none

/-- A store path has its name for a label, a URL is its own. -/
def labelOf (act : ActivityKind) (field : String) : String :=
  match act with
  | .download => field
  | .build | .substitute | .copyPath => shortName field

/-! ## The parser -/

namespace NomParser

/-- `on_start`: the aggregate counter and what is not shown open no label. -/
def onStart (p : NomParser) (v : Json) : NomParser × List NomEvent :=
  let id := (getU64 "id" v).getD 0
  let typ := (getU64 "type" v).getD 0
  if typ = actBuilds then ({ p with buildsActivity := some id }, [])
  else match kindOf typ with
    | none => (p, [])
    | some act =>
      let parent := (getU64 "parent" v).getD 0
      let label := labelOf act (fieldStr v)
      ({ p with activities := p.activities.insert id label }, [.actStart id parent act label])

/-- `on_stop`: only an activity with a label is reported. -/
def onStop (p : NomParser) (v : Json) : NomParser × List NomEvent :=
  let id := (getU64 "id" v).getD 0
  let q := if p.buildsActivity = some id then { p with buildsActivity := none } else p
  ({ q with activities := q.activities.erase id },
    if (q.activities.lookup id).isSome then [.actStop id] else [])

/-- `on_result`: a line of a build, or the aggregate counter's figures. -/
def onResult (p : NomParser) (v : Json) : List NomEvent :=
  let id := (getU64 "id" v).getD 0
  let typ := (getU64 "type" v).getD 0
  if typ = resBuildLogLine ∨ typ = resPostBuildLogLine then
    [.line id ((p.activities.lookup id).getD "build") (fieldStr v)]
  else if typ = resProgress ∧ p.buildsActivity = some id then
    [.progress (fieldU64 v 0) (fieldU64 v 1) (fieldU64 v 2) (fieldU64 v 3)]
  else []

section

variable (fromStr : String → Option Json)

/-- `parse_line`: what is no message of Nix is passed on as it is. -/
def parseLine (p : NomParser) (line : List UInt8) : NomParser × List NomEvent :=
  if line = [] then (p, [])
  else
    let text := String.ofList (fromUtf8Lossy line)
    match stripPrefix "@nix " text with
    | none => (p, [.raw text])
    | some json =>
      match fromStr json with
      | none => (p, [.raw text])
      | some v =>
        match getStr "action" v with
        | some "start" => p.onStart v
        | some "stop" => p.onStop v
        | some "result" => (p, p.onResult v)
        | some "msg" =>
          match getStr "msg" v with
          | some msg => (p, [.message (UInt8.ofNat ((getU64 "level" v).getD 3)) msg])
          | none => (p, [])
        | _ => (p, [])

/-- One line after the other. -/
def parseLines (p : NomParser) : List (List UInt8) → NomParser × List NomEvent
  | [] => (p, [])
  | line :: lines =>
    let (q, out) := parseLine fromStr p line
    let (q', out') := parseLines q lines
    (q', out ++ out')

/-- `b'\n'` -/
def newline : UInt8 := 10

/-- Every complete line, and then the consumed bytes are drained. -/
def feed (p : NomParser) (chunk : List UInt8) : NomParser × List NomEvent :=
  let (lines, rest) := splitLines newline (p.pending ++ chunk)
  let (q, out) := parseLines fromStr p lines
  ({ q with pending := rest }, out)

/-- `finish`: the line without an end. -/
def finish (p : NomParser) : NomParser × List NomEvent :=
  if p.pending = [] then (p, [])
  else parseLine fromStr { p with pending := [] } p.pending

/-- One chunk after the other. -/
def feedAll (p : NomParser) : List (List UInt8) → NomParser × List NomEvent
  | [] => (p, [])
  | chunk :: chunks =>
    let (q, out) := feed fromStr p chunk
    let (q', out') := feedAll q chunks
    (q', out ++ out')

/-- What a log comes out as that was fed in these chunks. -/
def events (chunks : List (List UInt8)) : List NomEvent :=
  let (p, out) := feedAll fromStr new chunks
  out ++ (finish fromStr p).2

end

/-! ## Chunks -/

variable {fromStr : String → Option Json} {p : NomParser}

theorem parseLines_append (p : NomParser) (ls ls' : List (List UInt8)) :
    parseLines fromStr p (ls ++ ls') =
      ((parseLines fromStr (parseLines fromStr p ls).1 ls').1,
        (parseLines fromStr p ls).2 ++ (parseLines fromStr (parseLines fromStr p ls).1 ls').2) := by
  induction ls generalizing p with
  | nil => rfl
  | cons line ls ih => simp only [List.cons_append, parseLines, ih, List.append_assoc]

/-- A line is parsed without a look at what is pending. -/
theorem parseLine_pending (p : NomParser) (bytes line : List UInt8) :
    parseLine fromStr { p with pending := bytes } line =
      ({ (parseLine fromStr p line).1 with pending := bytes }, (parseLine fromStr p line).2) := by
  unfold parseLine
  split
  · rfl
  · dsimp only
    split
    · rfl
    · split
      · rfl
      · split
        · unfold onStart
          dsimp only
          split
          · rfl
          · split <;> rfl
        · unfold onStop
          dsimp only
          split <;> rfl
        · rfl
        · split <;> rfl
        · rfl

theorem parseLines_pending (p : NomParser) (bytes : List UInt8) (ls : List (List UInt8)) :
    parseLines fromStr { p with pending := bytes } ls =
      ({ (parseLines fromStr p ls).1 with pending := bytes }, (parseLines fromStr p ls).2) := by
  induction ls generalizing p with
  | nil => rfl
  | cons line ls ih => simp only [parseLines, parseLine_pending, ih]

/-- **A cut anywhere makes no difference**: the rest of the one part is pending in front of the
    other. -/
theorem feed_append (p : NomParser) (a b : List UInt8) :
    feed fromStr p (a ++ b) =
      ((feed fromStr (feed fromStr p a).1 b).1,
        (feed fromStr p a).2 ++ (feed fromStr (feed fromStr p a).1 b).2) := by
  simp only [feed, ← List.append_assoc, splitLines_append (p.pending ++ a) b, parseLines_append,
    parseLines_pending]

theorem feedAll_cons (p : NomParser) (chunk : List UInt8) (chunks : List (List UInt8)) :
    feedAll fromStr p (chunk :: chunks) = feed fromStr p (chunk ++ chunks.flatten) := by
  induction chunks generalizing p chunk with
  | nil => simp [feedAll]
  | cons next chunks ih => rw [List.flatten_cons, feed_append, ← ih, feedAll]

/-- The one feed of a new parser. -/
theorem feed_new (bytes : List UInt8) :
    feed fromStr new bytes =
      ({ (parseLines fromStr new (splitLines newline bytes).1).1 with
          pending := (splitLines newline bytes).2 },
        (parseLines fromStr new (splitLines newline bytes).1).2) := rfl

theorem feedAll_new (chunks : List (List UInt8)) :
    feedAll fromStr new chunks = feed fromStr new chunks.flatten := by
  cases chunks with
  | nil => rfl
  | cons chunk chunks => exact feedAll_cons new chunk chunks

/-- The empty line at the end is none. -/
theorem parseLine_nil (p : NomParser) : parseLine fromStr p [] = (p, []) := by
  rw [parseLine, if_pos rfl]

/-- **A log in chunks comes out as its lines do**, the last one without a newline included. -/
theorem events_eq (chunks : List (List UInt8)) :
    events fromStr chunks =
      (parseLines fromStr new (segments newline chunks.flatten)).2 := by
  rw [segments, parseLines_append, events, feedAll_new, feed_new]
  dsimp only [parseLines]
  rw [List.append_nil, finish]
  split
  · rename_i hnone
    dsimp only at hnone
    rw [hnone, parseLine_nil]
  · rw [parseLine_pending, parseLine_pending]

end NomParser

/-! ## What the lines say -/

section

variable (fromStr : String → Option Json)

/-- The line as text. -/
def textOf (line : List UInt8) : String := String.ofList (fromUtf8Lossy line)

/-- The message in a line, if it is a `@nix` line and reads as JSON. -/
def messageOf (line : List UInt8) : Option Json :=
  (stripPrefix "@nix " (textOf line)).bind fromStr

/-- The line starts an activity that is shown, under this label. -/
def Starts (line : List UInt8) (id : ℕ) (label : String) : Prop :=
  ∃ v act, messageOf fromStr line = some v ∧ getStr "action" v = some "start" ∧
    (getU64 "id" v).getD 0 = id ∧ kindOf ((getU64 "type" v).getD 0) = some act ∧
      labelOf act (fieldStr v) = label

/-- The line ends this activity. -/
def Stops (line : List UInt8) (id : ℕ) : Prop :=
  ∃ v, messageOf fromStr line = some v ∧ getStr "action" v = some "stop" ∧
    (getU64 "id" v).getD 0 = id

/-- **The label of an activity behind these lines**: that of the most recent start of it which no
    later line has stopped, or `build` if there is none. -/
def Labelled (lines : List (List UInt8)) (id : ℕ) (label : String) : Prop :=
  (∃ earlier line later, lines = earlier ++ line :: later ∧ Starts fromStr line id label ∧
    ∀ l ∈ later, (∀ label', ¬ Starts fromStr l id label') ∧ ¬ Stops fromStr l id) ∨
  (label = "build" ∧ ∀ earlier line later label', lines = earlier ++ line :: later →
    Starts fromStr line id label' → ∃ l ∈ later, Stops fromStr l id)

/-- What a line is to come out as, behind those before it. -/
structure Fits (before : List (List UInt8)) (line : List UInt8) (out : List NomEvent) : Prop where
  /-- What is not a `@nix` line is passed through. -/
  raw : line ≠ [] → ¬ utf8 "@nix " <+: line → out = [.raw (textOf line)]
  labelled : ∀ id label text, .line id label text ∈ out → Labelled fromStr before id label

/-- The events are what these lines come out as, one after the other. -/
inductive Told : List (List UInt8) → List (List UInt8) → List NomEvent → Prop
  | nil (before : List (List UInt8)) : Told before [] []
  | cons {before lines : List (List UInt8)} {line : List UInt8} {out evs : List NomEvent} :
    Fits fromStr before line out → Told (before ++ [line]) lines evs →
      Told before (line :: lines) (out ++ evs)

end

variable {fromStr : String → Option Json} {p : NomParser} {before lines : List (List UInt8)}
  {line : List UInt8} {id : ℕ} {label : String}

/-! ## The table of activities -/

theorem Starts.not_stops (h : Starts fromStr line id label) (id' : ℕ) :
    ¬ Stops fromStr line id' := by
  intro ⟨v', hv', haction', _⟩
  obtain ⟨v, act, hv, haction, _⟩ := h
  obtain rfl := Option.some.inj (hv.symm.trans hv')
  rw [haction] at haction'
  exact absurd haction' (by simp)

namespace NomParser

/-- What becomes of a line that holds a message. -/
theorem parseLine_of_messageOf {v : Json} (hv : messageOf fromStr line = some v) :
    parseLine fromStr p line =
      match getStr "action" v with
      | some "start" => p.onStart v
      | some "stop" => p.onStop v
      | some "result" => (p, p.onResult v)
      | some "msg" =>
        match getStr "msg" v with
        | some msg => (p, [.message (UInt8.ofNat ((getU64 "level" v).getD 3)) msg])
        | none => (p, [])
      | _ => (p, []) := by
  obtain ⟨json, hjson, hread⟩ := Option.bind_eq_some_iff.mp hv
  have hne : line ≠ [] := by
    intro hnil
    rw [hnil, textOf, fromUtf8Lossy] at hjson
    have hlen := congrArg (·.toList) (stripPrefix_eq_some.mp hjson)
    simp [String.toList_append] at hlen
  rw [parseLine, if_neg hne]
  change (match stripPrefix "@nix " (textOf line) with | none => _ | some json => _) = _
  rw [hjson]
  dsimp only
  rw [hread]

/-- A line that holds none changes nothing. -/
theorem parseLine_of_no_message (hv : messageOf fromStr line = none) :
    parseLine fromStr p line = (p, if line = [] then [] else [.raw (textOf line)]) := by
  unfold parseLine
  split
  · rfl
  · dsimp only
    split
    · rfl
    · rename_i json hjson
      have hread : fromStr json = none := by
        rw [messageOf, textOf, hjson] at hv
        exact hv
      rw [hread]
      rfl

theorem lookup_of_starts (h : Starts fromStr line id label) (p : NomParser) :
    (parseLine fromStr p line).1.activities.lookup id = some label := by
  obtain ⟨v, act, hv, haction, hid, hkind, hlabel⟩ := h
  rw [parseLine_of_messageOf hv, haction]
  have hbuilds : (getU64 "type" v).getD 0 ≠ actBuilds := by
    intro heq
    have hnone : kindOf actBuilds = none := rfl
    rw [heq, hnone] at hkind
    exact absurd hkind (by simp)
  change (onStart p v).1.activities.lookup id = some label
  rw [onStart, if_neg hbuilds, hkind, hid, ← hlabel]
  exact AList.lookup_insert _

theorem lookup_of_stops (h : Stops fromStr line id) (p : NomParser) :
    (parseLine fromStr p line).1.activities.lookup id = none := by
  obtain ⟨v, hv, haction, hid⟩ := h
  rw [parseLine_of_messageOf hv, haction]
  change (onStop p v).1.activities.lookup id = none
  rw [onStop, hid]
  exact AList.lookup_erase _ _

/-- Only a start and a stop of an activity change its entry. -/
theorem lookup_of_neither (hstart : ∀ label, ¬ Starts fromStr line id label)
    (hstop : ¬ Stops fromStr line id) (p : NomParser) :
    (parseLine fromStr p line).1.activities.lookup id = p.activities.lookup id := by
  cases hv : messageOf fromStr line with
  | none => rw [parseLine_of_no_message hv]
  | some v =>
    rw [parseLine_of_messageOf hv]
    split
    · rename_i haction
      unfold onStart
      dsimp only
      split
      · rfl
      · split
        · rfl
        · rename_i act hkind
          have hid : id ≠ (getU64 "id" v).getD 0 :=
            fun heq => hstart _ ⟨v, act, hv, haction, heq.symm, hkind, rfl⟩
          exact AList.lookup_insert_ne hid
    · rename_i haction
      have hid : id ≠ (getU64 "id" v).getD 0 := fun heq => hstop ⟨v, hv, haction, heq.symm⟩
      unfold onStop
      dsimp only
      split <;> exact AList.lookup_erase_ne hid
    · rfl
    · split <;> rfl
    · rfl

end NomParser

/-- **The table holds what the lines say.** -/
structure Tracks (fromStr : String → Option Json) (p : NomParser)
    (before : List (List UInt8)) : Prop where
  live : ∀ id label, p.activities.lookup id = some label →
    ∃ earlier line later, before = earlier ++ line :: later ∧ Starts fromStr line id label ∧
      ∀ l ∈ later, (∀ label', ¬ Starts fromStr l id label') ∧ ¬ Stops fromStr l id
  gone : ∀ id, p.activities.lookup id = none → ∀ earlier line later label',
    before = earlier ++ line :: later → Starts fromStr line id label' →
      ∃ l ∈ later, Stops fromStr l id

theorem Tracks.labelled (h : Tracks fromStr p before) (id : ℕ) :
    Labelled fromStr before id ((p.activities.lookup id).getD "build") := by
  cases hlook : p.activities.lookup id with
  | some label => exact .inl (h.live id label hlook)
  | none => exact .inr ⟨rfl, fun e l t label' => h.gone id hlook e l t label'⟩

theorem tracks_new : Tracks fromStr .new [] where
  live := fun id label h => absurd h (by simp [NomParser.new])
  gone := fun id _ earlier line later label' h => absurd h (by simp)

/-- One more line behind a stretch that nothing has touched leaves it so, if it does not touch it
    either. -/
theorem Tracks.parseLine (h : Tracks fromStr p before) (line : List UInt8) :
    Tracks fromStr (p.parseLine fromStr line).1 (before ++ [line]) where
  live := by
    intro id label hlook
    by_cases hstart : ∃ label', Starts fromStr line id label'
    · obtain ⟨label', hstart⟩ := hstart
      rw [NomParser.lookup_of_starts hstart] at hlook
      obtain rfl := Option.some.inj hlook
      exact ⟨before, line, [], rfl, hstart, fun l hl => absurd hl List.not_mem_nil⟩
    · have hnostart : ∀ label', ¬ Starts fromStr line id label' := fun l hl => hstart ⟨l, hl⟩
      by_cases hstop : Stops fromStr line id
      · rw [NomParser.lookup_of_stops hstop] at hlook
        exact absurd hlook (by simp)
      · rw [NomParser.lookup_of_neither hnostart hstop] at hlook
        obtain ⟨earlier, first, later, rfl, hfirst, hlater⟩ := h.live id label hlook
        refine ⟨earlier, first, later ++ [line], by simp, hfirst, ?_⟩
        intro l hl
        rcases List.mem_append.mp hl with hl | hl
        · exact hlater l hl
        · obtain rfl := List.mem_singleton.mp hl
          exact ⟨hnostart, hstop⟩
  gone := by
    intro id hlook earlier first later label' heq hfirst
    by_cases hstop : Stops fromStr line id
    · -- the line stops it, and it is not the one that started it
      rcases List.eq_nil_or_concat' later with rfl | ⟨later', last, rfl⟩
      · obtain ⟨-, hlast⟩ := List.append_inj' heq rfl
        obtain rfl := (List.cons.inj hlast).1
        exact absurd hstop (hfirst.not_stops id)
      · obtain ⟨-, hlast⟩ := List.append_inj' (heq.trans (by simp) :
          before ++ [line] = (earlier ++ first :: later') ++ [last]) rfl
        obtain rfl := (List.cons.inj hlast).1
        exact ⟨line, by simp, hstop⟩
    · have hnostart : ∀ l, ¬ Starts fromStr line id l := by
        intro l hl
        rw [NomParser.lookup_of_starts hl] at hlook
        exact absurd hlook (by simp)
      rw [NomParser.lookup_of_neither hnostart hstop] at hlook
      rcases List.eq_nil_or_concat' later with rfl | ⟨later', last, rfl⟩
      · obtain ⟨-, hlast⟩ := List.append_inj' heq rfl
        obtain rfl := (List.cons.inj hlast).1
        exact absurd hfirst (hnostart label')
      · obtain ⟨hbefore, -⟩ := List.append_inj' (heq.trans (by simp) :
          before ++ [line] = (earlier ++ first :: later') ++ [last]) rfl
        obtain ⟨l, hl, hls⟩ := h.gone id hlook earlier first later' label' hbefore hfirst
        exact ⟨l, List.mem_append_left _ hl, hls⟩

/-! ## The events -/

theorem utf8_nix : (utf8 "@nix ").map ascii = "@nix ".toList := rfl

/-- The bytes of a line begin with `@nix ` if its text does. -/
theorem stripPrefix_textOf_eq_none :
    stripPrefix "@nix " (textOf line) = none ↔ ¬ utf8 "@nix " <+: line := by
  rw [← prefix_fromUtf8Lossy_iff (by decide +kernel) line, utf8_nix,
    Option.eq_none_iff_forall_ne_some]
  constructor
  · intro hnone ⟨rest, hrest⟩
    refine hnone (String.ofList rest) (stripPrefix_eq_some.mpr ?_)
    apply String.toList_injective
    refine String.toList_ofList.trans (hrest.symm.trans ?_)
    simp
  · intro hnot rest hsome
    refine hnot ⟨rest.toList, ?_⟩
    have htext := congrArg String.toList (stripPrefix_eq_some.mp hsome)
    rw [textOf, String.toList_ofList, String.toList_append] at htext
    exact htext.symm

/-- The only lines with a label are those of a result. -/
theorem label_of_line {text : String} (h : .line id label text ∈ (p.parseLine fromStr line).2) :
    label = (p.activities.lookup id).getD "build" := by
  cases hv : messageOf fromStr line with
  | none =>
    rw [NomParser.parseLine_of_no_message hv] at h
    dsimp only at h
    split at h <;> simp at h
  | some v =>
    rw [NomParser.parseLine_of_messageOf hv] at h
    split at h
    · unfold NomParser.onStart at h
      dsimp only at h
      split at h
      · simp at h
      · split at h <;> simp at h
    · unfold NomParser.onStop at h
      dsimp only at h
      split at h <;> split at h <;> simp at h
    · unfold NomParser.onResult at h
      dsimp only at h
      split at h
      · obtain ⟨rfl, rfl, -⟩ := NomEvent.line.inj (List.mem_singleton.mp h)
        rfl
      · split at h <;> simp at h
    · split at h <;> simp at h
    · simp at h

theorem Tracks.fits (h : Tracks fromStr p before) (line : List UInt8) :
    Fits fromStr before line (p.parseLine fromStr line).2 where
  raw := by
    intro hne hnix
    have hmessage : messageOf fromStr line = none := by
      rw [messageOf, stripPrefix_textOf_eq_none.mpr hnix]
      rfl
    rw [NomParser.parseLine_of_no_message hmessage, if_neg hne]
  labelled := by
    intro id label text hmem
    rw [label_of_line hmem]
    exact h.labelled id

theorem Tracks.told (h : Tracks fromStr p before) (lines : List (List UInt8)) :
    Told fromStr before lines (p.parseLines fromStr lines).2 := by
  induction lines generalizing p before with
  | nil => exact .nil before
  | cons line lines ih => exact .cons (h.fits line) (ih (h.parseLine line))

/-- **The events of a log do not depend on its chunks, and they tell its lines.** -/
theorem events_chunks (fromStr : String → Option Json) (chunks : List (List UInt8)) :
    NomParser.events fromStr chunks = NomParser.events fromStr [chunks.flatten] ∧
      Told fromStr [] (segments NomParser.newline chunks.flatten)
        (NomParser.events fromStr chunks) := by
  have hflatten : [chunks.flatten].flatten = chunks.flatten := List.append_nil _
  constructor
  · rw [NomParser.events_eq, NomParser.events_eq, hflatten]
  · rw [NomParser.events_eq]
    exact tracks_new.told _

end Argunix.Nom
