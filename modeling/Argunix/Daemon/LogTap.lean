import Argunix.Nom.Render

/-!
# The log of `dispatch_pool_build`

While a build runs, the bytes of its stderr come in chunks. Each chunk goes through one `NomParser`,
and each event of it twice further: to the live tap, and, as a line of text, into the log that is
stored when the build is over. In between, the coordinator writes notes of its own into the stored
log: that it has given up waiting, that the builder is gone, that the output could not be fetched.

The cap is looked at before a line is appended and not before a note. `entriesOf` is the log as it
would be without a cap: the lines of each chunk and the notes, in the order in which they come.
`capped` takes the lines away that find the log full, and `KeptLog` says what this comes to. The
lines that are left are a **beginning** of the lines of the log, since a log that is full stays
full; every note is there, in its place; and a line is missing only of a log that was full when the
line came.

`stored_of_run` is the whole: what was shown live is what the bytes say, however they were cut, and
the stored log is made of the same events. A line on which `strip_ansi` panics ends the task, and
is not a step here.
-/

set_option autoImplicit false

namespace Argunix.Daemon

open Argunix.Lib Argunix.Nom
open Argunix.Forge (utf8)

/-! ## The locals and the steps -/

/-- Where the task stands with its log. -/
inductive LogPc
  /-- Before `dispatch_build` has answered. -/
  | early
  | draining
  /-- The parser was asked for the rest. -/
  | flushed
  | written (log : List UInt8)
deriving DecidableEq

/-- The log of an attempt as it grows. -/
structure LogTap where
  pc : LogPc
  nom : NomParser
  logBuf : List UInt8
  logTruncated : Bool
  /-- What was pushed into the live log. -/
  shown : List NomEvent

/-- What the task does with its log. -/
inductive LogAct
  | dispatched
  | chunk (bytes : List UInt8)
  /-- `log_buf.extend_from_slice(..)` -/
  | note (text : List UInt8)
  /-- `log_truncated = log_truncated || t` -/
  | finished (logTruncated : Bool)
  | flush
  /-- `write_zstd_log` -/
  | write

/-- What the log ends with if something was left out. -/
def truncationMarker : List UInt8 := utf8 "\n--- log truncated by argunix ---\n"

/-- The loop over the events of a chunk, for the stored log. -/
def appendEvents (cap : ℕ) : List UInt8 × Bool → List NomEvent → Option (List UInt8 × Bool)
  | acc, [] => some acc
  | acc, ev :: evs => (appendLogEvent acc.1 ev cap acc.2).bind fun acc => appendEvents cap acc evs

namespace LogTap

/-- Nothing was read yet. -/
def start : LogTap := ⟨.early, .new, [], false, []⟩

/-- The parser has answered. -/
def take (t : LogTap) (cap : ℕ) (answer : NomParser × List NomEvent) : Option LogTap :=
  (appendEvents cap (t.logBuf, t.logTruncated) answer.2).map fun (logBuf, logTruncated) =>
    { t with
      nom := answer.1, logBuf := logBuf, logTruncated := logTruncated
      shown := t.shown ++ answer.2 }

/-- One step of the task with its log. `cap` is the largest log that is kept. -/
def step (fromStr : String → Option Json) (cap : ℕ) (t : LogTap) : LogAct → Option LogTap
  | .dispatched => if t.pc = .early then some { t with pc := .draining } else none
  | .chunk bytes => if t.pc = .draining then t.take cap (t.nom.feed fromStr bytes) else none
  | .note text =>
    match t.pc with
    | .written _ => none
    | _ => some { t with logBuf := t.logBuf ++ text }
  | .finished logTruncated =>
    if t.pc = .draining then some { t with logTruncated := t.logTruncated || logTruncated }
    else none
  | .flush =>
    if t.pc = .draining then
      (t.take cap (t.nom.finish fromStr)).map fun t => { t with pc := .flushed }
    else none
  | .write =>
    if t.pc = .early ∨ t.pc = .flushed then
      some { t with
        pc := .written (if t.logTruncated then t.logBuf ++ truncationMarker else t.logBuf) }
    else none

end LogTap

/-- The acts that were taken, and the locals after them. -/
inductive LogRun (fromStr : String → Option Json) (cap : ℕ) : List LogAct → LogTap → Prop
  | start : LogRun fromStr cap [] .start
  | step {acts : List LogAct} {t t' : LogTap} {a : LogAct} :
      LogRun fromStr cap acts t → t.step fromStr cap a = some t' →
      LogRun fromStr cap (acts ++ [a]) t'

/-! ## What came in -/

/-- The bytes, with their cuts forgotten. -/
def bytesOf (acts : List LogAct) : List UInt8 :=
  acts.flatMap fun
    | .chunk bytes => bytes
    | _ => []

/-- The notes of the coordinator. -/
def notesOf (acts : List LogAct) : List (List UInt8) :=
  acts.flatMap fun
    | .note text => [text]
    | _ => []

/-- The builder has said that it has left something out. -/
def flagged (acts : List LogAct) : Bool :=
  acts.any fun
    | .finished logTruncated => logTruncated
    | _ => false

/-- The parser was asked for what it holds. -/
def asksForRest (acts : List LogAct) : Bool :=
  acts.any fun
    | .flush => true
    | _ => false

/-- What the bytes so far say, and the rest of a line that the parser was asked for. -/
def said (fromStr : String → Option Json) (acts : List LogAct) : List NomEvent :=
  if asksForRest acts then NomParser.events fromStr [bytesOf acts]
  else (NomParser.feed fromStr .new (bytesOf acts)).2

/-- The lines that the events are stored as, if none of them panics. -/
def storedLines : List NomEvent → Option (List (List UInt8))
  | [] => some []
  | ev :: evs => do
    let line ← renderStorageLine ev
    let lines ← storedLines evs
    some ((line.map fun line => utf8 line ++ [NomParser.newline]).toList ++ lines)

/-! ## What goes out -/

/-- What stands in a log. -/
inductive Entry
  | line (bytes : List UInt8)
  | note (bytes : List UInt8)
deriving DecidableEq

/-- As it is written. -/
def Entry.bytes : Entry → List UInt8
  | line bytes | note bytes => bytes

/-- A log of several entries. -/
def text (entries : List Entry) : List UInt8 := entries.flatMap Entry.bytes

/-- The lines of a log. -/
def lineEntries (entries : List Entry) : List (List UInt8) :=
  entries.flatMap fun
    | .line bytes => [bytes]
    | .note _ => []

/-- The notes in a log. -/
def noteEntries (entries : List Entry) : List (List UInt8) :=
  entries.flatMap fun
    | .line _ => []
    | .note bytes => [bytes]

/-- What an act adds to a log that has no cap: the lines that the parser has of it, or the note. -/
def LogAct.entries (fromStr : String → Option Json) (nom : NomParser) :
    LogAct → Option (NomParser × List Entry)
  | .chunk bytes =>
    (storedLines (nom.feed fromStr bytes).2).map fun lines =>
      ((nom.feed fromStr bytes).1, lines.map .line)
  | .flush =>
    (storedLines (nom.finish fromStr).2).map fun lines =>
      ((nom.finish fromStr).1, lines.map .line)
  | .note text => some (nom, [.note text])
  | .dispatched | .finished _ | .write => some (nom, [])

/-- What these acts write, from where the parser stands. -/
def entriesFrom (fromStr : String → Option Json) (nom : NomParser) :
    List LogAct → Option (NomParser × List Entry)
  | [] => some (nom, [])
  | a :: as =>
    (a.entries fromStr nom).bind fun (nom, new) =>
      (entriesFrom fromStr nom as).map fun (nom, entries) => (nom, new ++ entries)

/-- **The log without a cap**, in the order in which things come. -/
def entriesOf (fromStr : String → Option Json) (acts : List LogAct) : Option (List Entry) :=
  (entriesFrom fromStr .new acts).map Prod.snd

/-- One entry more: a line that finds the log full is left out. -/
def capStep (cap : ℕ) (kept : List Entry × Bool) : Entry → List Entry × Bool
  | .line bytes =>
    if cap ≤ (text kept.1).length then (kept.1, true) else (kept.1 ++ [.line bytes], kept.2)
  | .note bytes => (kept.1 ++ [.note bytes], kept.2)

/-- What the cap leaves of a log, and whether a line is missing. -/
def capped (cap : ℕ) (entries : List Entry) : List Entry × Bool :=
  entries.foldl (capStep cap) ([], false)

/-- **What the cap does to a log.** -/
structure KeptLog (cap : ℕ) (entries : List Entry) : Prop where
  beginning : lineEntries (capped cap entries).1 <+: lineEntries entries
  everyNote : noteEntries (capped cap entries).1 = noteEntries entries
  cut_iff : (capped cap entries).2 = true ↔
    lineEntries (capped cap entries).1 ≠ lineEntries entries
  /-- A log without one of its lines is full, -/
  stays : lineEntries (capped cap entries).1 ≠ lineEntries entries →
    cap ≤ (text (capped cap entries).1).length
  /-- and was full when that line came. -/
  full : ∀ before line after, entries = before ++ .line line :: after →
    (lineEntries (capped cap entries).1).length ≤ (lineEntries before).length →
      cap ≤ (text (capped cap before).1).length
  /-- No line is begun in a full log. -/
  room : ∀ before line after, (capped cap entries).1 = before ++ .line line :: after →
    (text before).length < cap

section Entries

variable {cap : ℕ} {entries : List Entry}

@[simp]
theorem text_append (es es' : List Entry) : text (es ++ es') = text es ++ text es' :=
  List.flatMap_append

@[simp]
theorem lineEntries_append (es es' : List Entry) :
    lineEntries (es ++ es') = lineEntries es ++ lineEntries es' := List.flatMap_append

@[simp]
theorem noteEntries_append (es es' : List Entry) :
    noteEntries (es ++ es') = noteEntries es ++ noteEntries es' := List.flatMap_append

@[simp]
theorem lineEntries_map_line (lines : List (List UInt8)) :
    lineEntries (lines.map .line) = lines := by
  rw [lineEntries, List.flatMap_map]
  exact List.flatMap_singleton' lines

@[simp]
theorem noteEntries_map_line (lines : List (List UInt8)) :
    noteEntries (lines.map .line) = [] := by
  rw [noteEntries, List.flatMap_map]
  exact List.flatMap_eq_nil_iff.mpr fun _ _ => rfl

theorem capped_append (cap : ℕ) (es es' : List Entry) :
    capped cap (es ++ es') = es'.foldl (capStep cap) (capped cap es) := List.foldl_append

theorem capped_concat (cap : ℕ) (es : List Entry) (e : Entry) :
    capped cap (es ++ [e]) = capStep cap (capped cap es) e := capped_append cap es [e]

theorem prefix_foldl_capStep (cap : ℕ) (es : List Entry) :
    ∀ kept : List Entry × Bool, kept.1 <+: (es.foldl (capStep cap) kept).1 := by
  induction es with
  | nil => exact fun kept => List.prefix_rfl
  | cons e es ih =>
    intro kept
    have hstep : kept.1 <+: (capStep cap kept e).1 := by
      cases e with
      | line bytes =>
        rw [capStep]
        split
        · exact List.prefix_rfl
        · exact List.prefix_append _ _
      | note bytes => exact List.prefix_append _ _
    exact hstep.trans (ih _)

/-- What was kept of a beginning is kept. -/
theorem capped_prefix (cap : ℕ) {es es' : List Entry} (h : es <+: es') :
    (capped cap es).1 <+: (capped cap es').1 := by
  obtain ⟨rest, rfl⟩ := h
  rw [capped_append]
  exact prefix_foldl_capStep cap rest _

theorem keptLog_nil (cap : ℕ) : KeptLog cap [] where
  beginning := List.prefix_rfl
  everyNote := rfl
  cut_iff := by simp [capped]
  stays hne := absurd rfl hne
  full before line after heq := by simp at heq
  room before line after heq := by simp [capped] at heq

/-- The last entry is new: one in front of a line was there before. -/
theorem concat_cases {e : Entry} {before after : List Entry} {line : List UInt8}
    (h : entries ++ [e] = before ++ .line line :: after) :
    (∃ after', entries = before ++ .line line :: after') ∨ entries = before ∧ e = .line line := by
  rcases List.eq_nil_or_concat' after with rfl | ⟨after', last, rfl⟩
  · obtain ⟨hbefore, hlast⟩ := List.append_inj' h rfl
    exact Or.inr ⟨hbefore, (List.cons.inj hlast).1⟩
  · have hassoc : before ++ .line line :: (after' ++ [last]) =
        (before ++ .line line :: after') ++ [last] := by simp
    rw [hassoc] at h
    exact Or.inl ⟨after', (List.append_inj' h rfl).1⟩

/-- A line that finds room. Then none was left out so far. -/
theorem KeptLog.line (h : KeptLog cap entries) (line : List UInt8)
    (hroom : (text (capped cap entries).1).length < cap) :
    KeptLog cap (entries ++ [.line line]) := by
  have hcapped : capped cap (entries ++ [.line line]) =
      ((capped cap entries).1 ++ [.line line], (capped cap entries).2) := by
    rw [capped_concat, capStep, if_neg (Nat.not_le_of_lt hroom)]
  have hall : lineEntries (capped cap entries).1 = lineEntries entries := by
    by_contra hne
    exact absurd (h.stays hne) (Nat.not_le_of_lt hroom)
  have hcut : (capped cap entries).2 = false := by
    rw [Bool.eq_false_iff]
    exact fun htrue => h.cut_iff.mp htrue hall
  have hnew : lineEntries ((capped cap entries).1 ++ [.line line]) =
      lineEntries (entries ++ [.line line]) := by
    rw [lineEntries_append, lineEntries_append, hall]
  constructor <;> rw [hcapped]
  · exact hnew ▸ List.prefix_rfl
  · rw [noteEntries_append, noteEntries_append, h.everyNote]
  · exact iff_of_false (hcut ▸ Bool.false_ne_true) (not_not_intro hnew)
  · exact fun hne => absurd hnew hne
  · intro before l after heq hlen
    rcases concat_cases heq with ⟨after', hold⟩ | ⟨rfl, -⟩
    · refine h.full before l after' hold (le_trans ?_ hlen)
      simp
    · rw [hnew, lineEntries_append, List.length_append] at hlen
      exact absurd hlen (by simp [lineEntries])
  · intro before l after heq
    rcases concat_cases heq with ⟨after', hold⟩ | ⟨rfl, -⟩
    · exact h.room before l after' hold
    · exact hroom

/-- A line that finds none. -/
theorem KeptLog.drop (h : KeptLog cap entries) (line : List UInt8)
    (hfull : cap ≤ (text (capped cap entries).1).length) :
    KeptLog cap (entries ++ [.line line]) := by
  have hcapped : capped cap (entries ++ [.line line]) = ((capped cap entries).1, true) := by
    rw [capped_concat, capStep, if_pos hfull]
  have hlines : lineEntries (entries ++ [.line line]) = lineEntries entries ++ [line] :=
    lineEntries_append _ _
  have hne : lineEntries (capped cap entries).1 ≠ lineEntries (entries ++ [.line line]) := by
    intro heq
    have hle := h.beginning.length_le
    rw [heq, hlines, List.length_append, List.length_singleton] at hle
    omega
  constructor <;> rw [hcapped]
  · rw [hlines]
    exact h.beginning.trans (List.prefix_append _ _)
  · rw [noteEntries_append, h.everyNote]
    exact (List.append_nil _).symm
  · exact iff_of_true rfl hne
  · exact fun _ => hfull
  · intro before l after heq hlen
    rcases concat_cases heq with ⟨after', hold⟩ | ⟨rfl, -⟩
    · exact h.full before l after' hold hlen
    · exact hfull
  · exact h.room

theorem KeptLog.note (h : KeptLog cap entries) (note : List UInt8) :
    KeptLog cap (entries ++ [.note note]) := by
  have hcapped : capped cap (entries ++ [.note note]) =
      ((capped cap entries).1 ++ [.note note], (capped cap entries).2) := capped_concat cap _ _
  have hsame : ∀ es : List Entry, lineEntries (es ++ [.note note]) = lineEntries es := fun es =>
    (lineEntries_append _ _).trans (List.append_nil _)
  constructor <;> rw [hcapped]
  · rw [hsame, hsame]
    exact h.beginning
  · rw [noteEntries_append, noteEntries_append, h.everyNote]
  · rw [hsame, hsame]
    exact h.cut_iff
  · intro hne
    rw [hsame, hsame] at hne
    have hfull := h.stays hne
    rw [text_append, List.length_append]
    omega
  · intro before l after heq hlen
    rw [hsame] at hlen
    rcases concat_cases heq with ⟨after', hold⟩ | ⟨-, hfalse⟩
    · exact h.full before l after' hold hlen
    · cases hfalse
  · intro before l after heq
    rcases concat_cases heq with ⟨after', hold⟩ | ⟨-, hfalse⟩
    · exact h.room before l after' hold
    · cases hfalse

theorem keptLog (cap : ℕ) (entries : List Entry) : KeptLog cap entries := by
  induction entries using List.reverseRecOn with
  | nil => exact keptLog_nil cap
  | append_singleton entries e ih =>
    cases e with
    | line line =>
      rcases Nat.lt_or_ge (text (capped cap entries).1).length cap with hroom | hfull
      · exact ih.line line hroom
      · exact ih.drop line hfull
    | note note => exact ih.note note

end Entries

/-! ## The loop over the events -/

theorem storedLines_append {evs evs' : List NomEvent} {lines lines' : List (List UInt8)}
    (h : storedLines evs = some lines) (h' : storedLines evs' = some lines') :
    storedLines (evs ++ evs') = some (lines ++ lines') := by
  induction evs generalizing lines with
  | nil =>
    obtain rfl := Option.some.inj h
    exact h'
  | cons ev evs ih =>
    simp only [storedLines, Option.bind_eq_bind, Option.bind_eq_some_iff, Option.some.injEq] at h
    obtain ⟨line, hline, rest, hrest, rfl⟩ := h
    simp only [List.cons_append, storedLines, hline, ih hrest, Option.bind_eq_bind,
      Option.bind_some, List.append_assoc]

/-- **The loop leaves of its events what the cap leaves of their lines.** -/
theorem appendEvents_capStep {cap : ℕ} {flag : Bool} {evs : List NomEvent} :
    ∀ {kept : List Entry × Bool} {logBuf : List UInt8} {truncated : Bool},
      appendEvents cap (text kept.1, kept.2 || flag) evs = some (logBuf, truncated) →
      ∃ new, storedLines evs = some new ∧
        logBuf = text ((new.map .line).foldl (capStep cap) kept).1 ∧
        truncated = (((new.map .line).foldl (capStep cap) kept).2 || flag) := by
  induction evs with
  | nil =>
    intro kept logBuf truncated happ
    obtain ⟨rfl, rfl⟩ := Prod.mk.inj (Option.some.inj happ)
    exact ⟨[], rfl, rfl, rfl⟩
  | cons ev evs ih =>
    intro kept logBuf truncated happ
    rw [appendEvents, appendLogEvent] at happ
    cases hline : renderStorageLine ev with
    | none =>
      rw [hline] at happ
      cases happ
    | some line =>
      rw [hline] at happ
      simp only [Option.map_some, Option.bind_some] at happ
      cases line with
      | none =>
        obtain ⟨new, hnew, hbuf, htrunc⟩ := ih happ
        refine ⟨new, ?_, hbuf, htrunc⟩
        simp [storedLines, hline, hnew]
      | some line =>
        -- the line as an entry, and what the loop does with it
        have hstep : appendEvents cap
            (text (capStep cap kept (.line (utf8 line ++ [NomParser.newline]))).1,
              (capStep cap kept (.line (utf8 line ++ [NomParser.newline]))).2 || flag) evs =
                some (logBuf, truncated) := by
          rw [← happ, capStep]
          split
          · rfl
          · simp [text, Entry.bytes]
        obtain ⟨new, hnew, hbuf, htrunc⟩ := ih hstep
        refine ⟨(utf8 line ++ [NomParser.newline]) :: new, ?_, hbuf, htrunc⟩
        simp [storedLines, hline, hnew]

/-! ## Every run -/

/-- What the parser has answered so far, and what is written. -/
def LogTap.Heard (fromStr : String → Option Json) (acts : List LogAct) (t : LogTap) : Prop :=
  match t.pc with
  | .early => bytesOf acts = [] ∧ asksForRest acts = false ∧ t.nom = .new
  | .draining => asksForRest acts = false ∧ t.nom = (NomParser.feed fromStr .new (bytesOf acts)).1
  | .flushed => asksForRest acts = true
  | .written log => said fromStr acts = NomParser.events fromStr [bytesOf acts] ∧
      log = if t.logTruncated then t.logBuf ++ truncationMarker else t.logBuf

/-- **The locals of a run**, and the log without a cap. -/
structure LogTap.Tells (fromStr : String → Option Json) (cap : ℕ) (acts : List LogAct) (t : LogTap)
    (entries : List Entry) : Prop where
  heard : t.Heard fromStr acts
  shown : t.shown = said fromStr acts
  came : entriesFrom fromStr .new acts = some (t.nom, entries)
  lines : storedLines t.shown = some (lineEntries entries)
  notes : noteEntries entries = notesOf acts
  logBuf : t.logBuf = text (capped cap entries).1
  truncated : t.logTruncated = ((capped cap entries).2 || flagged acts)

section Runs

variable {fromStr : String → Option Json} {cap : ℕ} {acts : List LogAct} {t t' : LogTap}
  {entries : List Entry}

theorem bytesOf_concat (acts : List LogAct) (a : LogAct) :
    bytesOf (acts ++ [a]) = bytesOf acts ++ bytesOf [a] := List.flatMap_append

theorem notesOf_concat (acts : List LogAct) (a : LogAct) :
    notesOf (acts ++ [a]) = notesOf acts ++ notesOf [a] := List.flatMap_append

theorem flagged_concat (acts : List LogAct) (a : LogAct) :
    flagged (acts ++ [a]) = (flagged acts || flagged [a]) := List.any_append

theorem asksForRest_concat (acts : List LogAct) (a : LogAct) :
    asksForRest (acts ++ [a]) = (asksForRest acts || asksForRest [a]) := List.any_append

theorem entriesFrom_append {as : List LogAct} : ∀ {nom nom' : NomParser} {es : List Entry},
    entriesFrom fromStr nom as = some (nom', es) → ∀ bs : List LogAct,
      entriesFrom fromStr nom (as ++ bs) =
        (entriesFrom fromStr nom' bs).map fun (nom, es') => (nom, es ++ es') := by
  induction as with
  | nil =>
    intro nom nom' es h bs
    obtain ⟨rfl, rfl⟩ := Prod.mk.inj (Option.some.inj h)
    cases hbs : entriesFrom fromStr nom bs <;> simp [hbs]
  | cons a as ih =>
    intro nom nom' es h bs
    obtain ⟨⟨nom₁, new⟩, ha, hrest⟩ := Option.bind_eq_some_iff.mp h
    obtain ⟨⟨nom₂, es₂⟩, has, heq⟩ := Option.map_eq_some_iff.mp hrest
    obtain ⟨rfl, rfl⟩ := Prod.mk.inj heq
    rw [List.cons_append, entriesFrom, ha, Option.bind_some]
    dsimp only
    rw [ih has bs]
    cases entriesFrom fromStr nom₂ bs <;> simp

theorem entriesFrom_concat {nom nom' : NomParser} {a : LogAct} {es new : List Entry}
    (h : entriesFrom fromStr .new acts = some (nom, es))
    (ha : a.entries fromStr nom = some (nom', new)) :
    entriesFrom fromStr .new (acts ++ [a]) = some (nom', es ++ new) := by
  rw [entriesFrom_append h, entriesFrom, ha]
  simp [entriesFrom]

/-- **An act that is taken adds its entries.** -/
theorem LogTap.Tells.add {a : LogAct} {new : List Entry}
    (h : t.Tells fromStr cap acts entries) (hnew : a.entries fromStr t.nom = some (t'.nom, new))
    (hheard : t'.Heard fromStr (acts ++ [a])) (hshown : t'.shown = said fromStr (acts ++ [a]))
    (hlines : storedLines t'.shown = some (lineEntries entries ++ lineEntries new))
    (hnotes : noteEntries new = notesOf [a])
    (hbuf : t'.logBuf = text (new.foldl (capStep cap) (capped cap entries)).1)
    (htrunc : t'.logTruncated =
      ((new.foldl (capStep cap) (capped cap entries)).2 || (flagged acts || flagged [a]))) :
    t'.Tells fromStr cap (acts ++ [a]) (entries ++ new) where
  heard := hheard
  shown := hshown
  came := entriesFrom_concat h.came hnew
  lines := by rw [hlines, lineEntries_append]
  notes := by rw [noteEntries_append, h.notes, hnotes, notesOf_concat]
  logBuf := by rw [capped_append, hbuf]
  truncated := by rw [capped_append, htrunc, flagged_concat]

/-- An act without an entry, which leaves the buffer and what was shown. -/
theorem LogTap.Tells.quiet {a : LogAct} (h : t.Tells fromStr cap acts entries)
    (hnew : a.entries fromStr t.nom = some (t'.nom, [])) (hnotes : notesOf [a] = [])
    (hbytes : bytesOf [a] = []) (hasks : asksForRest [a] = false) (hshown : t'.shown = t.shown)
    (hbuf : t'.logBuf = t.logBuf) (htrunc : t'.logTruncated = (t.logTruncated || flagged [a]))
    (hheard : t'.Heard fromStr (acts ++ [a])) :
    t'.Tells fromStr cap (acts ++ [a]) entries := by
  have hsaid : said fromStr (acts ++ [a]) = said fromStr acts := by
    rw [said, said, asksForRest_concat, hasks, Bool.or_false, bytesOf_concat, hbytes,
      List.append_nil]
  have hadd := h.add hnew hheard (by rw [hshown, h.shown, hsaid])
    (by rw [hshown, h.lines]; exact (congrArg some (List.append_nil _)).symm) hnotes.symm
    (by rw [hbuf, h.logBuf]; rfl)
    (by rw [htrunc, h.truncated, Bool.or_assoc]; rfl)
  rwa [List.append_nil] at hadd

/-- The parser's answer goes through the loop. -/
theorem LogTap.Tells.take {answer : NomParser × List NomEvent}
    (h : t.Tells fromStr cap acts entries) (htake : t.take cap answer = some t') :
    t'.pc = t.pc ∧ t'.nom = answer.1 ∧ t'.shown = t.shown ++ answer.2 ∧
      ∃ new, storedLines answer.2 = some new ∧
        t'.logBuf = text ((new.map .line).foldl (capStep cap) (capped cap entries)).1 ∧
        t'.logTruncated =
          (((new.map .line).foldl (capStep cap) (capped cap entries)).2 || flagged acts) := by
  obtain ⟨⟨logBuf, truncated⟩, happ, rfl⟩ := Option.map_eq_some_iff.mp htake
  rw [h.logBuf, h.truncated] at happ
  obtain ⟨new, hnew, hbuf, htrunc⟩ := appendEvents_capStep happ
  exact ⟨rfl, rfl, rfl, new, hnew, hbuf, htrunc⟩

theorem LogTap.Tells.step {a : LogAct} (h : t.Tells fromStr cap acts entries)
    (hstep : t.step fromStr cap a = some t') :
    ∃ entries', t'.Tells fromStr cap (acts ++ [a]) entries' := by
  have hheard := h.heard
  cases a with
  | dispatched =>
    simp only [LogTap.step] at hstep
    split at hstep
    · rename_i hpc
      obtain rfl := Option.some.inj hstep
      rw [LogTap.Heard, hpc] at hheard
      obtain ⟨hbytes, hasks, hnom⟩ := hheard
      refine ⟨entries, h.quiet rfl rfl rfl rfl rfl rfl (Bool.or_false _).symm ⟨?_, ?_⟩⟩
      · rw [asksForRest_concat, hasks]
        rfl
      · show t.nom = _
        rw [hnom, bytesOf_concat, hbytes]
        rfl
    · cases hstep
  | chunk bytes =>
    simp only [LogTap.step] at hstep
    split at hstep
    · rename_i hpc
      obtain ⟨hpc', hnom, hshown, new, hnew, hbuf, htrunc⟩ := h.take hstep
      rw [LogTap.Heard, hpc] at hheard
      obtain ⟨hasks, hparser⟩ := hheard
      have hnone : asksForRest (acts ++ [.chunk bytes]) = false := by
        rw [asksForRest_concat, hasks]
        rfl
      have hfeed : NomParser.feed fromStr .new (bytesOf (acts ++ [.chunk bytes])) =
          ((t.nom.feed fromStr bytes).1,
            (NomParser.feed fromStr .new (bytesOf acts)).2 ++ (t.nom.feed fromStr bytes).2) := by
        rw [bytesOf_concat, show bytesOf [.chunk bytes] = bytes from List.append_nil _,
          NomParser.feed_append, ← hparser]
      refine ⟨entries ++ new.map .line, h.add ?_ ?_ ?_ ?_ (noteEntries_map_line _) hbuf ?_⟩
      · rw [LogAct.entries, hnew, Option.map_some, hnom]
      · rw [LogTap.Heard, hpc', hpc]
        exact ⟨hnone, by rw [hnom, hfeed]⟩
      · rw [hshown, h.shown, said, said, hasks, hnone, hfeed]
        rfl
      · rw [hshown, lineEntries_map_line]
        exact storedLines_append h.lines hnew
      · rw [htrunc]
        exact congrArg _ (Bool.or_false _).symm
    · cases hstep
  | note text =>
    simp only [LogTap.step] at hstep
    split at hstep
    · cases hstep
    · rename_i hopen
      obtain rfl := Option.some.inj hstep
      have hbytes : bytesOf (acts ++ [.note text]) = bytesOf acts := by
        rw [bytesOf_concat]
        exact List.append_nil _
      have hasks : asksForRest (acts ++ [.note text]) = asksForRest acts := by
        rw [asksForRest_concat]
        exact Bool.or_false _
      refine ⟨entries ++ [.note text], h.add rfl ?_ ?_ ?_ rfl ?_ ?_⟩
      · cases hpc : t.pc with
        | written log => exact absurd hpc (hopen log)
        | early | draining | flushed =>
          rw [LogTap.Heard, hpc] at hheard
          simp only [LogTap.Heard, hbytes, hasks]
          exact hheard
      · show t.shown = _
        rw [h.shown, said, said, hbytes, hasks]
      · show storedLines t.shown = _
        rw [h.lines]
        exact (congrArg some (List.append_nil _)).symm
      · show t.logBuf ++ text = _
        rw [h.logBuf]
        simp [capStep, Daemon.text, Entry.bytes]
      · show t.logTruncated = _
        rw [h.truncated]
        exact congrArg _ (Bool.or_false _).symm
  | finished logTruncated =>
    simp only [LogTap.step] at hstep
    split at hstep
    · rename_i hpc
      obtain rfl := Option.some.inj hstep
      rw [LogTap.Heard, hpc] at hheard
      obtain ⟨hasks, hnom⟩ := hheard
      refine ⟨entries, h.quiet rfl rfl rfl rfl rfl rfl ?_ ?_⟩
      · rw [show flagged [.finished logTruncated] = logTruncated from Bool.or_false _]
      · simp only [LogTap.Heard, hpc]
        refine ⟨?_, ?_⟩
        · rw [asksForRest_concat, hasks]
          rfl
        · rw [hnom, bytesOf_concat, show bytesOf [.finished logTruncated] = [] from rfl,
            List.append_nil]
    · cases hstep
  | flush =>
    simp only [LogTap.step] at hstep
    split at hstep
    · rename_i hpc
      obtain ⟨t₁, htake, rfl⟩ := Option.map_eq_some_iff.mp hstep
      obtain ⟨-, hnom, hshown, new, hnew, hbuf, htrunc⟩ := h.take htake
      rw [LogTap.Heard, hpc] at hheard
      obtain ⟨hasks, hparser⟩ := hheard
      have hall : asksForRest (acts ++ [.flush]) = true := by
        rw [asksForRest_concat]
        exact Bool.or_true _
      have hbytes : bytesOf (acts ++ [.flush]) = bytesOf acts := by
        rw [bytesOf_concat]
        exact List.append_nil _
      refine ⟨entries ++ new.map .line, h.add ?_ hall ?_ ?_ (noteEntries_map_line _) hbuf ?_⟩
      · rw [LogAct.entries, hnew, Option.map_some, ← hnom]
      · show t₁.shown = _
        rw [hshown, h.shown, said, said, hasks, hall, hbytes, if_pos rfl, NomParser.events,
          NomParser.feedAll_new, show [bytesOf acts].flatten = bytesOf acts from List.append_nil _,
          hparser]
        rfl
      · show storedLines t₁.shown = _
        rw [hshown, lineEntries_map_line]
        exact storedLines_append h.lines hnew
      · show t₁.logTruncated = _
        rw [htrunc]
        exact congrArg _ (Bool.or_false _).symm
    · cases hstep
  | write =>
    simp only [LogTap.step] at hstep
    split at hstep
    · rename_i hpc
      obtain rfl := Option.some.inj hstep
      have hbytes : bytesOf (acts ++ [.write]) = bytesOf acts := by
        rw [bytesOf_concat]
        exact List.append_nil _
      have hasks : asksForRest (acts ++ [.write]) = asksForRest acts := by
        rw [asksForRest_concat]
        exact Bool.or_false _
      refine ⟨entries, h.quiet rfl rfl rfl rfl rfl rfl (Bool.or_false _).symm ⟨?_, rfl⟩⟩
      rw [said, hbytes, hasks]
      rcases hpc with hpc | hpc
      · rw [LogTap.Heard, hpc] at hheard
        rw [hheard.1, hheard.2.1]
        rfl
      · rw [LogTap.Heard, hpc] at hheard
        rw [hheard, if_pos rfl]
    · cases hstep

theorem LogRun.tells (h : LogRun fromStr cap acts t) :
    ∃ entries, t.Tells fromStr cap acts entries := by
  induction h with
  | start => exact ⟨[], ⟨rfl, rfl, rfl⟩, rfl, rfl, rfl, rfl, rfl, rfl⟩
  | step _ hstep ih =>
    obtain ⟨entries, ht⟩ := ih
    exact ht.step hstep

/-- A beginning of a run is a run. -/
theorem LogRun.of_prefix {before : List LogAct} (h : LogRun fromStr cap acts t) :
    ∀ {rest : List LogAct}, acts = before ++ rest → ∃ t₀, LogRun fromStr cap before t₀ := by
  induction h with
  | start =>
    intro rest heq
    obtain ⟨rfl, -⟩ := List.append_eq_nil_iff.mp heq.symm
    exact ⟨_, .start⟩
  | step hrun hstep ih =>
    intro rest heq
    rcases List.eq_nil_or_concat' rest with rfl | ⟨rest', last, rfl⟩
    · rw [List.append_nil] at heq
      exact ⟨_, heq ▸ hrun.step hstep⟩
    · rw [← List.append_assoc] at heq
      exact ih (List.append_inj' heq rfl).1

/-- **A note stands behind the lines that the bytes before it had made**, and in front of what came
    later. -/
theorem LogRun.note_placed (h : LogRun fromStr cap acts t)
    (hall : entriesOf fromStr acts = some entries) {before after : List LogAct} {note : List UInt8}
    (hacts : acts = before ++ .note note :: after) :
    ∃ soFar, entriesOf fromStr before = some soFar ∧
      storedLines (said fromStr before) = some (lineEntries soFar) ∧
      soFar ++ [.note note] <+: entries ∧
      (capped cap soFar).1 ++ [.note note] <+: (capped cap entries).1 := by
  obtain ⟨t₀, h₀⟩ := h.of_prefix hacts
  obtain ⟨soFar, hsoFar⟩ := h₀.tells
  have hbegins : soFar ++ [.note note] <+: entries := by
    rw [hacts, entriesOf, entriesFrom_append hsoFar.came, entriesFrom] at hall
    obtain ⟨⟨nom, es⟩, hes, rfl⟩ := Option.map_eq_some_iff.mp hall
    obtain ⟨⟨nom', later⟩, hlater, heq⟩ := Option.map_eq_some_iff.mp hes
    obtain ⟨⟨nom'', es''⟩, hrest, heq'⟩ := Option.map_eq_some_iff.mp hlater
    obtain ⟨rfl, rfl⟩ := Prod.mk.inj heq'
    obtain ⟨rfl, rfl⟩ := Prod.mk.inj heq
    exact ⟨es'', by simp⟩
  refine ⟨soFar, ?_, ?_, hbegins, ?_⟩
  · rw [entriesOf, hsoFar.came]
    rfl
  · rw [← hsoFar.shown]
    exact hsoFar.lines
  · have hcapped := capped_prefix cap hbegins
    rwa [capped_concat] at hcapped

/-- **What was shown and what is stored are the same log.** However the bytes were cut into
    chunks, the events that went to the live viewers are those of the bytes as a whole. The stored
    log is what the cap leaves of their lines and of the notes of the coordinator, each of which
    follows the lines of the bytes before it; a line is left out only where the log is full; and it
    ends in the marker exactly if a line is missing, here or on the builder. -/
theorem stored_of_run {log : List UInt8} (h : LogRun fromStr cap acts t)
    (hwritten : t.pc = .written log) :
    t.shown = NomParser.events fromStr [bytesOf acts] ∧
      ∃ entries, entriesOf fromStr acts = some entries ∧
        storedLines (NomParser.events fromStr [bytesOf acts]) = some (lineEntries entries) ∧
        noteEntries entries = notesOf acts ∧
        (∀ before note after, acts = before ++ .note note :: after →
          ∃ soFar, entriesOf fromStr before = some soFar ∧
            storedLines (said fromStr before) = some (lineEntries soFar) ∧
            soFar ++ [.note note] <+: entries ∧
            (capped cap soFar).1 ++ [.note note] <+: (capped cap entries).1) ∧
        KeptLog cap entries ∧
        log = text (capped cap entries).1 ++
          if (capped cap entries).2 || flagged acts then truncationMarker else [] := by
  obtain ⟨entries, ht⟩ := h.tells
  have hheard := ht.heard
  rw [LogTap.Heard, hwritten] at hheard
  obtain ⟨hsaid, hlog⟩ := hheard
  have hall : entriesOf fromStr acts = some entries := by
    rw [entriesOf, ht.came]
    rfl
  refine ⟨ht.shown.trans hsaid, entries, hall, ?_, ht.notes,
    fun _ _ _ hacts => h.note_placed hall hacts, keptLog cap entries, ?_⟩
  · rw [← hsaid, ← ht.shown]
    exact ht.lines
  · rw [hlog, ht.truncated, ht.logBuf]
    split
    · rfl
    · rw [List.append_nil]

/-- The locals after a list of acts. -/
def LogTap.runActs (fromStr : String → Option Json) (cap : ℕ) (t : LogTap) :
    List LogAct → Option LogTap
  | [] => some t
  | a :: as => (t.step fromStr cap a).bind fun t => runActs fromStr cap t as

theorem LogRun.runActs {as : List LogAct} : ∀ {acts : List LogAct} {t : LogTap},
    LogRun fromStr cap acts t → t.runActs fromStr cap as = some t' →
      LogRun fromStr cap (acts ++ as) t' := by
  induction as with
  | nil =>
    intro acts t h hrun
    obtain rfl := Option.some.inj hrun
    rw [List.append_nil]
    exact h
  | cons a as ih =>
    intro acts t h hrun
    obtain ⟨t₁, hstep, hrest⟩ := Option.bind_eq_some_iff.mp hrun
    rw [List.append_cons]
    exact ih (h.step hstep) hrest

end Runs

/-- Three lines in two chunks, cut in the middle of the second, and a note in between; there is room
    for two lines. -/
def threeLines : List LogAct :=
  [.dispatched, .chunk [97, 10, 98], .note [33], .chunk [98, 10, 99], .finished false, .flush,
    .write]

/-- What is stored of them, without the marker: the note is behind the first line. -/
def twoOfThree : List UInt8 := [97, 10, 33, 98, 98, 10]

theorem stored_of_run_threeLines :
    ∃ entries, entriesOf (fun _ => none) threeLines = some entries ∧
      storedLines (NomParser.events (fun _ => none) [[97, 10, 98, 98, 10, 99]]) =
        some (lineEntries entries) ∧
      (∃ soFar, storedLines (said (fun _ => none) [.dispatched, .chunk [97, 10, 98]]) =
        some (lineEntries soFar) ∧
          (capped 4 soFar).1 ++ [.note [33]] <+: (capped 4 entries).1) ∧
      KeptLog 4 entries ∧
      twoOfThree ++ truncationMarker = text (capped 4 entries).1 ++
        if (capped 4 entries).2 || false then truncationMarker else [] := by
  have hrun : (LogTap.start.runActs (fun _ => none) 4 threeLines).map LogTap.pc =
      some (.written (twoOfThree ++ truncationMarker)) := by decide +kernel
  obtain ⟨t, ht, hpc⟩ := Option.map_eq_some_iff.mp hrun
  obtain ⟨-, entries, hall, hlines, -, hnotes, hkept, hlog⟩ :=
    stored_of_run (LogRun.start.runActs ht) hpc
  obtain ⟨soFar, -, hsoFar, -, hplaced⟩ := hnotes [.dispatched, .chunk [97, 10, 98]] [33] _ rfl
  exact ⟨entries, hall, hlines, ⟨soFar, hsoFar, hplaced⟩, hkept, hlog⟩

end Argunix.Daemon
