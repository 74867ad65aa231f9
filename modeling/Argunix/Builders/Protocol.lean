import Mathlib.Data.List.Flatten
import Argunix.Builders.Registry
import Argunix.Lib.Lines
import Argunix.Lib.JsonText

/-!
# `argunix-builders`: the control channel

The coordinator and the agent talk in JSON, one message a line. SSH delivers what was sent in chunks
that respect no boundary, so the receiver keeps what it has of a line in a `LineFramer` and takes
the complete lines out as they come.

The buffer is bounded: a chunk that would take it over four times the longest line is thrown away,
and the buffer with it. **A sender that keeps to the longest line never gets there**
(`feed_encodeLine`): what is left in the buffer is shorter than a line, and a chunk of up to twice
that length still fits.

What is not in the repository is `serde_json`. How it writes is given here, except for the digits of
an `f32`; how it reads is a parameter.
-/

set_option autoImplicit false

namespace Argunix.Builders.Protocol

open Argunix.Lib
open Argunix.Lib.JsonText (Bytes utf8)

/-! ## Messages -/

/-- An `f32` is given by its bits. -/
structure BuilderStats where
  load1 : UInt32
  cpuPercent : UInt32
  memUsedBytes : UInt64
  memTotalBytes : UInt64
deriving DecidableEq, Repr

/-- The verdict of a `BuildFinished`. -/
inductive BuildOutcomeStatus
  | success
  | failure
  | timeout
  | killed
  | spawnFailed
deriving DecidableEq, Repr

/-- The messages of the control channel, in both directions. -/
inductive ControlMessage
  | hello (name : BuilderName) (systems : List String) (nativeSystem : String)
      (features : List String) (maxJobs : UInt32) (nixVersion : String)
  | welcome (builderId : String)
  | heartbeat (ts : Int64) (stats : Option BuilderStats)
  | shutdown (reason : String) (drain : Bool)
  | kick (reason : String)
  | build (buildId : Int64) (drvPath : String) (gcRoot : Option String) (timeoutSecs : UInt64)
      (maxLogBytes : UInt64)
  | buildStarted (buildId : Int64) (pid : Option UInt32)
  | buildLogChunk (buildId : Int64) (bytesB64 : String)
  | buildFinished (buildId : Int64) (status : BuildOutcomeStatus) (exitCode : Option Int32)
      (outputPaths : List String) (logTruncated : Bool)
  | abort (buildId : Int64)
deriving DecidableEq

/-- What the protocol takes from `serde_json`. -/
structure SerdeJson (E : Type) where
  writeF32 : UInt32 → Bytes
  fromStr : String → Except E ControlMessage

/-! ## Writing -/

namespace SerdeJson

variable {E : Type} (serde : SerdeJson E)

/-- A string. -/
def writeStr (s : String) : Bytes := JsonText.string (utf8 s)

/-- A list of strings. -/
def writeStrs (ss : List String) : Bytes := JsonText.array (ss.map writeStr)

/-- The figures of a heartbeat. -/
def writeStats (s : BuilderStats) : Bytes :=
  JsonText.object [
    ("load1", serde.writeF32 s.load1),
    ("cpu_percent", serde.writeF32 s.cpuPercent),
    ("mem_used_bytes", JsonText.nat s.memUsedBytes.toNat),
    ("mem_total_bytes", JsonText.nat s.memTotalBytes.toNat)]

/-- A verdict, in snake case. -/
def writeStatus : BuildOutcomeStatus → Bytes
  | .success => writeStr "success"
  | .failure => writeStr "failure"
  | .timeout => writeStr "timeout"
  | .killed => writeStr "killed"
  | .spawnFailed => writeStr "spawn_failed"

/-- A number with a sign. -/
def writeInt64 (n : Int64) : Bytes := JsonText.int n.toInt

/-- The members of the object: `type` names the variant, its fields come after. -/
def members : ControlMessage → List (String × Bytes)
  | .hello name systems nativeSystem features maxJobs nixVersion => [
      ("type", writeStr "hello"),
      ("name", writeStr name.asStr),
      ("systems", writeStrs systems),
      ("native_system", writeStr nativeSystem),
      ("features", writeStrs features),
      ("max_jobs", JsonText.nat maxJobs.toNat),
      ("nix_version", writeStr nixVersion)]
  | .welcome builderId => [
      ("type", writeStr "welcome"),
      ("builder_id", writeStr builderId)]
  | .heartbeat ts stats => [
      ("type", writeStr "heartbeat"),
      ("ts", writeInt64 ts),
      ("stats", JsonText.option serde.writeStats stats)]
  | .shutdown reason drain => [
      ("type", writeStr "shutdown"),
      ("reason", writeStr reason),
      ("drain", JsonText.bool drain)]
  | .kick reason => [
      ("type", writeStr "kick"),
      ("reason", writeStr reason)]
  | .build buildId drvPath gcRoot timeoutSecs maxLogBytes => [
      ("type", writeStr "build"),
      ("build_id", writeInt64 buildId),
      ("drv_path", writeStr drvPath),
      ("gc_root", JsonText.option writeStr gcRoot),
      ("timeout_secs", JsonText.nat timeoutSecs.toNat),
      ("max_log_bytes", JsonText.nat maxLogBytes.toNat)]
  | .buildStarted buildId pid => [
      ("type", writeStr "build_started"),
      ("build_id", writeInt64 buildId),
      ("pid", JsonText.option (fun n => JsonText.nat n.toNat) pid)]
  | .buildLogChunk buildId bytesB64 => [
      ("type", writeStr "build_log_chunk"),
      ("build_id", writeInt64 buildId),
      ("bytes_b64", writeStr bytesB64)]
  | .buildFinished buildId status exitCode outputPaths logTruncated => [
      ("type", writeStr "build_finished"),
      ("build_id", writeInt64 buildId),
      ("status", writeStatus status),
      ("exit_code", JsonText.option (fun n => JsonText.int n.toInt) exitCode),
      ("output_paths", writeStrs outputPaths),
      ("log_truncated", JsonText.bool logTruncated)]
  | .abort buildId => [
      ("type", writeStr "abort"),
      ("build_id", writeInt64 buildId)]

/-- `serde_json::to_vec` -/
def toVec (m : ControlMessage) : Bytes := JsonText.object (serde.members m)

/-- `ControlMessage::encode_line` -/
def encodeLine (m : ControlMessage) : Bytes := serde.toVec m ++ [10]

/-- The digits of a number hold no line break. -/
def OneLine : Prop := ∀ bits, 10 ∉ serde.writeF32 bits

theorem newline_not_mem_writeStrs (ss : List String) : 10 ∉ writeStrs ss := by
  refine JsonText.newline_not_mem_array fun v hv => ?_
  obtain ⟨s, -, rfl⟩ := List.mem_map.mp hv
  exact JsonText.newline_not_mem_string _

theorem newline_not_mem_writeStats (h : serde.OneLine) (s : BuilderStats) :
    10 ∉ serde.writeStats s := by
  refine JsonText.newline_not_mem_object fun m hm => ?_
  simp only [List.mem_cons, List.not_mem_nil, or_false] at hm
  rcases hm with rfl | rfl | rfl | rfl
  · exact h _
  · exact h _
  · exact JsonText.newline_not_mem_nat _
  · exact JsonText.newline_not_mem_nat _

theorem newline_not_mem_writeStatus (s : BuildOutcomeStatus) : 10 ∉ writeStatus s := by
  cases s <;> exact JsonText.newline_not_mem_string _

/-- **A message is one line.** -/
theorem newline_not_mem_toVec (h : serde.OneLine) (m : ControlMessage) : 10 ∉ serde.toVec m := by
  have hstr : ∀ s, 10 ∉ writeStr s := fun s => JsonText.newline_not_mem_string _
  have hint : ∀ n, 10 ∉ writeInt64 n := fun n => JsonText.newline_not_mem_int _
  have hnat := JsonText.newline_not_mem_nat
  have hbool := JsonText.newline_not_mem_bool
  have hstrs := newline_not_mem_writeStrs
  refine JsonText.newline_not_mem_object ?_
  cases m with
  | hello | welcome | shutdown | kick | abort | buildLogChunk =>
    simp [members, hstr, hint, hnat, hbool, hstrs]
  | heartbeat ts stats =>
    have := JsonText.newline_not_mem_option (serde.newline_not_mem_writeStats h) stats
    simp [members, hstr, hint, this]
  | build buildId drvPath gcRoot timeoutSecs maxLogBytes =>
    have := JsonText.newline_not_mem_option hstr gcRoot
    simp [members, hstr, hint, hnat, this]
  | buildStarted buildId pid =>
    have := JsonText.newline_not_mem_option (fun n : UInt32 => hnat n.toNat) pid
    simp [members, hstr, hint, this]
  | buildFinished buildId status exitCode outputPaths logTruncated =>
    have := JsonText.newline_not_mem_option
      (fun n : Int32 => JsonText.newline_not_mem_int n.toInt) exitCode
    simp [members, hstr, hint, hbool, hstrs, newline_not_mem_writeStatus, this]

end SerdeJson

/-! ## Reading -/

/-- Why a line is no message. -/
inductive ProtocolError (E : Type)
  | notUtf8
  | json (e : E)
  | lineTooLong (len cap : ℕ)
deriving DecidableEq, Repr

/-- `MAX_LINE_BYTES` -/
def maxLineBytes : ℕ := 64 * 1024

/-- `std::str::from_utf8` -/
def fromUtf8 (line : Bytes) : Option String := String.fromUTF8? ⟨line.toArray⟩

/-- What has come in without a newline. -/
structure LineFramer where
  buf : Bytes
deriving DecidableEq, Repr

namespace LineFramer

variable {E : Type} (serde : SerdeJson E)

/-- Nothing has. -/
def new : LineFramer := ⟨[]⟩

/-- What one line gives. An empty one gives nothing. -/
def readLine (line : Bytes) : Option (Except (ProtocolError E) ControlMessage) :=
  if line.isEmpty then none
  else if line.length > maxLineBytes then
    some (.error (.lineTooLong line.length maxLineBytes))
  else match fromUtf8 line with
    | none => some (.error .notUtf8)
    | some s => match serde.fromStr s with
      | .ok m => some (.ok m)
      | .error e => some (.error (.json e))

/-- The loop: what it pushes, and what it leaves in the buffer. -/
def drain (buf : Bytes) : List (Except (ProtocolError E) ControlMessage) × Bytes :=
  match _h : buf.findIdx? (· = 10) with
  | none => ([], buf)
  | some pos =>
    let (out, left) := drain (buf.drop (pos + 1))
    ((readLine serde (buf.take pos)).toList ++ out, left)
termination_by buf.length
decreasing_by
  obtain ⟨hlt, -⟩ := List.findIdx?_eq_some_iff_getElem.mp _h
  rw [List.length_drop]
  omega

/-- `LineFramer::extend` -/
def extend (framer : LineFramer) (chunk : Bytes) :
    List (Except (ProtocolError E) ControlMessage) × LineFramer :=
  if framer.buf.length + chunk.length > maxLineBytes * 4 then
    ([.error (.lineTooLong chunk.length maxLineBytes)], ⟨[]⟩)
  else
    let (out, left) := drain serde (framer.buf ++ chunk)
    (out, ⟨left⟩)

/-- One chunk after the other. -/
def feed (framer : LineFramer) :
    List Bytes → List (Except (ProtocolError E) ControlMessage) × LineFramer
  | [] => ([], framer)
  | chunk :: chunks =>
    let (out, framer) := framer.extend serde chunk
    let (out', framer) := framer.feed chunks
    (out ++ out', framer)

/-- The loop takes the lines of the buffer. -/
theorem drain_eq (buf : Bytes) :
    drain serde buf =
      ((splitLines 10 buf).1.filterMap (readLine serde), (splitLines 10 buf).2) := by
  induction buf using lines_induction (10 : UInt8) with
  | hrest s h =>
    have hnone : s.findIdx? (· = 10) = none := by
      refine List.findIdx?_eq_none_iff.mpr fun x hx => decide_eq_false fun heq => ?_
      exact h (heq ▸ hx)
    rw [drain, splitLines_of_not_mem h]
    split
    · rfl
    · rename_i pos hpos
      exact absurd (hpos.symm.trans hnone) (by simp)
  | hline l t hl ih =>
    have hpos : (l ++ 10 :: t).findIdx? (· = 10) = some l.length := by
      refine List.findIdx?_eq_some_iff_getElem.mpr ⟨by simp, by simp, fun j hj => ?_⟩
      rw [List.getElem_append_left hj]
      intro heq
      exact hl (of_decide_eq_true heq ▸ List.getElem_mem hj)
    rw [drain, splitLines_line hl]
    split
    · rename_i hnone
      exact absurd (hpos.symm.trans hnone) (by simp)
    · rename_i pos hpos'
      obtain rfl := Option.some.inj (hpos'.symm.trans hpos)
      have hdrop : (l ++ 10 :: t).drop (l.length + 1) = t := by simp
      rw [hdrop, List.take_left, ih]
      cases hr : readLine serde l <;> simp [hr]

theorem extend_of_gt {framer : LineFramer} {chunk : Bytes}
    (h : maxLineBytes * 4 < framer.buf.length + chunk.length) :
    framer.extend serde chunk = ([.error (.lineTooLong chunk.length maxLineBytes)], ⟨[]⟩) :=
  if_pos h

theorem extend_of_le {framer : LineFramer} {chunk : Bytes}
    (h : framer.buf.length + chunk.length ≤ maxLineBytes * 4) :
    framer.extend serde chunk =
      ((splitLines 10 (framer.buf ++ chunk)).1.filterMap (readLine serde),
        ⟨(splitLines 10 (framer.buf ++ chunk)).2⟩) := by
  rw [extend, if_neg (Nat.not_lt.mpr h), drain_eq]

theorem feed_cons (framer : LineFramer) (chunk : Bytes) (chunks : List Bytes) :
    framer.feed serde (chunk :: chunks) =
      ((framer.extend serde chunk).1 ++ ((framer.extend serde chunk).2.feed serde chunks).1,
        ((framer.extend serde chunk).2.feed serde chunks).2) := rfl

end LineFramer

/-! ## The round trip -/

/-- `serde_json` reads back what it wrote. -/
def SerdeJson.Inverts {E : Type} (serde : SerdeJson E) (m : ControlMessage) : Prop :=
  ∃ s, fromUtf8 (serde.toVec m) = some s ∧ serde.fromStr s = .ok m

section

variable {E : Type} {serde : SerdeJson E}

theorem readLine_toVec {m : ControlMessage} (hinv : serde.Inverts m)
    (hlen : (serde.toVec m).length ≤ maxLineBytes) :
    LineFramer.readLine serde (serde.toVec m) = some (.ok m) := by
  obtain ⟨s, hutf8, hread⟩ := hinv
  have hne : (serde.toVec m).isEmpty = false :=
    List.isEmpty_eq_false_iff.mpr (JsonText.object_ne_nil _)
  rw [LineFramer.readLine, if_neg (by simp [hne]), if_neg (Nat.not_lt.mpr hlen), hutf8]
  show (match serde.fromStr s with | .ok m => _ | .error e => _) = _
  rw [hread]

theorem splitLines_encodeLine (h : serde.OneLine) (ms : List ControlMessage) :
    splitLines 10 (ms.flatMap serde.encodeLine) = (ms.map serde.toVec, []) := by
  induction ms with
  | nil => rfl
  | cons m ms ih =>
    rw [List.flatMap_cons, SerdeJson.encodeLine, List.append_assoc, List.singleton_append,
      splitLines_line (serde.newline_not_mem_toVec h m), ih]
    rfl

/-- What is left of a line is no longer than the line. -/
theorem length_le_of_lines {r t : Bytes} {ls : List Bytes} {n : ℕ} (hr : 10 ∉ r)
    (hsplit : splitLines 10 (r ++ t) = (ls, [])) (hls : ∀ l ∈ ls, l.length ≤ n) :
    r.length ≤ n := by
  cases ls with
  | nil =>
    have hnone := splitLines_of_no_lines (congrArg Prod.fst hsplit)
    rw [splitLines_of_not_mem hnone, Prod.mk.injEq, List.append_eq_nil_iff] at hsplit
    rw [hsplit.2.1]
    exact Nat.zero_le n
  | cons l ls =>
    have hlonger := length_le_of_first_line hr (congrArg Prod.fst hsplit)
    exact hlonger.trans (hls l List.mem_cons_self)

/-- From any buffer: the rest of the stream, with what is in the buffer before it, is the lines of
    the messages that are still to come. -/
theorem feed_lines {ms : List ControlMessage} {chunks : List Bytes} {r : Bytes}
    (hinv : ∀ m ∈ ms, serde.Inverts m) (hlen : ∀ m ∈ ms, (serde.toVec m).length ≤ maxLineBytes)
    (hchunk : ∀ c ∈ chunks, c.length ≤ 128 * 1024) (hr : 10 ∉ r)
    (hsplit : splitLines 10 (r ++ chunks.flatten) = (ms.map serde.toVec, [])) :
    LineFramer.feed serde ⟨r⟩ chunks = (ms.map .ok, ⟨[]⟩) := by
  induction chunks generalizing r ms with
  | nil =>
    rw [List.flatten_nil, List.append_nil, splitLines_of_not_mem hr, Prod.mk.injEq] at hsplit
    obtain rfl := List.map_eq_nil_iff.mp hsplit.1.symm
    rw [hsplit.2]
    rfl
  | cons c cs ih =>
    have hshort : r.length ≤ maxLineBytes := by
      refine length_le_of_lines hr hsplit fun l hl => ?_
      obtain ⟨m, hm, rfl⟩ := List.mem_map.mp hl
      exact hlen m hm
    have hc := hchunk c List.mem_cons_self
    have hfits : r.length + c.length ≤ maxLineBytes * 4 := by
      unfold maxLineBytes at hshort ⊢
      omega
    rw [List.flatten_cons, ← List.append_assoc, splitLines_append, Prod.mk.injEq] at hsplit
    obtain ⟨hlines, hrest⟩ := hsplit
    obtain ⟨ms₁, ms₂, rfl, h₁, h₂⟩ := List.map_eq_append_iff.mp hlines.symm
    have hnow : (splitLines 10 (r ++ c)).1.filterMap (LineFramer.readLine serde) =
        ms₁.map .ok := by
      rw [← h₁, List.filterMap_map, ← List.filterMap_eq_map]
      refine List.filterMap_congr fun m hm => ?_
      have hmem := List.mem_append_left ms₂ hm
      exact readLine_toVec (hinv m hmem) (hlen m hmem)
    have hlater : LineFramer.feed serde ⟨(splitLines 10 (r ++ c)).2⟩ cs = (ms₂.map .ok, ⟨[]⟩) :=
      ih (fun m hm => hinv m (List.mem_append_right ms₁ hm))
        (fun m hm => hlen m (List.mem_append_right ms₁ hm))
        (fun c' hc' => hchunk c' (List.mem_cons_of_mem c hc')) (not_mem_rest (r ++ c))
        (Prod.ext h₂.symm hrest)
    rw [LineFramer.feed_cons, LineFramer.extend_of_le serde hfits, hnow, hlater, List.map_append]

/-- **What was encoded is read back, however it is cut.** -/
theorem feed_encodeLine {ms : List ControlMessage} {chunks : List Bytes}
    (hone : serde.OneLine) (hinv : ∀ m ∈ ms, serde.Inverts m)
    (hlen : ∀ m ∈ ms, (serde.toVec m).length ≤ 64 * 1024)
    (hchunk : ∀ c ∈ chunks, c.length ≤ 128 * 1024)
    (hcut : chunks.flatten = ms.flatMap serde.encodeLine) :
    LineFramer.new.feed serde chunks = (ms.map .ok, LineFramer.new) := by
  refine feed_lines hinv hlen hchunk List.not_mem_nil ?_
  rw [List.nil_append, hcut, splitLines_encodeLine hone]

end

/-- It knows two texts, and reads them as the real one does. -/
def twoTexts : SerdeJson Unit where
  writeF32 _ := utf8 "0.5"
  fromStr s :=
    if s = "\x7b\"type\":\"abort\",\"build_id\":-7\x7d" then .ok (.abort (-7))
    else if s = "\x7b\"type\":\"kick\",\"reason\":\"a\\nb\"\x7d" then .ok (.kick "a\nb")
    else .error ()

/-- Two messages in three chunks, and no chunk ends with a line. -/
theorem feed_encodeLine_two :
    LineFramer.new.feed twoTexts
        [(twoTexts.encodeLine (.abort (-7))).take 9,
          (twoTexts.encodeLine (.abort (-7))).drop 9 ++ (twoTexts.encodeLine (.kick "a\nb")).take 3,
          (twoTexts.encodeLine (.kick "a\nb")).drop 3] =
      ([.ok (.abort (-7)), .ok (.kick "a\nb")], LineFramer.new) := by
  have hdigits : 10 ∉ utf8 "0.5" := by decide
  refine @feed_encodeLine _ twoTexts [.abort (-7), .kick "a\nb"] _ (fun _ => hdigits)
    (fun m hm => ?_) (by decide) (by decide) (by decide)
  simp only [List.mem_cons, List.not_mem_nil, or_false] at hm
  rcases hm with rfl | rfl
  · exact ⟨"\x7b\"type\":\"abort\",\"build_id\":-7\x7d", by decide, rfl⟩
  · exact ⟨"\x7b\"type\":\"kick\",\"reason\":\"a\\nb\"\x7d", by decide, rfl⟩

end Argunix.Builders.Protocol
