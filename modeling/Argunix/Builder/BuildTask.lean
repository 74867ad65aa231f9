import Argunix.Lib.Base64
import Argunix.Lib.Runs
import Argunix.Builders.Protocol
import Argunix.Forge.Payload

/-!
# `argunix-builder`: the frames of one build

`handle_build` puts its frames into the outgoing queue of the connection, and it is not alone: the
task that pumps stderr has a sender of its own. The task queues `BuildStarted`, spawns the pump and
a reader of stdout, and waits for the child and for an abort at once. If the child exits, it waits
for both tasks; if it is aborted, it tells them to stop and waits for neither. A build that was
successful and sent no log reads the archived one and queues that. `BuildFinished` comes last.

Each of the three producers does its own accounting. The pump counts what it has sent and stops at
`max_log_bytes`; the recovery does not count. `abort()` on a task takes effect where the task next
yields, so a pump that a worker is polling may queue another chunk, and what the pump knows of the
cap is lost with it. The list of output paths is as long as what was printed.

`framed_of_run` says that this is all: in every run in which the archived log is within the cap, no
pump is aborted while it is polled or when it has reached the cap, the count does not overflow and
the output paths fit into a line, the frames are as the coordinator wants them.
`not_framed_archived` is a build without a log whose archived log is longer than the cap.
-/

set_option autoImplicit false

namespace Argunix.HandleBuild

open Argunix.Lib Argunix.Lib.JsonText Argunix.Builders.Protocol
open Argunix.Forge (trim)

/-! ## The task -/

/-- What `handle_build` is called with. -/
structure Request where
  buildId : Int64
  agentOwnsGcroot : Bool
  maxLogBytes : UInt64
deriving DecidableEq, Repr

/-- What `child.wait()` returns. -/
inductive ExitStatus
  | exited (success : Bool) (code : Option Int32)
  | waitFailed
deriving DecidableEq, Repr

/-- The buffer of the pump, and the size of an archived chunk. -/
def chunkBytes : ℕ := 16 * 1024

/-- Where the log pump stands. -/
inductive PumpPc
  | unborn
  | reading
  | sending (bytes : Bytes)
  | finished
  /-- Dropped by `abort()`. -/
  | cancelled
deriving DecidableEq, Repr

/-- `pump_stderr_as_chunks`, as a task of its own. -/
structure Pump where
  pc : PumpPc
  sent : UInt64
  truncated : Bool
  /-- A worker is polling it. -/
  polled : Bool
  /-- `abort()` was called. -/
  aborted : Bool
deriving DecidableEq, Repr

/-- What is read and still to be sent. -/
def PumpPc.inFlight : PumpPc → Bytes
  | sending bytes => bytes
  | _ => []

/-- The body of the loop, up to the send. The sum is one of `u64` and wraps. -/
def Pump.read (maxLogBytes : UInt64) (p : Pump) (chunk : Bytes) : Pump :=
  if p.truncated then p
  else
    let full := maxLogBytes < p.sent + UInt64.ofNat chunk.length
    let take := if full then maxLogBytes.toNat - p.sent.toNat else chunk.length
    { p with
      truncated := full
      pc := if 0 < take then .sending (chunk.take take) else .reading }

/-- Where the task stands. Once the last frame is made up, it is carried along. -/
inductive Pc
  | spawning
  | selecting
  /-- The abort arm was taken. -/
  | killing
  /-- The child has exited, the pumps are awaited. -/
  | joining (exit : ExitStatus)
  /-- Before `nix-store --read-log`. -/
  | recovering (last : ControlMessage)
  | archiving (rest : Bytes) (last : ControlMessage)
  | finishing (last : ControlMessage)
  | reported (last : ControlMessage)
deriving DecidableEq

namespace Pc

/-- The last frame. -/
def last? : Pc → Option ControlMessage
  | recovering last | archiving _ last | finishing last | reported last => some last
  | _ => none

/-- What is still to be sent of the archived log. -/
def rest : Pc → Bytes
  | archiving rest _ => rest
  | _ => []

/-- The last frame, where it is in the queue. -/
def queued : Pc → List ControlMessage
  | reported last => [last]
  | _ => []

def isReported : Pc → Bool
  | reported _ => true
  | _ => false

/-- The archived log was not read. -/
def isEarly : Pc → Bool
  | spawning | selecting | killing | joining _ | recovering _ => true
  | _ => false

/-- The child was successful, with this code, and the pumps are awaited. -/
def success? : Pc → Option (Option Int32)
  | joining (.exited true code) => some code
  | _ => none

/-- On the recovery path. -/
def isRecovery : Pc → Bool
  | recovering _ | archiving _ _ => true
  | _ => false

end Pc

/-- A build task with its log pump and the reader of `nix`'s output. -/
structure BuildTask where
  pc : Pc
  pump : Pump
  /-- What the stdout task has read, once it is at the end. -/
  stdout : Option String
  /-- What was put into `out_tx`, in order. Its receiver lives as long as the connection, and a
      build does not outlive that. -/
  queue : List ControlMessage
  /-- All that the pump has read. -/
  stderr : Bytes
  /-- What `nix-store --read-log` printed. -/
  archived : Bytes
deriving DecidableEq

/-- The `Build` message was handled. -/
def BuildTask.start : BuildTask :=
  { pc := .spawning
    pump := { pc := .unborn, sent := 0, truncated := false, polled := false, aborted := false }
    stdout := none
    queue := []
    stderr := []
    archived := [] }

/-- What the three of them can do next. -/
inductive Action
  | spawned (pid : Option UInt32)
  | spawnFailed
  | abort
  | exit (exit : ExitStatus)
  /-- A worker takes up the pump. -/
  | poll
  /-- The pump yields. -/
  | park
  | read (chunk : Bytes)
  /-- End of file, or an error. -/
  | eof
  | send
  | stdoutRead (buf : String)
  /-- Both tasks are through; the targets of the links, where they could be read. -/
  | join (targets : List (Option String))
  /-- What the command printed, if it was successful. -/
  | readLog (output : Option Bytes)
  | sendArchived
  | report
deriving DecidableEq

/-- The paths on stdout. Trimmed lines that are not empty do not depend on how a line ends. -/
def printedPaths (buf : String) : List String :=
  ((buf.toList.splitOn '\n').map fun line => trim (String.ofList line)).filter
    fun line => !line.isEmpty

/-- `read_link` of each path, if the agent owns the gcroot. -/
def outputPaths (req : Request) (buf : String) (targets : List (Option String)) : List String :=
  if req.agentOwnsGcroot then
    List.zipWith (fun path target => target.getD path) (printedPaths buf) targets
  else printedPaths buf

/-- A log chunk, as it is sent. -/
def chunkFrame (req : Request) (bytes : Bytes) : ControlMessage :=
  .buildLogChunk req.buildId (String.ofList (Base64.encode bytes))

/-- `BuildFinished` of a child that was waited for. -/
def lastFrame (req : Request) (exit : ExitStatus) (outputPaths : List String)
    (logTruncated : Bool) : ControlMessage :=
  match exit with
  | .exited true code => .buildFinished req.buildId .success code outputPaths logTruncated
  | .exited false code => .buildFinished req.buildId .failure code [] logTruncated
  | .waitFailed => .buildFinished req.buildId .failure none [] logTruncated

/-- `BuildFinished` after an abort. -/
def abortedFrame (req : Request) (exit : ExitStatus) : ControlMessage :=
  match exit with
  | .exited _ code => .buildFinished req.buildId .killed code [] false
  | .waitFailed => .buildFinished req.buildId .failure none [] false

namespace BuildTask

/-- One step of the task, of the pump or of the reader of stdout. -/
def act (req : Request) (s : BuildTask) : Action → Option BuildTask
  | .spawned pid =>
    if s.pc = .spawning then
      some { s with
        pc := .selecting
        pump := { s.pump with pc := .reading }
        queue := s.queue ++ [.buildStarted req.buildId pid] }
    else none
  | .spawnFailed =>
    if s.pc = .spawning then
      some { s with pc := .finishing (.buildFinished req.buildId .spawnFailed none [] false) }
    else none
  | .abort => if s.pc = .selecting then some { s with pc := .killing } else none
  | .exit exit =>
    match s.pc with
    | .selecting => some { s with pc := .joining exit }
    | .killing =>
      some { s with
        pc := .finishing (abortedFrame req exit)
        pump := { s.pump with aborted := true } }
    | _ => none
  | .poll =>
    match s.pump.pc with
    | .reading | .sending _ =>
      if s.pump.polled = true then none
      else if s.pump.aborted then some { s with pump := { s.pump with pc := .cancelled } }
      else some { s with pump := { s.pump with polled := true } }
    | _ => none
  | .park =>
    if s.pump.polled = true then some { s with pump := { s.pump with polled := false } } else none
  | .read chunk =>
    if s.pump.polled = true ∧ s.pump.pc = .reading ∧ 0 < chunk.length ∧
        chunk.length ≤ chunkBytes then
      some { s with pump := s.pump.read req.maxLogBytes chunk, stderr := s.stderr ++ chunk }
    else none
  | .eof =>
    if s.pump.polled = true ∧ s.pump.pc = .reading then
      some { s with pump := { s.pump with pc := .finished, polled := false } }
    else none
  | .send =>
    match s.pump.pc with
    | .sending bytes =>
      if s.pump.polled = true then
        some { s with
          pump := { s.pump with pc := .reading, sent := s.pump.sent + UInt64.ofNat bytes.length }
          queue := s.queue ++ [chunkFrame req bytes] }
      else none
    | _ => none
  | .stdoutRead buf =>
    if s.stdout = none ∧ s.pump.pc ≠ .unborn then some { s with stdout := some buf } else none
  | .join targets =>
    match s.pc, s.stdout with
    | .joining exit, some buf =>
      if s.pump.pc = .finished ∧ targets.length = (printedPaths buf).length then
        let last := lastFrame req exit (outputPaths req buf targets) s.pump.truncated
        match exit with
        | .exited true _ =>
          -- nothing was sent: the archived log
          if s.pump.sent = 0 then some { s with pc := .recovering last }
          else some { s with pc := .finishing last }
        | _ => some { s with pc := .finishing last }
      else none
    | _, _ => none
  | .readLog output =>
    match s.pc with
    | .recovering last =>
      match output with
      | some (b :: bytes) =>
        some { s with pc := .archiving (b :: bytes) last, archived := b :: bytes }
      | _ => some { s with pc := .finishing last }
    | _ => none
  | .sendArchived =>
    match s.pc with
    | .archiving rest last =>
      some { s with
        pc := if rest.drop chunkBytes = [] then .finishing last
          else .archiving (rest.drop chunkBytes) last
        queue := s.queue ++ [chunkFrame req (rest.take chunkBytes)] }
    | _ => none
  | .report =>
    match s.pc with
    | .finishing last => some { s with pc := .reported last, queue := s.queue ++ [last] }
    | _ => none

/-- The log of the build: what it wrote to stderr, and the archived one if that is nothing. -/
def log (s : BuildTask) : Bytes := if s.stderr = [] then s.archived else s.stderr

end BuildTask

/-! ## What the coordinator wants -/

/-- The frames of a build, apart from its id. -/
structure Frames where
  /-- The `pid` of `BuildStarted`. -/
  started : Option (Option UInt32)
  /-- The texts of the chunks. -/
  texts : List String
  finished : Option (BuildOutcomeStatus × Option Int32 × List String × Bool)

/-- All frames of a build. -/
def Frames.messages (buildId : Int64) (f : Frames) : List ControlMessage :=
  (f.started.map (.buildStarted buildId)).toList ++ f.texts.map (.buildLogChunk buildId) ++
    (f.finished.map fun (status, exitCode, outputPaths, logTruncated) =>
      .buildFinished buildId status exitCode outputPaths logTruncated).toList

/-- **The frames are well-formed and bounded.** -/
structure Framed {E : Type} (serde : SerdeJson E) (req : Request) (s : BuildTask) (f : Frames)
    (chunks : List Bytes) : Prop where
  /-- At most one `BuildStarted`, then the chunks, then at most one `BuildFinished`. -/
  queue : s.queue = f.messages req.buildId
  decoded : f.texts.map (fun text => Base64.decode text.toList) = chunks.map some
  isPrefix : chunks.flatten <+: s.log
  capped : chunks.flatten.length ≤ req.maxLogBytes.toNat
  /-- `BuildFinished` is there when the task is through. -/
  finished : f.finished.isSome = s.pc.isReported
  truncated : ∀ status exitCode outputPaths logTruncated,
    f.finished = some (status, exitCode, outputPaths, logTruncated) →
      (logTruncated = true ↔ req.maxLogBytes.toNat < s.log.length)
  /-- Nothing but the cap drops a byte, unless the build was aborted. -/
  whole : s.pc.isReported = true → s.pump.aborted = false →
    chunks.flatten = s.log.take req.maxLogBytes.toNat
  lines : ∀ m ∈ s.queue, (serde.toVec m).length ≤ maxLineBytes

/-- The line of a `BuildFinished` after a success: its variable parts and the text around them. -/
def successBytes (req : Request) (code : Option Int32) (outputPaths : List String)
    (logTruncated : Bool) : ℕ :=
  102 + (SerdeJson.writeInt64 req.buildId).length +
    (JsonText.option (fun n => JsonText.int n.toInt) code).length +
    (SerdeJson.writeStrs outputPaths).length + (JsonText.bool logTruncated).length

/-- **What a step must not do.** -/
def Meets (req : Request) (s : BuildTask) : Action → Prop
  -- the count of the pump does not overflow
  | .read chunk => s.pump.truncated = false → s.pump.sent.toNat + chunk.length < 2 ^ 64
  -- `abort()` finds the pump where it yields, and below the cap
  | .exit _ => s.pc = .killing → s.pump.polled = false ∧ s.pump.truncated = false
  -- the paths that were printed fit into a line
  | .join targets => ∀ code ∈ s.pc.success?, ∀ buf ∈ s.stdout,
      successBytes req code (outputPaths req buf targets) s.pump.truncated ≤ maxLineBytes
  -- the archived log is within the cap
  | .readLog output => ∀ log ∈ output, log.length ≤ req.maxLogBytes.toNat
  | _ => True

instance (req : Request) (s : BuildTask) : (a : Action) → Decidable (Meets req s a)
  | .read _ => inferInstanceAs (Decidable (_ → _))
  | .exit _ => inferInstanceAs (Decidable (_ → _))
  -- not by going through all codes, of which there are finitely many
  | .join _ => s.pc.success?.decidableForallMem
  | .readLog output => inferInstanceAs (Decidable (∀ log ∈ output, _))
  | .spawned _ | .spawnFailed | .abort | .poll | .park | .eof | .send | .stdoutRead _
  | .sendArchived | .report => isTrue trivial

/-! ## Lines -/

section Lines

variable {E : Type} (serde : SerdeJson E) (req : Request)

theorem length_writeInt64_le (n : Int64) : (SerdeJson.writeInt64 n).length ≤ 20 := by
  refine JsonText.length_int_le (by decide) ?_
  have hlo := n.le_toInt
  have hhi := n.toInt_lt
  omega

theorem length_exitCode_le (code : Option Int32) :
    (JsonText.option (fun n => JsonText.int n.toInt) code).length ≤ 11 := by
  refine JsonText.length_option_le (by decide) (fun n : Int32 => ?_) code
  refine JsonText.length_int_le (by decide) ?_
  have hlo := n.le_toInt
  have hhi := n.toInt_lt
  omega

theorem length_pid_le (pid : Option UInt32) :
    (JsonText.option (fun n => JsonText.nat n.toNat) pid).length ≤ 10 := by
  refine JsonText.length_option_le (by decide) (fun n : UInt32 => ?_) pid
  refine JsonText.length_nat_le (by decide) ?_
  have hlt := n.toNat_lt
  omega

theorem length_bool_le (b : Bool) : (JsonText.bool b).length ≤ 5 := by
  cases b <;> decide

/-- The keys of the messages of a build. -/
theorem length_keys :
    (JsonText.string (utf8 "type")).length = 6 ∧
    (JsonText.string (utf8 "build_id")).length = 10 ∧
    (JsonText.string (utf8 "pid")).length = 5 ∧
    (JsonText.string (utf8 "bytes_b64")).length = 11 ∧
    (JsonText.string (utf8 "status")).length = 8 ∧
    (JsonText.string (utf8 "exit_code")).length = 11 ∧
    (JsonText.string (utf8 "output_paths")).length = 14 ∧
    (JsonText.string (utf8 "log_truncated")).length = 15 ∧
    (SerdeJson.writeStr "build_started").length = 15 ∧
    (SerdeJson.writeStr "build_log_chunk").length = 17 ∧
    (SerdeJson.writeStr "build_finished").length = 16 := by
  decide

theorem length_writeStatus_le (status : BuildOutcomeStatus) :
    (SerdeJson.writeStatus status).length ≤ 14 := by
  cases status <;> decide

theorem length_toVec_started_le (pid : Option UInt32) :
    (serde.toVec (.buildStarted req.buildId pid)).length ≤ maxLineBytes := by
  obtain ⟨htype, hid, hpid, -, -, -, -, -, hvariant, -⟩ := length_keys
  have hidLen := length_writeInt64_le req.buildId
  have hpidLen := length_pid_le pid
  rw [SerdeJson.toVec, JsonText.length_object (by simp [SerdeJson.members])]
  simp only [SerdeJson.members, List.map_cons, List.map_nil, List.sum_cons, List.sum_nil, htype,
    hid, hpid, hvariant]
  unfold maxLineBytes
  omega

/-- The bytes of a chunk are written as plain characters. -/
theorem length_writeStr_encode (bytes : Bytes) :
    (SerdeJson.writeStr (String.ofList (Base64.encode bytes))).length =
      (bytes.length + 2) / 3 * 4 + 2 := by
  have hplain : ∀ c ∈ Base64.encode bytes, Base64.Plain c :=
    fun c hc => Base64.plain_of_mem_encode hc
  have hutf8 := JsonText.utf8_ofList fun c hc => (hplain c hc).2.1.trans (by decide : 123 < 128)
  rw [SerdeJson.writeStr, hutf8, JsonText.length_string, List.length_map, Base64.length_encode]
  intro b hb
  obtain ⟨c, hc, rfl⟩ := List.mem_map.mp hb
  obtain ⟨hlo, hhi, hne⟩ := hplain c hc
  have htoNat : (UInt8.ofNat c.toNat).toNat = c.toNat := by
    rw [UInt8.toNat_ofNat']
    exact Nat.mod_eq_of_lt (by omega)
  exact JsonText.escape_of_plain (by omega) (by omega)

theorem length_toVec_chunk_le {bytes : Bytes} (h : bytes.length ≤ chunkBytes) :
    (serde.toVec (chunkFrame req bytes)).length ≤ maxLineBytes := by
  obtain ⟨htype, hid, -, hbytes, -, -, -, -, -, hvariant, -⟩ := length_keys
  have hidLen := length_writeInt64_le req.buildId
  rw [chunkFrame, SerdeJson.toVec, JsonText.length_object (by simp [SerdeJson.members])]
  simp only [SerdeJson.members, List.map_cons, List.map_nil, List.sum_cons, List.sum_nil, htype,
    hid, hbytes, hvariant, length_writeStr_encode]
  unfold maxLineBytes
  unfold chunkBytes at h
  omega

theorem length_toVec_finished (status : BuildOutcomeStatus) (code : Option Int32)
    (outputPaths : List String) (logTruncated : Bool) :
    (serde.toVec (.buildFinished req.buildId status code outputPaths logTruncated)).length =
      93 + (SerdeJson.writeInt64 req.buildId).length + (SerdeJson.writeStatus status).length +
        (JsonText.option (fun n => JsonText.int n.toInt) code).length +
        (SerdeJson.writeStrs outputPaths).length + (JsonText.bool logTruncated).length := by
  obtain ⟨htype, hid, -, -, hstatus, hcode, hpaths, htrunc, -, -, hvariant⟩ := length_keys
  rw [SerdeJson.toVec, JsonText.length_object (by simp [SerdeJson.members])]
  simp only [SerdeJson.members, List.map_cons, List.map_nil, List.sum_cons, List.sum_nil, htype,
    hid, hstatus, hcode, hpaths, htrunc, hvariant]
  omega

theorem length_toVec_success (code : Option Int32) (outputPaths : List String)
    (logTruncated : Bool) :
    (serde.toVec (.buildFinished req.buildId .success code outputPaths logTruncated)).length =
      successBytes req code outputPaths logTruncated := by
  have hstatus : (SerdeJson.writeStatus .success).length = 9 := by decide
  rw [length_toVec_finished, hstatus, successBytes]
  omega

/-- Without output paths the line is short. -/
theorem length_toVec_no_paths_le (status : BuildOutcomeStatus) (code : Option Int32)
    (logTruncated : Bool) :
    (serde.toVec (.buildFinished req.buildId status code [] logTruncated)).length ≤
      maxLineBytes := by
  have hidLen := length_writeInt64_le req.buildId
  have hstatus := length_writeStatus_le status
  have hcode := length_exitCode_le code
  have hbool := length_bool_le logTruncated
  have hpaths : (SerdeJson.writeStrs []).length = 2 := by decide
  rw [length_toVec_finished, hpaths]
  unfold maxLineBytes
  omega

end Lines

/-! ## The pump -/

/-- What the pump has queued, against what it has read. -/
structure PumpOk (req : Request) (p : Pump) (stderr : Bytes) (pumped : List Bytes) : Prop where
  sent : p.sent.toNat = pumped.flatten.length
  sofar : pumped.flatten <+: stderr.take req.maxLogBytes.toNat
  whole : p.pc ≠ .cancelled →
    pumped.flatten ++ p.pc.inFlight = stderr.take req.maxLogBytes.toNat
  truncated : p.truncated = true ↔ req.maxLogBytes.toNat < stderr.length
  small : ∀ bytes ∈ pumped, bytes.length ≤ chunkBytes
  inFlight : p.pc.inFlight.length ≤ chunkBytes

namespace PumpOk

variable {req : Request} {p : Pump} {stderr : Bytes} {pumped : List Bytes}

/-- Who polls the pump and whether it is aborted is not in its books. -/
theorem congr (h : PumpOk req p stderr pumped) {p' : Pump} (hsent : p'.sent = p.sent)
    (htrunc : p'.truncated = p.truncated) (hpc : p'.pc = p.pc) : PumpOk req p' stderr pumped := by
  obtain ⟨h₁, h₂, h₃, h₄, h₅, h₆⟩ := h
  refine ⟨?_, h₂, ?_, ?_, h₅, ?_⟩
  · rw [hsent]
    exact h₁
  · rw [hpc]
    exact h₃
  · rw [htrunc]
    exact h₄
  · rw [hpc]
    exact h₆

theorem reading_whole (h : PumpOk req p stderr pumped) (hpc : p.pc = .reading) :
    pumped.flatten = stderr.take req.maxLogBytes.toNat := by
  have hwhole := h.whole (by simp [hpc])
  rw [hpc] at hwhole
  simpa [PumpPc.inFlight] using hwhole

/-- Below the cap everything was sent. -/
theorem sent_eq (h : PumpOk req p stderr pumped) (hpc : p.pc = .reading)
    (htrunc : p.truncated = false) : p.sent.toNat = stderr.length := by
  have hle : stderr.length ≤ req.maxLogBytes.toNat := by
    rw [← Nat.not_lt, ← h.truncated, htrunc]
    exact Bool.false_ne_true
  rw [h.sent, h.reading_whole hpc, List.take_of_length_le hle]

/-- **A read takes what is left of the cap.** -/
theorem read (h : PumpOk req p stderr pumped) (hpc : p.pc = .reading) {chunk : Bytes}
    (hlen : chunk.length ≤ chunkBytes)
    (hsum : p.truncated = false → p.sent.toNat + chunk.length < 2 ^ 64) :
    PumpOk req (p.read req.maxLogBytes chunk) (stderr ++ chunk) pumped := by
  have hpumped := h.reading_whole hpc
  cases htrunc : p.truncated with
  | true =>
    -- the cap was reached before
    have hover := h.truncated.mp htrunc
    have htake : (stderr ++ chunk).take req.maxLogBytes.toNat =
        stderr.take req.maxLogBytes.toNat := List.take_append_of_le_length hover.le
    have hread : p.read req.maxLogBytes chunk = p := by rw [Pump.read, if_pos htrunc]
    rw [hread]
    refine ⟨h.sent, by rw [htake]; exact h.sofar, by rw [htake]; exact h.whole, ?_, h.small,
      h.inFlight⟩
    rw [htrunc, List.length_append]
    exact ⟨fun _ => by omega, fun _ => rfl⟩
  | false =>
    have hsent := h.sent_eq hpc htrunc
    have hbelow : stderr.length ≤ req.maxLogBytes.toNat := by
      rw [← Nat.not_lt, ← h.truncated, htrunc]
      exact Bool.false_ne_true
    have hadd : (p.sent + UInt64.ofNat chunk.length).toNat = stderr.length + chunk.length := by
      have hfit := hsum htrunc
      have hn : (UInt64.ofNat chunk.length).toNat = chunk.length := by
        rw [UInt64.toNat_ofNat']
        exact Nat.mod_eq_of_lt (by omega)
      rw [UInt64.toNat_add, hn, ← hsent]
      exact Nat.mod_eq_of_lt hfit
    have htake : (stderr ++ chunk).take req.maxLogBytes.toNat =
        stderr ++ chunk.take (req.maxLogBytes.toNat - stderr.length) := by
      rw [List.take_append, List.take_of_length_le hbelow]
    rw [List.take_of_length_le hbelow] at hpumped
    -- the part of the chunk that is sent
    have hpart : (p.read req.maxLogBytes chunk).pc.inFlight =
        chunk.take (req.maxLogBytes.toNat - stderr.length) := by
      rw [Pump.read, if_neg (by simp [htrunc])]
      simp only [UInt64.lt_iff_toNat_lt, hadd, hsent]
      by_cases hover : req.maxLogBytes.toNat < stderr.length + chunk.length
      · rw [if_pos hover]
        by_cases hzero : 0 < req.maxLogBytes.toNat - stderr.length
        · rw [if_pos hzero]
          rfl
        · rw [if_neg hzero, Nat.eq_zero_of_not_pos hzero]
          rfl
      · have hall : chunk.take (req.maxLogBytes.toNat - stderr.length) = chunk :=
          List.take_of_length_le (by omega)
        rw [if_neg hover, hall]
        by_cases hzero : 0 < chunk.length
        · rw [if_pos hzero, List.take_length]
          rfl
        · rw [if_neg hzero, List.eq_nil_of_length_eq_zero (Nat.eq_zero_of_not_pos hzero)]
          rfl
    have hkeep : (p.read req.maxLogBytes chunk).sent = p.sent := by
      rw [Pump.read, if_neg (by simp [htrunc])]
    have hcap : (p.read req.maxLogBytes chunk).truncated = true ↔
        req.maxLogBytes.toNat < stderr.length + chunk.length := by
      rw [Pump.read, if_neg (by simp [htrunc])]
      simp only [decide_eq_true_eq, UInt64.lt_iff_toNat_lt, hadd]
    refine ⟨by rw [hkeep]; exact h.sent, ?_, fun _ => ?_, ?_, h.small, ?_⟩
    · rw [htake, hpumped]
      exact List.prefix_append _ _
    · rw [hpart, htake, hpumped]
    · rw [hcap, List.length_append]
    · rw [hpart]
      exact (List.length_take_le' _ _).trans hlen

/-- **A send queues what was read.** -/
theorem send (h : PumpOk req p stderr pumped) {bytes : Bytes} (hpc : p.pc = .sending bytes) :
    PumpOk req { p with pc := .reading, sent := p.sent + UInt64.ofNat bytes.length } stderr
      (pumped ++ [bytes]) := by
  have hwhole := h.whole (by simp [hpc])
  have hsmall := h.inFlight
  rw [hpc, PumpPc.inFlight] at hwhole hsmall
  have hflat : (pumped ++ [bytes]).flatten = stderr.take req.maxLogBytes.toNat := by
    rw [List.flatten_append, List.flatten_singleton, hwhole]
  have hsum : pumped.flatten.length + bytes.length ≤ req.maxLogBytes.toNat := by
    rw [← List.length_append, hwhole]
    exact List.length_take_le _ _
  have hlt := req.maxLogBytes.toNat_lt
  refine ⟨?_, ?_, fun _ => ?_, h.truncated, fun b hb => ?_, Nat.zero_le _⟩
  · have hn : (UInt64.ofNat bytes.length).toNat = bytes.length := by
      rw [UInt64.toNat_ofNat']
      exact Nat.mod_eq_of_lt (by omega)
    show (p.sent + UInt64.ofNat bytes.length).toNat = _
    rw [UInt64.toNat_add, hn, h.sent, List.flatten_append, List.flatten_singleton,
      List.length_append]
    exact Nat.mod_eq_of_lt (by omega)
  · rw [hflat]
  · rw [hflat]
    exact List.append_nil _
  · rcases List.mem_append.mp hb with hb | hb
    · exact h.small b hb
    · obtain rfl := List.mem_singleton.mp hb
      exact hsmall

/-- The pump is at its end, or it is dropped. -/
theorem stop (h : PumpOk req p stderr pumped) {pc : PumpPc} (polled : Bool)
    (hpc : (pc = .finished ∧ p.pc = .reading) ∨ pc = .cancelled) :
    PumpOk req { p with pc := pc, polled := polled } stderr pumped := by
  refine ⟨h.sent, h.sofar, fun hne => ?_, h.truncated, h.small, ?_⟩
  · rcases hpc with ⟨rfl, hread⟩ | rfl
    · rw [h.reading_whole hread]
      exact List.append_nil _
    · exact absurd rfl hne
  · rcases hpc with ⟨rfl, -⟩ | rfl <;> exact Nat.zero_le _

end PumpOk

/-! ## The books -/

theorem of_guard {α : Type} {p : Prop} [Decidable p] {x y : α}
    (h : (if p then some x else none) = some y) : p ∧ x = y := by
  obtain ⟨hp, hx⟩ := Option.ite_none_right_eq_some.mp h
  exact ⟨hp, Option.some.inj hx⟩

/-- A poll takes the pump up, or drops it if it was aborted. -/
theorem BuildTask.act_poll {req : Request} {s s' : BuildTask} (h : s.act req .poll = some s') :
    s.pump.pc ≠ .finished ∧ s.pump.pc ≠ .unborn ∧
      ((s.pump.aborted = true ∧ s' = { s with pump := { s.pump with pc := .cancelled } }) ∨
        (s.pump.aborted = false ∧ s' = { s with pump := { s.pump with polled := true } })) := by
  have hpoll : (if s.pump.polled = true then none
      else if s.pump.aborted = true then some { s with pump := { s.pump with pc := .cancelled } }
      else some { s with pump := { s.pump with polled := true } }) = some s' →
      (s.pump.aborted = true ∧ s' = { s with pump := { s.pump with pc := .cancelled } }) ∨
        (s.pump.aborted = false ∧ s' = { s with pump := { s.pump with polled := true } }) := by
    intro h
    split at h
    · cases h
    · split at h
      · rename_i hab
        exact .inl ⟨hab, (Option.some.inj h).symm⟩
      · rename_i hab
        exact .inr ⟨Bool.eq_false_iff.mpr hab, (Option.some.inj h).symm⟩
  rw [BuildTask.act] at h
  split at h
  · rename_i hpc
    exact ⟨by simp [hpc], by simp [hpc], hpoll h⟩
  · rename_i hpc
    exact ⟨by simp [hpc], by simp [hpc], hpoll h⟩
  · cases h

/-- A last frame that can be sent: it fits into a line and says whether the log was cut. -/
def LastOk {E : Type} (serde : SerdeJson E) (req : Request) (s : BuildTask) (m : ControlMessage) :
    Prop :=
  ∃ status code paths logTruncated, m = .buildFinished req.buildId status code paths logTruncated ∧
    (serde.toVec m).length ≤ maxLineBytes ∧
    (logTruncated = true ↔ req.maxLogBytes.toNat < s.log.length)

/-- The three producers: `pumped` is what the pump has queued, `recovered` what the recovery has. -/
structure Books {E : Type} (serde : SerdeJson E) (req : Request) (s : BuildTask)
    (started : Option (Option UInt32)) (pumped recovered : List Bytes) : Prop where
  queue : s.queue = (started.map (.buildStarted req.buildId)).toList ++
    (pumped ++ recovered).map (chunkFrame req) ++ s.pc.queued
  pump : PumpOk req s.pump s.stderr pumped
  taken : recovered.flatten ++ s.pc.rest = s.archived
  archived : s.archived.length ≤ req.maxLogBytes.toNat
  small : ∀ bytes ∈ recovered, bytes.length ≤ chunkBytes
  /-- The recovery starts when the pump is at its end and has sent nothing. -/
  alone : (s.pump.pc = .finished ∧ s.stderr.take req.maxLogBytes.toNat = []) ∨
    (recovered = [] ∧ s.archived = [] ∧ s.pc.isRecovery = false)
  early : s.pc.isEarly = true → recovered = [] ∧ s.archived = []
  fresh : s.pc = .spawning → s.pump.pc = .unborn ∧ started = none ∧ pumped = [] ∧ s.stderr = []
  /-- An aborted pump does nothing more, and nothing of the log was cut. -/
  quiet : s.pump.aborted = true → s.pump.polled = false ∧ s.pump.truncated = false
  settled : s.pc.last?.isSome = true →
    s.pump.pc = .finished ∨ s.pump.pc = .unborn ∨ s.pump.aborted = true
  last : ∀ m, s.pc.last? = some m → LastOk serde req s m

namespace Books

variable {E : Type} {serde : SerdeJson E} {req : Request} {s : BuildTask}
  {started : Option (Option UInt32)} {pumped recovered : List Bytes}

theorem start (serde : SerdeJson E) (req : Request) :
    Books serde req .start none [] [] where
  queue := rfl
  pump := ⟨rfl, List.nil_prefix, fun _ => (List.take_nil).symm, by simp [BuildTask.start],
    by simp, Nat.zero_le _⟩
  taken := rfl
  archived := Nat.zero_le _
  small := by simp
  alone := .inr ⟨rfl, rfl, rfl⟩
  early _ := ⟨rfl, rfl⟩
  fresh _ := ⟨rfl, rfl, rfl, rfl⟩
  quiet h := absurd h (by decide)
  settled h := absurd h (by decide)
  last m h := absurd h (by simp [BuildTask.start, Pc.last?])

/-- The pump changes nothing but itself. -/
theorem setPump (h : Books serde req s started pumped recovered) {p : Pump}
    (hpump : PumpOk req p s.stderr pumped) (habort : p.aborted = s.pump.aborted)
    (hquiet : p.aborted = true → p.polled = false ∧ p.truncated = false)
    (hend : s.pump.pc = .finished ∨ s.pump.pc = .unborn → p.pc = s.pump.pc) :
    Books serde req { s with pump := p } started pumped recovered := by
  refine ⟨h.queue, hpump, h.taken, h.archived, h.small, ?_, h.early, fun hpc => ?_, hquiet,
    fun hlast => ?_, h.last⟩
  · rcases h.alone with ⟨hfin, hnil⟩ | hnone
    · exact .inl ⟨(hend (.inl hfin)).trans hfin, hnil⟩
    · exact .inr hnone
  · obtain ⟨hunborn, hrest⟩ := h.fresh hpc
    exact ⟨(hend (.inr hunborn)).trans hunborn, hrest⟩
  · rcases h.settled hlast with hfin | hunborn | hab
    · exact .inl ((hend (.inl hfin)).trans hfin)
    · exact .inr (.inl ((hend (.inr hunborn)).trans hunborn))
    · exact .inr (.inr (habort.trans hab))

/-- Below the cap nothing of the log is cut. -/
theorem length_log_le (h : Books serde req s started pumped recovered)
    (htrunc : s.pump.truncated = false) : s.log.length ≤ req.maxLogBytes.toNat := by
  unfold BuildTask.log
  split
  · exact h.archived
  · rw [← Nat.not_lt, ← h.pump.truncated, htrunc]
    exact Bool.false_ne_true

/-- A pump that a worker is polling was not aborted. -/
theorem not_aborted (h : Books serde req s started pumped recovered)
    (hpolled : s.pump.polled = true) : s.pump.aborted = false := by
  rw [Bool.eq_false_iff]
  intro hab
  exact absurd (hpolled.symm.trans (h.quiet hab).1) (by simp)

/-- While the pump is at work there is no last frame. -/
theorem not_last (h : Books serde req s started pumped recovered)
    (hpolled : s.pump.polled = true) (hfinished : s.pump.pc ≠ .finished)
    (hunborn : s.pump.pc ≠ .unborn) : s.pc.last? = none := by
  rw [← Option.not_isSome_iff_eq_none]
  intro hlast
  rcases h.settled hlast with hfin | hun | hab
  · exact hfinished hfin
  · exact hunborn hun
  · exact absurd (hab.symm.trans (h.not_aborted hpolled)) (by simp)

/-- **A read of the pump.** -/
theorem read (h : Books serde req s started pumped recovered) (hpolled : s.pump.polled = true)
    (hpc : s.pump.pc = .reading) {chunk : Bytes} (hlen : chunk.length ≤ chunkBytes)
    (hmeets : Meets req s (.read chunk)) :
    Books serde req
      { s with pump := s.pump.read req.maxLogBytes chunk, stderr := s.stderr ++ chunk }
      started pumped recovered := by
  have hpump := h.pump.read hpc hlen hmeets
  have habort : (s.pump.read req.maxLogBytes chunk).aborted = false := by
    rw [← h.not_aborted hpolled]
    unfold Pump.read
    split <;> rfl
  have hlast : s.pc.last? = none := h.not_last hpolled (by simp [hpc]) (by simp [hpc])
  have hnone : recovered = [] ∧ s.archived = [] ∧ s.pc.isRecovery = false := by
    rcases h.alone with ⟨hfin, -⟩ | hnone
    · exact absurd (hpc.symm.trans hfin) (by simp)
    · exact hnone
  refine ⟨h.queue, hpump, h.taken, h.archived, h.small, .inr hnone, h.early, fun hsp => ?_,
    fun hab => ?_, fun hsome => ?_, fun m hm => ?_⟩
  · exact absurd (hpc.symm.trans (h.fresh hsp).1) (by simp)
  · exact absurd (hab.symm.trans habort) (by simp)
  · rw [hlast] at hsome
    cases hsome
  · cases hlast.symm.trans hm

theorem queued_eq_nil {pc : Pc} (h : pc.isReported = false) : pc.queued = [] := by
  cases pc <;> first | rfl | exact absurd h (by simp [Pc.isReported])

theorem isReported_eq_false {pc : Pc} (h : pc.last? = none) : pc.isReported = false := by
  cases pc with
  | reported last => cases h
  | _ => rfl

/-- **A chunk of the pump.** -/
theorem send (h : Books serde req s started pumped recovered) {bytes : Bytes}
    (hpolled : s.pump.polled = true) (hpc : s.pump.pc = .sending bytes) :
    Books serde req
      { s with
        pump := { s.pump with
          pc := .reading, sent := s.pump.sent + UInt64.ofNat bytes.length }
        queue := s.queue ++ [chunkFrame req bytes] }
      started (pumped ++ [bytes]) recovered := by
  have hnone : recovered = [] ∧ s.archived = [] ∧ s.pc.isRecovery = false := by
    rcases h.alone with ⟨hfin, -⟩ | hnone
    · exact absurd (hpc.symm.trans hfin) (by simp)
    · exact hnone
  have hlast : s.pc.last? = none := h.not_last hpolled (by simp [hpc]) (by simp [hpc])
  refine ⟨?_, h.pump.send hpc, h.taken, h.archived, h.small, .inr hnone, h.early,
    fun hsp => ?_, h.quiet, fun hsome => ?_, h.last⟩
  · show s.queue ++ [chunkFrame req bytes] = _
    rw [h.queue, hnone.1, queued_eq_nil (isReported_eq_false hlast)]
    simp
  · exact absurd (hpc.symm.trans (h.fresh hsp).1) (by simp)
  · rw [hlast] at hsome
    cases hsome

/-- The task moves on and queues nothing. -/
theorem setPc (h : Books serde req s started pumped recovered) {pc : Pc}
    (hqueued : pc.queued = s.pc.queued) (hrest : pc.rest = s.pc.rest)
    (hearly : pc.isEarly = true → s.pc.isEarly = true) (hfresh : pc ≠ .spawning)
    (hrecovery : pc.isRecovery = true →
      s.pump.pc = .finished ∧ s.stderr.take req.maxLogBytes.toNat = [])
    (hsettled : pc.last?.isSome = true →
      s.pump.pc = .finished ∨ s.pump.pc = .unborn ∨ s.pump.aborted = true)
    (hlast : ∀ m, pc.last? = some m → LastOk serde req s m) :
    Books serde req { s with pc := pc } started pumped recovered := by
  refine ⟨?_, h.pump, ?_, h.archived, h.small, ?_, fun he => h.early (hearly he),
    fun hsp => absurd hsp hfresh, h.quiet, hsettled, hlast⟩
  · show s.queue = _ ++ pc.queued
    rw [hqueued]
    exact h.queue
  · show recovered.flatten ++ pc.rest = _
    rw [hrest]
    exact h.taken
  · rcases h.alone with hend | ⟨hrec, harch, -⟩
    · exact .inl hend
    · cases hpc : pc.isRecovery with
      | true => exact .inl (hrecovery hpc)
      | false => exact .inr ⟨hrec, harch, rfl⟩

theorem spawned (h : Books serde req s started pumped recovered) (hpc : s.pc = .spawning)
    (pid : Option UInt32) :
    Books serde req
      { s with
        pc := .selecting
        pump := { s.pump with pc := .reading }
        queue := s.queue ++ [.buildStarted req.buildId pid] }
      (some pid) [] [] := by
  obtain ⟨hunborn, rfl, rfl, -⟩ := h.fresh hpc
  obtain ⟨rfl, harch⟩ := h.early (by rw [hpc]; rfl)
  have hqueue : s.queue = [] := by
    rw [h.queue, hpc]
    rfl
  have hwhole := h.pump.whole (by simp [hunborn])
  rw [hunborn] at hwhole
  refine ⟨?_, ⟨h.pump.sent, h.pump.sofar, fun _ => hwhole, h.pump.truncated, h.pump.small,
    Nat.zero_le _⟩, ?_, h.archived, h.small, .inr ⟨rfl, harch, rfl⟩, fun _ => ⟨rfl, harch⟩,
    fun hsp => (by cases hsp), h.quiet, fun hlast => (by cases hlast), fun m hm => (by cases hm)⟩
  · show s.queue ++ _ = _
    rw [hqueue]
    rfl
  · exact harch.symm

/-- **An abort.** -/
theorem killed (h : Books serde req s started pumped recovered) (hpc : s.pc = .killing)
    (exit : ExitStatus) (hquiet : s.pump.polled = false ∧ s.pump.truncated = false) :
    Books serde req
      { s with
        pc := .finishing (abortedFrame req exit)
        pump := { s.pump with aborted := true } }
      started pumped recovered := by
  obtain ⟨hrec, harch⟩ := h.early (by rw [hpc]; rfl)
  have hqueue := h.queue
  have htaken := h.taken
  rw [hpc] at hqueue htaken
  refine ⟨hqueue, h.pump.congr rfl rfl rfl, htaken, h.archived, h.small,
    .inr ⟨hrec, harch, rfl⟩, fun he => (by cases he), fun hsp => (by cases hsp), fun _ => hquiet,
    fun _ => .inr (.inr rfl), fun m hm => ?_⟩
  obtain rfl := Option.some.inj hm
  have hlog := h.length_log_le hquiet.2
  have hfalse : ∀ n, n ≤ req.maxLogBytes.toNat →
      (false = true ↔ req.maxLogBytes.toNat < n) := by
    intro n hn
    exact ⟨fun hf => absurd hf Bool.false_ne_true, fun hlt => absurd hlt (Nat.not_lt.mpr hn)⟩
  cases exit with
  | exited success code =>
    exact ⟨_, _, _, _, rfl, length_toVec_no_paths_le serde req _ _ _, hfalse _ hlog⟩
  | waitFailed =>
    exact ⟨_, _, _, _, rfl, length_toVec_no_paths_le serde req _ _ _, hfalse _ hlog⟩

/-- The last frame of a child that was waited for. -/
theorem lastOk_join (h : Books serde req s started pumped recovered) {exit : ExitStatus}
    (hpc : s.pc = .joining exit) {paths : List String}
    (hfits : ∀ code, exit = .exited true code →
      successBytes req code paths s.pump.truncated ≤ maxLineBytes) :
    LastOk serde req s (lastFrame req exit paths s.pump.truncated) := by
  obtain ⟨-, harch⟩ := h.early (by rw [hpc]; rfl)
  have hcut : s.pump.truncated = true ↔ req.maxLogBytes.toNat < s.log.length := by
    rw [h.pump.truncated, BuildTask.log]
    split
    · rename_i hnil
      rw [hnil, harch]
    · rfl
  cases exit with
  | exited success code =>
    cases success with
    | true =>
      refine ⟨_, _, _, _, rfl, ?_, hcut⟩
      exact (length_toVec_success serde req _ _ _).trans_le (hfits code rfl)
    | false => exact ⟨_, _, _, _, rfl, length_toVec_no_paths_le serde req _ _ _, hcut⟩
  | waitFailed => exact ⟨_, _, _, _, rfl, length_toVec_no_paths_le serde req _ _ _, hcut⟩

/-- **The recovery starts.** -/
theorem readLog (h : Books serde req s started pumped recovered) {last : ControlMessage}
    (hpc : s.pc = .recovering last) {bytes : Bytes}
    (hlen : bytes.length ≤ req.maxLogBytes.toNat) :
    Books serde req { s with pc := .archiving bytes last, archived := bytes }
      started pumped recovered := by
  obtain ⟨rfl, harch⟩ := h.early (by rw [hpc]; rfl)
  have hqueue := h.queue
  rw [hpc] at hqueue
  have halone : s.pump.pc = .finished ∧ s.stderr.take req.maxLogBytes.toNat = [] := by
    rcases h.alone with hend | ⟨-, -, hno⟩
    · exact hend
    · rw [hpc] at hno
      cases hno
  refine ⟨hqueue, h.pump, rfl, hlen, h.small, .inl halone, fun he => (by cases he),
    fun hsp => (by cases hsp), h.quiet, fun _ => .inl halone.1, fun m hm => ?_⟩
  obtain ⟨status, code, paths, logTruncated, hmsg, hline, hcut⟩ :=
    h.last m (by rw [hpc]; exact hm)
  refine ⟨status, code, paths, logTruncated, hmsg, hline, ?_⟩
  rw [hcut]
  unfold BuildTask.log
  split
  · rw [harch]
    exact ⟨fun hlt => absurd hlt (Nat.not_lt_zero _),
      fun hlt => absurd hlt (Nat.not_lt.mpr hlen)⟩
  · rfl

/-- **A chunk of the archived log.** -/
theorem sendArchived (h : Books serde req s started pumped recovered) {rest : Bytes}
    {last : ControlMessage} (hpc : s.pc = .archiving rest last) :
    Books serde req
      { s with
        pc := if rest.drop chunkBytes = [] then .finishing last
          else .archiving (rest.drop chunkBytes) last
        queue := s.queue ++ [chunkFrame req (rest.take chunkBytes)] }
      started pumped (recovered ++ [rest.take chunkBytes]) := by
  have halone : s.pump.pc = .finished ∧ s.stderr.take req.maxLogBytes.toNat = [] := by
    rcases h.alone with hend | ⟨-, -, hno⟩
    · exact hend
    · rw [hpc] at hno
      cases hno
  have htaken := h.taken
  have hqueue := h.queue
  have hlast := h.last
  rw [hpc] at htaken hqueue hlast
  -- whichever state comes next, it carries the same frame and the rest
  obtain ⟨pc, hnext, hrest, hqueued, hearly, hfresh, hlast'⟩ :
      ∃ pc, (if rest.drop chunkBytes = [] then Pc.finishing last
          else .archiving (rest.drop chunkBytes) last) = pc ∧
        pc.rest = rest.drop chunkBytes ∧ pc.queued = [] ∧ pc.isEarly = false ∧ pc ≠ .spawning ∧
        pc.last? = some last := by
    split
    · rename_i hnil
      exact ⟨_, rfl, hnil.symm, rfl, rfl, by simp, rfl⟩
    · exact ⟨_, rfl, rfl, rfl, rfl, by simp, rfl⟩
  rw [hnext]
  refine ⟨?_, h.pump, ?_, h.archived, fun b hb => ?_, .inl halone, fun he => ?_,
    fun hsp => absurd hsp hfresh, h.quiet, fun _ => .inl halone.1, fun m hm => ?_⟩
  · show s.queue ++ [chunkFrame req (rest.take chunkBytes)] = _ ++ pc.queued
    rw [hqueue, hqueued]
    simp [Pc.queued]
  · show (recovered ++ [rest.take chunkBytes]).flatten ++ pc.rest = s.archived
    rw [hrest, List.flatten_append, List.flatten_singleton, List.append_assoc,
      List.take_append_drop]
    exact htaken
  · rcases List.mem_append.mp hb with hb | hb
    · exact h.small b hb
    · obtain rfl := List.mem_singleton.mp hb
      exact List.length_take_le _ _
  · exact absurd (hearly.symm.trans he) (by simp)
  · exact hlast m (hlast'.symm.trans hm)

theorem report (h : Books serde req s started pumped recovered) {last : ControlMessage}
    (hpc : s.pc = .finishing last) :
    Books serde req { s with pc := .reported last, queue := s.queue ++ [last] }
      started pumped recovered := by
  have hqueue := h.queue
  have htaken := h.taken
  have hsettled := h.settled
  have hlast := h.last
  rw [hpc] at hqueue htaken hsettled hlast
  refine ⟨?_, h.pump, htaken, h.archived, h.small, ?_, fun he => (by cases he),
    fun hsp => (by cases hsp), h.quiet, hsettled, hlast⟩
  · show s.queue ++ [last] = _
    rw [hqueue]
    simp [Pc.queued]
  · rcases h.alone with hend | ⟨hrec, harch, -⟩
    · exact .inl hend
    · exact .inr ⟨hrec, harch, rfl⟩

/-- Nothing was started, so there is no log. -/
theorem spawnFailed (h : Books serde req s started pumped recovered) (hpc : s.pc = .spawning) :
    Books serde req
      { s with pc := .finishing (.buildFinished req.buildId .spawnFailed none [] false) }
      started pumped recovered := by
  obtain ⟨hunborn, -, -, hstderr⟩ := h.fresh hpc
  obtain ⟨-, harch⟩ := h.early (by rw [hpc]; rfl)
  have hlog : s.log.length = 0 := by
    rw [BuildTask.log, if_pos hstderr, harch]
    rfl
  refine h.setPc (by rw [hpc]; rfl) (by rw [hpc]; rfl) (fun he => (by cases he)) (by simp)
    (fun he => (by cases he)) (fun _ => .inr (.inl hunborn)) fun m hm => ?_
  obtain rfl := Option.some.inj hm
  refine ⟨_, _, _, _, rfl, length_toVec_no_paths_le serde req _ _ _, ?_⟩
  rw [hlog]
  exact ⟨fun hf => absurd hf Bool.false_ne_true, fun hlt => absurd hlt (Nat.not_lt_zero _)⟩

theorem poll (h : Books serde req s started pumped recovered) {s' : BuildTask}
    (hact : s.act req .poll = some s') : Books serde req s' started pumped recovered := by
  obtain ⟨hfinished, hunborn, ⟨-, rfl⟩ | ⟨hab, rfl⟩⟩ := BuildTask.act_poll hact
  · refine h.setPump (h.pump.stop s.pump.polled (.inr rfl)) rfl h.quiet fun hend => ?_
    rcases hend with hend | hend
    · exact absurd hend hfinished
    · exact absurd hend hunborn
  · exact h.setPump (h.pump.congr rfl rfl rfl) rfl
      (fun htrue => absurd (htrue.symm.trans hab) (by simp)) fun _ => rfl

theorem eof (h : Books serde req s started pumped recovered) (hpc : s.pump.pc = .reading) :
    Books serde req { s with pump := { s.pump with pc := .finished, polled := false } }
      started pumped recovered := by
  refine h.setPump (h.pump.stop false (.inl ⟨rfl, hpc⟩)) rfl (fun hab => ⟨rfl, (h.quiet hab).2⟩)
    fun hend => ?_
  rw [hpc] at hend
  rcases hend with hend | hend
  · cases hend
  · cases hend

/-- After the join: to the end, or to the recovery if nothing was sent. -/
theorem joined (h : Books serde req s started pumped recovered) {exit : ExitStatus}
    (hpc : s.pc = .joining exit) (hfinished : s.pump.pc = .finished) {last : ControlMessage}
    (hlast : LastOk serde req s last) {pc : Pc} (hpcLast : pc.last? = some last)
    (hqueued : pc.queued = []) (hrest : pc.rest = []) (hne : pc ≠ .spawning)
    (hrecovery : pc.isRecovery = true → s.pump.sent = 0) :
    Books serde req { s with pc := pc } started pumped recovered := by
  refine h.setPc (by rw [hqueued, hpc]; rfl) (by rw [hrest, hpc]; rfl)
    (fun _ => (by rw [hpc]; rfl)) hne (fun hrec => ⟨hfinished, ?_⟩) (fun _ => .inl hfinished)
    fun m hm => ?_
  · have hwhole := h.pump.whole (by rw [hfinished]; simp)
    have hsent := h.pump.sent
    rw [hrecovery hrec] at hsent
    rw [hfinished] at hwhole
    rw [← hwhole, List.eq_nil_of_length_eq_zero hsent.symm]
    rfl
  · obtain rfl := Option.some.inj (hpcLast.symm.trans hm)
    exact hlast

/-- There is no archived log. -/
theorem noLog (h : Books serde req s started pumped recovered) {last : ControlMessage}
    (hpc : s.pc = .recovering last) :
    Books serde req { s with pc := .finishing last } started pumped recovered := by
  have hsettled := h.settled
  have hlast := h.last
  rw [hpc] at hsettled hlast
  exact h.setPc (by rw [hpc]; rfl) (by rw [hpc]; rfl) (fun he => (by cases he)) (by simp)
    (fun he => (by cases he)) hsettled hlast

/-- **A step of any of the three keeps the books.** -/
theorem step (h : Books serde req s started pumped recovered) {a : Action} {s' : BuildTask}
    (hmeets : Meets req s a) (hact : s.act req a = some s') :
    ∃ started pumped recovered, Books serde req s' started pumped recovered := by
  cases a with
  | spawned pid =>
    obtain ⟨hpc, rfl⟩ := of_guard hact
    exact ⟨_, _, _, h.spawned hpc pid⟩
  | spawnFailed =>
    obtain ⟨hpc, rfl⟩ := of_guard hact
    exact ⟨_, _, _, h.spawnFailed hpc⟩
  | abort =>
    obtain ⟨hpc, rfl⟩ := of_guard hact
    exact ⟨_, _, _, h.setPc (by rw [hpc]; rfl) (by rw [hpc]; rfl) (fun _ => (by rw [hpc]; rfl))
      (by simp) (fun he => (by cases he)) (fun he => (by cases he)) fun m hm => (by cases hm)⟩
  | exit exit =>
    rw [BuildTask.act] at hact
    split at hact
    · rename_i hpc
      obtain rfl := Option.some.inj hact
      exact ⟨_, _, _, h.setPc (by rw [hpc]; rfl) (by rw [hpc]; rfl) (fun _ => (by rw [hpc]; rfl))
        (by simp) (fun he => (by cases he)) (fun he => (by cases he)) fun m hm => (by cases hm)⟩
    · rename_i hpc
      obtain rfl := Option.some.inj hact
      exact ⟨_, _, _, h.killed hpc exit (hmeets hpc)⟩
    · cases hact
  | poll =>
    exact ⟨_, _, _, h.poll hact⟩
  | park =>
    obtain ⟨-, rfl⟩ := of_guard hact
    exact ⟨_, _, _, h.setPump (h.pump.congr rfl rfl rfl) rfl (fun hab => ⟨rfl, (h.quiet hab).2⟩)
      fun _ => rfl⟩
  | read chunk =>
    obtain ⟨⟨hpolled, hpc, -, hlen⟩, rfl⟩ := of_guard hact
    exact ⟨_, _, _, h.read hpolled hpc hlen hmeets⟩
  | eof =>
    obtain ⟨⟨-, hpc⟩, rfl⟩ := of_guard hact
    exact ⟨_, _, _, h.eof hpc⟩
  | send =>
    rw [BuildTask.act] at hact
    split at hact
    · rename_i bytes hpc
      obtain ⟨hpolled, rfl⟩ := of_guard hact
      exact ⟨_, _, _, h.send hpolled hpc⟩
    · cases hact
  | stdoutRead buf =>
    obtain ⟨-, rfl⟩ := of_guard hact
    exact ⟨_, _, _, ⟨h.queue, h.pump, h.taken, h.archived, h.small, h.alone, h.early, h.fresh,
      h.quiet, h.settled, h.last⟩⟩
  | join targets =>
    rw [BuildTask.act] at hact
    split at hact
    · rename_i exit buf hpc hstdout
      split at hact
      · rename_i hready
        have hlast := h.lastOk_join hpc fun code hexit =>
          hmeets code (by rw [hpc, hexit]; rfl) buf hstdout
        split at hact
        · split at hact
          · rename_i hzero
            obtain rfl := Option.some.inj hact
            exact ⟨_, _, _, h.joined hpc hready.1 hlast rfl rfl rfl (by simp) fun _ => hzero⟩
          · obtain rfl := Option.some.inj hact
            exact ⟨_, _, _, h.joined hpc hready.1 hlast rfl rfl rfl (by simp)
              fun hrec => (by cases hrec)⟩
        · obtain rfl := Option.some.inj hact
          exact ⟨_, _, _, h.joined hpc hready.1 hlast rfl rfl rfl (by simp)
            fun hrec => (by cases hrec)⟩
      · cases hact
    · cases hact
  | readLog output =>
    rw [BuildTask.act] at hact
    split at hact
    · rename_i last hpc
      split at hact
      · rename_i b bytes
        obtain rfl := Option.some.inj hact
        exact ⟨_, _, _, h.readLog hpc (hmeets _ rfl)⟩
      · obtain rfl := Option.some.inj hact
        exact ⟨_, _, _, h.noLog hpc⟩
    · cases hact
  | sendArchived =>
    rw [BuildTask.act] at hact
    split at hact
    · rename_i rest last hpc
      obtain rfl := Option.some.inj hact
      exact ⟨_, _, _, h.sendArchived hpc⟩
    · cases hact
  | report =>
    rw [BuildTask.act] at hact
    split at hact
    · rename_i last hpc
      obtain rfl := Option.some.inj hact
      exact ⟨_, _, _, h.report hpc⟩
    · cases hact

/-- A cap that keeps nothing of a log is zero, or there was no log. -/
theorem stderr_or_archived_nil (h : Books serde req s started pumped recovered)
    (hnil : s.stderr.take req.maxLogBytes.toNat = []) : s.stderr = [] ∨ s.archived = [] := by
  rcases List.take_eq_nil_iff.mp hnil with hzero | hstderr
  · right
    have hlen := h.archived
    rw [hzero] at hlen
    exact List.eq_nil_of_length_eq_zero (Nat.le_zero.mp hlen)
  · exact .inl hstderr

/-- The chunks are a part of the log, within the cap. -/
theorem sofar (h : Books serde req s started pumped recovered) :
    (pumped ++ recovered).flatten <+: s.log ∧
      (pumped ++ recovered).flatten.length ≤ req.maxLogBytes.toNat := by
  have hpumped := h.pump.sofar
  rw [List.flatten_append]
  rcases h.alone with ⟨-, hnil⟩ | ⟨hrec, harch, -⟩
  · -- the archived log alone
    rw [hnil, List.prefix_nil] at hpumped
    have hrecovered : recovered.flatten <+: s.archived := ⟨s.pc.rest, h.taken⟩
    rw [hpumped, List.nil_append]
    refine ⟨?_, hrecovered.length_le.trans h.archived⟩
    unfold BuildTask.log
    split
    · exact hrecovered
    · rename_i hne
      rcases h.stderr_or_archived_nil hnil with hstderr | harch
      · exact absurd hstderr hne
      · rw [harch, List.prefix_nil] at hrecovered
        rw [hrecovered]
        exact List.nil_prefix
  · -- what the pump has sent
    rw [hrec, List.flatten_nil, List.append_nil]
    refine ⟨?_, hpumped.length_le.trans (List.length_take_le _ _)⟩
    unfold BuildTask.log
    split
    · rename_i hstderr
      rw [hstderr, List.take_nil, List.prefix_nil] at hpumped
      rw [hpumped]
      exact List.nil_prefix
    · exact hpumped.trans (List.take_prefix _ _)

/-- Without an abort the log is there up to the cap. -/
theorem whole (h : Books serde req s started pumped recovered) {last : ControlMessage}
    (hpc : s.pc = .reported last) (habort : s.pump.aborted = false) :
    (pumped ++ recovered).flatten = s.log.take req.maxLogBytes.toNat := by
  have hend : s.pump.pc.inFlight = [] ∧ s.pump.pc ≠ .cancelled := by
    rcases h.settled (by rw [hpc]; rfl) with hfin | hunborn | hab
    · rw [hfin]
      exact ⟨rfl, by simp⟩
    · rw [hunborn]
      exact ⟨rfl, by simp⟩
    · exact absurd (hab.symm.trans habort) (by simp)
  have hpumped := h.pump.whole hend.2
  have htaken := h.taken
  rw [hpc] at htaken
  rw [hend.1, List.append_nil] at hpumped
  have hrecovered : recovered.flatten = s.archived := by
    rw [← htaken]
    exact (List.append_nil _).symm
  rw [List.flatten_append, hpumped, hrecovered]
  rcases h.alone with ⟨-, hnil⟩ | ⟨-, harch, -⟩
  · rw [hnil, List.nil_append]
    rcases h.stderr_or_archived_nil hnil with hstderr | harch
    · rw [BuildTask.log, if_pos hstderr, List.take_of_length_le h.archived]
    · rw [BuildTask.log, harch]
      split
      · exact List.take_nil.symm
      · exact hnil.symm
  · rw [harch, List.append_nil, BuildTask.log]
    split
    · rename_i hstderr
      rw [hstderr, harch]
    · rfl

theorem lines (h : Books serde req s started pumped recovered) :
    ∀ m ∈ s.queue, (serde.toVec m).length ≤ maxLineBytes := by
  intro m hm
  rw [h.queue, List.mem_append, List.mem_append] at hm
  rcases hm with (hm | hm) | hm
  · obtain ⟨pid, -, rfl⟩ := Option.map_eq_some_iff.mp (Option.mem_toList.mp hm)
    exact length_toVec_started_le serde req pid
  · obtain ⟨bytes, hbytes, rfl⟩ := List.mem_map.mp hm
    rcases List.mem_append.mp hbytes with hbytes | hbytes
    · exact length_toVec_chunk_le serde req (h.pump.small bytes hbytes)
    · exact length_toVec_chunk_le serde req (h.small bytes hbytes)
  · have hlast := h.last m
    cases hpc : s.pc with
    | reported last =>
      rw [hpc] at hm hlast
      obtain rfl := List.mem_singleton.mp hm
      obtain ⟨-, -, -, -, -, hline, -⟩ := hlast rfl
      exact hline
    | _ =>
      rw [hpc] at hm
      cases hm

/-- **The frames that the books describe.** -/
theorem framed (h : Books serde req s started pumped recovered) :
    ∃ f chunks, Framed serde req s f chunks := by
  obtain ⟨hsofar, hcap⟩ := h.sofar
  have htexts : ∀ chunks : List Bytes,
      chunks.map (chunkFrame req) =
        (chunks.map fun bytes => String.ofList (Base64.encode bytes)).map
          (.buildLogChunk req.buildId) := by
    intro chunks
    rw [List.map_map]
    rfl
  have hdecoded : ∀ chunks : List Bytes,
      (chunks.map fun bytes => String.ofList (Base64.encode bytes)).map
        (fun text => Base64.decode text.toList) = chunks.map some := by
    intro chunks
    rw [List.map_map]
    refine List.map_congr_left fun bytes _ => ?_
    rw [Function.comp_apply, String.toList_ofList, Base64.decode_encode]
  have hqueue := h.queue
  rw [htexts] at hqueue
  cases hrep : s.pc.isReported with
  | false =>
    refine ⟨⟨started, _, none⟩, pumped ++ recovered, ?_, hdecoded _, hsofar, hcap, ?_, ?_, ?_,
      h.lines⟩
    · rw [hqueue, queued_eq_nil hrep]
      rfl
    · exact hrep.symm
    · intro status code paths logTruncated hnone
      cases hnone
    · intro hyes
      exact absurd (hrep.symm.trans hyes) (by simp)
  | true =>
    obtain ⟨last, hpc⟩ : ∃ last, s.pc = .reported last := by
      cases hpc : s.pc with
      | reported last => exact ⟨last, rfl⟩
      | _ =>
        rw [hpc] at hrep
        cases hrep
    obtain ⟨status, code, paths, logTruncated, rfl, -, hcut⟩ := h.last last (by rw [hpc]; rfl)
    refine ⟨⟨started, _, some (status, code, paths, logTruncated)⟩, pumped ++ recovered, ?_,
      hdecoded _, hsofar, hcap, ?_, ?_, fun _ => h.whole hpc, h.lines⟩
    · rw [hqueue, hpc]
      rfl
    · exact hrep.symm
    · intro status' code' paths' logTruncated' hsome
      cases hsome
      exact hcut

end Books

/-! ## To the end -/

/-- The pump is there to be awaited. -/
def Alive (s : BuildTask) : Prop :=
  s.pc.last? = none → s.pump.aborted = false ∧ (s.pc ≠ .spawning →
    s.pump.pc = .reading ∨ (∃ bytes, s.pump.pc = .sending bytes) ∨ s.pump.pc = .finished)

theorem Pump.read_cases (maxLogBytes : UInt64) (p : Pump) (chunk : Bytes) :
    (p.read maxLogBytes chunk).aborted = p.aborted ∧
      ((p.read maxLogBytes chunk).pc = p.pc ∨ (p.read maxLogBytes chunk).pc = .reading ∨
        ∃ bytes, (p.read maxLogBytes chunk).pc = .sending bytes) := by
  unfold Pump.read
  split
  · exact ⟨rfl, .inl rfl⟩
  · have htake : ∀ take : ℕ,
        (if 0 < take then PumpPc.sending (chunk.take take) else .reading) = .reading ∨
          ∃ bytes, (if 0 < take then PumpPc.sending (chunk.take take) else .reading) =
            .sending bytes := by
      intro take
      split
      · exact .inr ⟨_, rfl⟩
      · exact .inl rfl
    exact ⟨rfl, .inr (htake _)⟩

theorem Alive.step {req : Request} {s s' : BuildTask} {a : Action} (h : Alive s)
    (hact : s.act req a = some s') : Alive s' := by
  intro hlast
  cases a with
  | spawned pid =>
    obtain ⟨hpc, rfl⟩ := of_guard hact
    exact ⟨(h (by rw [hpc]; rfl)).1, fun _ => .inl rfl⟩
  | spawnFailed =>
    obtain ⟨-, rfl⟩ := of_guard hact
    cases hlast
  | abort =>
    obtain ⟨hpc, rfl⟩ := of_guard hact
    obtain ⟨habort, hpump⟩ := h (by rw [hpc]; rfl)
    exact ⟨habort, fun _ => hpump (by simp [hpc])⟩
  | exit exit =>
    rw [BuildTask.act] at hact
    split at hact
    · rename_i hpc
      obtain rfl := Option.some.inj hact
      obtain ⟨habort, hpump⟩ := h (by rw [hpc]; rfl)
      exact ⟨habort, fun _ => hpump (by simp [hpc])⟩
    · obtain rfl := Option.some.inj hact
      cases hlast
    · cases hact
  | poll =>
    -- only an aborted pump is dropped
    obtain ⟨-, -, ⟨hab, rfl⟩ | ⟨-, rfl⟩⟩ := BuildTask.act_poll hact
    · exact absurd (hab.symm.trans (h hlast).1) (by simp)
    · exact h hlast
  | park =>
    obtain ⟨-, rfl⟩ := of_guard hact
    exact h hlast
  | read chunk =>
    obtain ⟨⟨-, hpc, -⟩, rfl⟩ := of_guard hact
    obtain ⟨habort, hread⟩ := s.pump.read_cases req.maxLogBytes chunk
    refine ⟨habort.trans (h hlast).1, fun _ => ?_⟩
    rcases hread with hsame | hread | hsend
    · exact .inl (hsame.trans hpc)
    · exact .inl hread
    · exact .inr (.inl hsend)
  | eof =>
    obtain ⟨-, rfl⟩ := of_guard hact
    exact ⟨(h hlast).1, fun _ => .inr (.inr rfl)⟩
  | send =>
    rw [BuildTask.act] at hact
    split at hact
    · obtain ⟨-, rfl⟩ := of_guard hact
      exact ⟨(h hlast).1, fun _ => .inl rfl⟩
    · cases hact
  | stdoutRead buf =>
    obtain ⟨-, rfl⟩ := of_guard hact
    exact h hlast
  | join targets =>
    rw [BuildTask.act] at hact
    split at hact
    · split at hact
      · split at hact
        · split at hact
          · obtain rfl := Option.some.inj hact
            cases hlast
          · obtain rfl := Option.some.inj hact
            cases hlast
        · obtain rfl := Option.some.inj hact
          cases hlast
      · cases hact
    · cases hact
  | readLog output =>
    rw [BuildTask.act] at hact
    split at hact
    · split at hact
      · obtain rfl := Option.some.inj hact
        cases hlast
      · obtain rfl := Option.some.inj hact
        cases hlast
    · cases hact
  | sendArchived =>
    rw [BuildTask.act] at hact
    split at hact
    · obtain rfl := Option.some.inj hact
      dsimp only at hlast
      split at hlast
      · cases hlast
      · cases hlast
    · cases hact
  | report =>
    rw [BuildTask.act] at hact
    split at hact
    · obtain rfl := Option.some.inj hact
      cases hlast
    · cases hact

/-- The task can be brought to its end. -/
def Completes (req : Request) (s : BuildTask) : Prop :=
  ∃ s', Runs (BuildTask.act req) Always s s' ∧ s'.pc.isReported = true

namespace Completes

variable {req : Request} {s s' : BuildTask}

theorem step {a : Action} (hact : s.act req a = some s') (h : Completes req s') :
    Completes req s := by
  obtain ⟨s₁, hrun, hrep⟩ := h
  exact ⟨s₁, (Runs.step .refl trivial hact).trans hrun, hrep⟩

theorem of_finishing {last : ControlMessage} (hpc : s.pc = .finishing last) :
    Completes req s :=
  .step (a := .report) (by rw [BuildTask.act, hpc]) ⟨_, .refl, rfl⟩

theorem of_archiving (n : ℕ) {rest : Bytes} {last : ControlMessage}
    (hpc : s.pc = .archiving rest last) (hn : rest.length ≤ n) : Completes req s := by
  induction n generalizing s rest with
  | zero =>
    have hdrop : rest.drop chunkBytes = [] := by
      rw [List.eq_nil_of_length_eq_zero (Nat.le_zero.mp hn)]
      rfl
    refine .step (a := .sendArchived) (by rw [BuildTask.act, hpc]) ?_
    exact of_finishing (if_pos hdrop)
  | succ n ih =>
    refine .step (a := .sendArchived) (by rw [BuildTask.act, hpc]) ?_
    by_cases hdrop : rest.drop chunkBytes = []
    · exact of_finishing (if_pos hdrop)
    · refine ih (if_neg hdrop) ?_
      rw [List.length_drop]
      unfold chunkBytes
      omega

theorem of_recovering {last : ControlMessage} (hpc : s.pc = .recovering last) :
    Completes req s :=
  .step (a := .readLog none) (by rw [BuildTask.act, hpc]) (of_finishing rfl)

/-- Both tasks are through. -/
theorem of_joined {exit : ExitStatus} {buf : String} (hpc : s.pc = .joining exit)
    (hpump : s.pump.pc = .finished) (hstdout : s.stdout = some buf) : Completes req s := by
  -- no link could be read
  have hready : s.pump.pc = .finished ∧
      (List.replicate (printedPaths buf).length (none : Option String)).length =
        (printedPaths buf).length := ⟨hpump, List.length_replicate⟩
  obtain ⟨s', hact, last, hnext⟩ : ∃ s',
      s.act req (.join (List.replicate (printedPaths buf).length none)) = some s' ∧
      ∃ last, s'.pc = .recovering last ∨ s'.pc = .finishing last := by
    rw [BuildTask.act, hpc, hstdout]
    dsimp only
    rw [if_pos hready]
    split
    · split
      · exact ⟨_, rfl, _, .inl rfl⟩
      · exact ⟨_, rfl, _, .inr rfl⟩
    · exact ⟨_, rfl, _, .inr rfl⟩
  rcases hnext with hnext | hnext
  · exact .step hact (of_recovering hnext)
  · exact .step hact (of_finishing hnext)

/-- The pump is at its end. -/
theorem of_pumped {exit : ExitStatus} (hpc : s.pc = .joining exit)
    (hpump : s.pump.pc = .finished) : Completes req s := by
  cases hstdout : s.stdout with
  | some buf => exact of_joined hpc hpump hstdout
  | none =>
    refine .step (a := .stdoutRead "") (if_pos ⟨hstdout, ?_⟩) (of_joined hpc hpump rfl)
    rw [hpump]
    simp

theorem of_reading {exit : ExitStatus} (hpc : s.pc = .joining exit)
    (hpump : s.pump.pc = .reading) (hpolled : s.pump.polled = true) : Completes req s :=
  .step (a := .eof) (if_pos ⟨hpolled, hpump⟩) (of_pumped hpc rfl)

theorem of_polled {exit : ExitStatus} (hpc : s.pc = .joining exit)
    (hpump : s.pump.pc = .reading ∨ (∃ bytes, s.pump.pc = .sending bytes) ∨
      s.pump.pc = .finished) (hpolled : s.pump.polled = true) : Completes req s := by
  rcases hpump with hread | ⟨bytes, hsend⟩ | hfin
  · exact of_reading hpc hread hpolled
  · have hact : s.act req .send = some { s with
        pump := { s.pump with pc := .reading, sent := s.pump.sent + UInt64.ofNat bytes.length }
        queue := s.queue ++ [chunkFrame req bytes] } := by
      rw [BuildTask.act, hsend]
      exact if_pos hpolled
    exact .step hact (of_reading hpc rfl hpolled)
  · exact of_pumped hpc hfin

theorem of_joining {exit : ExitStatus} (halive : Alive s) (hpc : s.pc = .joining exit) :
    Completes req s := by
  obtain ⟨habort, hpump⟩ := halive (by rw [hpc]; rfl)
  have hpump := hpump (by simp [hpc])
  cases hpolled : s.pump.polled with
  | true => exact of_polled hpc hpump hpolled
  | false =>
    have hnot : ¬ s.pump.polled = true := by simp [hpolled]
    have hab : ¬ s.pump.aborted = true := by simp [habort]
    have hcomplete : s.act req .poll = some { s with pump := { s.pump with polled := true } } →
        Completes req s := fun hact => .step hact (of_polled hpc hpump rfl)
    rcases hpump with hread | ⟨bytes, hsend⟩ | hfin
    · refine hcomplete ?_
      rw [BuildTask.act, hread]
      exact (if_neg hnot).trans (if_neg hab)
    · refine hcomplete ?_
      rw [BuildTask.act, hsend]
      exact (if_neg hnot).trans (if_neg hab)
    · exact of_pumped hpc hfin

/-- **Wherever the task stands, it can come to its end.** -/
theorem of_alive (halive : Alive s) : Completes req s := by
  cases hpc : s.pc with
  | spawning => exact .step (a := .spawnFailed) (if_pos hpc) (of_finishing rfl)
  | selecting =>
    have hact : s.act req (.exit .waitFailed) = some { s with pc := .joining .waitFailed } := by
      rw [BuildTask.act, hpc]
    exact .step hact (of_joining (halive.step hact) rfl)
  | killing =>
    exact .step (a := .exit .waitFailed) (by rw [BuildTask.act, hpc]) (of_finishing rfl)
  | joining exit => exact of_joining halive hpc
  | recovering last => exact of_recovering hpc
  | archiving rest last => exact of_archiving rest.length hpc le_rfl
  | finishing last => exact of_finishing hpc
  | reported last => exact ⟨s, .refl, by rw [hpc]; rfl⟩

end Completes

/-! ## Every run -/

/-- **The frames of every run.** They are well-formed and bounded at every moment, and the task can
    always come to its `BuildFinished`. -/
theorem framed_of_run {E : Type} {serde : SerdeJson E} {req : Request} {s : BuildTask}
    (h : Runs (BuildTask.act req) (Meets req) .start s) :
    (∃ f chunks, Framed serde req s f chunks) ∧ Completes req s := by
  have hbooks : ∃ started pumped recovered, Books serde req s started pumped recovered := by
    induction h with
    | refl => exact ⟨none, [], [], .start serde req⟩
    | step _ hmeets hact ih =>
      obtain ⟨started, pumped, recovered, hs⟩ := ih
      exact hs.step hmeets hact
  have halive : Alive s :=
    h.invariant (fun _ => ⟨rfl, fun hne => absurd rfl hne⟩) fun hs _ hact => hs.step hact
  obtain ⟨started, pumped, recovered, hbooks⟩ := hbooks
  exact ⟨hbooks.framed, .of_alive halive⟩

/-- The chunks are where the texts are. -/
theorem Frames.mem_texts {f : Frames} {buildId : Int64} {text : String}
    (h : .buildLogChunk buildId text ∈ f.messages buildId) : text ∈ f.texts := by
  rw [Frames.messages, List.mem_append, List.mem_append] at h
  rcases h with (h | h) | h
  · obtain ⟨pid, -, hpid⟩ := Option.map_eq_some_iff.mp (Option.mem_toList.mp h)
    cases hpid
  · obtain ⟨text', htext, heq⟩ := List.mem_map.mp h
    cases heq
    exact htext
  · obtain ⟨⟨status, code, paths, cut⟩, -, hlast⟩ :=
      Option.map_eq_some_iff.mp (Option.mem_toList.mp h)
    cases hlast

/-- A build with a cap. -/
def request (maxLogBytes : UInt64) : Request :=
  { buildId := 7, agentOwnsGcroot := false, maxLogBytes := maxLogBytes }

/-- A build that logs `hi` and is successful. -/
def logged : List Action :=
  [.spawned (some 42), .poll, .read [104, 105], .send, .eof, .exit (.exited true (some 0)),
    .stdoutRead "/nix/store/x\n", .join [none], .report]

theorem framed_of_run_logged :
    ∃ s, Runs (BuildTask.act (request 10)) (Meets (request 10)) .start s ∧
      s.queue = [.buildStarted 7 (some 42), .buildLogChunk 7 "aGk=",
        .buildFinished 7 .success (some 0) ["/nix/store/x"] false] ∧
      ∃ f chunks, Framed twoTexts (request 10) s f chunks := by
  obtain ⟨s, hs⟩ : ∃ s, script (BuildTask.act (request 10)) (Meets (request 10)) .start logged =
      some s := Option.isSome_iff_exists.mp (by decide)
  have hqueue : (script (BuildTask.act (request 10)) (Meets (request 10)) .start logged).map
      BuildTask.queue = some [.buildStarted 7 (some 42), .buildLogChunk 7 "aGk=",
        .buildFinished 7 .success (some 0) ["/nix/store/x"] false] := by decide
  rw [hs] at hqueue
  exact ⟨s, .of_script hs, Option.some.inj hqueue, (framed_of_run (.of_script hs)).1⟩

/-- Nothing is logged, and the archived log is `hi`. -/
def fetched : List Action :=
  [.spawned (some 42), .poll, .eof, .exit (.exited true (some 0)), .stdoutRead "/nix/store/x\n",
    .join [none], .readLog (some [104, 105]), .sendArchived, .report]

/-- **The archived log is not capped**: two bytes for a cap of one. -/
theorem not_framed_archived :
    ¬ ∀ (req : Request) (s : BuildTask), Runs (BuildTask.act req) Always .start s →
      ∃ f chunks, Framed twoTexts req s f chunks := by
  intro h
  obtain ⟨s, hs⟩ : ∃ s, script (BuildTask.act (request 1)) Always .start fetched = some s :=
    Option.isSome_iff_exists.mp (by decide)
  have hqueue : (script (BuildTask.act (request 1)) Always .start fetched).map BuildTask.queue =
      some [.buildStarted 7 (some 42), .buildLogChunk 7 "aGk=",
        .buildFinished 7 .success (some 0) ["/nix/store/x"] false] := by decide
  rw [hs] at hqueue
  obtain ⟨f, chunks, hf⟩ := h (request 1) s (.of_script hs)
  have hchunk : .buildLogChunk 7 "aGk=" ∈ f.messages 7 := by
    have hmessages : s.queue = f.messages 7 := hf.queue
    rw [← hmessages, Option.some.inj hqueue]
    exact .tail _ (.head _)
  have hbytes : [104, 105] ∈ chunks := by
    have hdecode : Base64.decode "aGk=".toList = some [104, 105] := by decide
    have hmem := List.mem_map_of_mem (f := fun text => Base64.decode text.toList)
      (f.mem_texts hchunk)
    rw [hf.decoded, hdecode] at hmem
    simpa using hmem
  have hlong := (List.sublist_flatten_of_mem hbytes).length_le
  exact absurd (hlong.trans hf.capped) (by decide)

end Argunix.HandleBuild
