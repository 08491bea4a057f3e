/-
  The durable coverage journal of one source (`fotwd/src/failover/coverage.rs`).

  A journal is a file of JSON lines: a header, then one line for every commit of
  transcribed audio and every switch to another speech engine. This module translates the
  data, the validation of each kind of record, the append path and the load path. JSON is
  a parameter. Each call comes with the outcomes of the system calls it makes (`Io`), so a
  disk error, and a crash inside the call, is the same call with another outcome.

  `SttCapabilities` is carried by an engine descriptor and read by none of these functions;
  it is left out. A `HashSet` of identifiers is a list of which only membership is asked.
-/
import FlyOnTheWall.Lib.Lines
import FlyOnTheWall.Pipeline.Replay
import Mathlib.Data.Rat.Defs
import Mathlib.Algebra.Order.Ring.Rat

namespace FlyOnTheWall.Coverage

open Lib Replay

def maxRecordBytes : ℕ := 1048576
def newline : UInt8 := 10

/-! ## Data -/

inductive Source
  | mic
  | system
  deriving DecidableEq, Repr

def replaySource : Source → ReplaySource
  | .system => .system
  | .mic => .mic

/-- A floating-point number, up to the sign of zero. -/
inductive Number
  | finite (value : ℚ)
  | infinite (negative : Bool)
  | nan
  deriving DecidableEq

namespace Number

def isFinite : Number → Bool
  | finite _ => true
  | _ => false

/-- `==` on floating-point numbers. -/
def same : Number → Number → Bool
  | finite a, finite b => a == b
  | infinite a, infinite b => a == b
  | _, _ => false

/-- Membership in a closed range of finite bounds. -/
def within (low high : ℚ) : Number → Bool
  | finite a => decide (low ≤ a) && decide (a ≤ high)
  | _ => false

end Number

def sameConfidence : Option Number → Option Number → Bool
  | none, none => true
  | some a, some b => a.same b
  | _, _ => false

inductive TimestampSource
  | provider
  | estimated
  deriving DecidableEq, Repr

structure Word where
  text : String
  startMs : ℕ
  endMs : ℕ
  confidence : Option Number
  speaker : Option String
  deriving DecidableEq

def Word.same (a b : Word) : Bool :=
  a.text == b.text && a.startMs == b.startMs && a.endMs == b.endMs &&
    sameConfidence a.confidence b.confidence && a.speaker == b.speaker

structure TranscriptSegment where
  id : String
  sessionId : String
  source : Source
  speaker : Option String
  text : String
  startMs : ℕ
  endMs : ℕ
  words : List Word
  confidence : Option Number
  language : Option String
  isFinal : Bool
  revision : ℕ
  provider : String
  model : String
  timestampSource : TimestampSource
  deriving DecidableEq

def TranscriptSegment.same (a b : TranscriptSegment) : Bool :=
  a.id == b.id && a.sessionId == b.sessionId && a.source == b.source &&
    a.speaker == b.speaker && a.text == b.text && a.startMs == b.startMs &&
    a.endMs == b.endMs && a.words.isEqv b.words Word.same &&
    sameConfidence a.confidence b.confidence && a.language == b.language &&
    a.isFinal == b.isFinal && a.revision == b.revision && a.provider == b.provider &&
    a.model == b.model && a.timestampSource == b.timestampSource

structure EngineDescriptor where
  provider : String
  model : String
  revision : Option String
  deriving DecidableEq

structure EndpointConfig where
  frameMs : ℕ
  prerollMs : ℕ
  hangoverMs : ℕ
  minSpeechMs : ℕ
  softMaxMs : ℕ
  hardMaxMs : ℕ
  marginDb : Number
  speechFloorDb : Number
  floorWindowMs : ℕ
  minRangeDb : Number
  deriving DecidableEq

structure LocalPlan where
  engine : EngineDescriptor
  language : Option String
  endpoint : EndpointConfig
  deriving DecidableEq

inductive SwitchReason
  | auth
  | quota
  | transportBudget
  | rateLimitBudget
  | speechStall
  | manual
  | resumePending
  | finishingTail
  deriving DecidableEq, Repr

structure ProviderEpoch where
  number : ℕ
  fromSample : ℕ
  reason : Option SwitchReason
  engine : EngineDescriptor
  deriving DecidableEq

structure CommittedAudio where
  epoch : ℕ
  fromSample : ℕ
  throughSample : ℕ
  segments : List TranscriptSegment
  gap : Option String
  deriving DecidableEq

def CommittedAudio.same (a b : CommittedAudio) : Bool :=
  a.epoch == b.epoch && a.fromSample == b.fromSample && a.throughSample == b.throughSample &&
    a.segments.isEqv b.segments TranscriptSegment.same && a.gap == b.gap

inductive CommitOutcome
  | new
  | alreadyCommitted
  deriving DecidableEq, Repr

structure Header where
  schema : ℕ
  sessionId : String
  source : Source
  firstSample : ℕ
  initial : EngineDescriptor
  fallback : Option LocalPlan
  deriving DecidableEq

inductive Entry
  | opened (header : Header)
  | switched (epoch : ProviderEpoch)
  | committed (commit : CommittedAudio)
  deriving DecidableEq

/-- What a journal accepts after its header. -/
inductive Record
  | switched (epoch : ProviderEpoch)
  | committed (commit : CommittedAudio)
  deriving DecidableEq

def Record.entry : Record → Entry
  | .switched epoch => .switched epoch
  | .committed commit => .committed commit

/-! ## Validation of plans and engines -/

def validateEngine (engine : EngineDescriptor) : Except IoError Unit :=
  refuseIf (engine.provider.isEmpty || engine.provider.utf8ByteSize > 128 ||
      engine.model.isEmpty || engine.model.utf8ByteSize > 512 ||
      engine.revision.any (·.utf8ByteSize > 512))
    (invalid "invalid provider identity")

def LocalPlan.validate (plan : LocalPlan) : Except IoError Unit := do
  validateEngine plan.engine
  let e := plan.endpoint
  refuseIf (!(["whispercpp", "fotw-speechd"].contains plan.engine.provider) ||
      plan.language.any (fun l => l.isEmpty || l.utf8ByteSize > 32 ||
        !l.toList.all fun c => c.isAlphanum || c == '-') ||
      !(1 ≤ e.frameMs && e.frameMs ≤ 1000) || e.prerollMs > 5000 || e.hangoverMs > 30000 ||
      e.hardMaxMs == 0 || e.hardMaxMs > 30000 || e.softMaxMs > 30000 ||
      e.minSpeechMs > e.hardMaxMs || e.floorWindowMs < e.frameMs || e.floorWindowMs > 60000 ||
      !e.marginDb.isFinite || !e.marginDb.within 0 120 ||
      !e.speechFloorDb.isFinite || !e.speechFloorDb.within (-160) 0 ||
      !e.minRangeDb.isFinite || !e.minRangeDb.within 0 120)
    (invalid "invalid saved local inference plan")

def validateFallback : Option LocalPlan → Except IoError Unit
  | none => .ok ()
  | some plan => plan.validate

/-! ## The journal in memory -/

/-- `accepted` lists the records in the order in which they were accepted. It is not a
    field of the source, where the same records are kept as `epochs` and `commits`. -/
structure Journal where
  header : Header
  epoch : ProviderEpoch
  epochs : List ProviderEpoch
  commits : List CommittedAudio
  ids : List String
  committed : ℕ
  failed : Bool
  validBytes : ℕ
  accepted : List Record

def initialEpoch (header : Header) : ProviderEpoch where
  number := 0
  fromSample := header.firstSample
  reason := none
  engine := header.initial

namespace Journal

def fromHeader (header : Header) : Journal where
  header
  epoch := initialEpoch header
  epochs := [initialEpoch header]
  commits := []
  ids := []
  committed := header.firstSample
  failed := false
  validBytes := 0
  accepted := []

variable (j : Journal)

def healthy : Except IoError Unit :=
  refuseIf j.failed (invalid "coverage journal failed; recovery required")

def validateSwitch (epoch : ProviderEpoch) : Except IoError Unit := do
  validateEngine epoch.engine
  refuseIf (checkedAdd j.epoch.number 1 != some epoch.number ||
      epoch.fromSample != j.committed || epoch.reason.isNone)
    (invalid "invalid provider epoch transition")

/-- The test of one word of a segment. -/
def refusesWord (segment : TranscriptSegment) (word : Word) : Bool :=
  word.startMs < segment.startMs || word.endMs > segment.endMs ||
    word.endMs < word.startMs || word.confidence.any (!·.isFinite)

/-- The test of one segment, given the identifiers seen earlier in the same commit. -/
def refusesSegment (commit : CommittedAudio) (seen : List String)
    (segment : TranscriptSegment) : Bool :=
  segment.id.isEmpty || seen.contains segment.id || j.ids.contains segment.id ||
    !segment.isFinal || segment.sessionId != j.header.sessionId ||
    segment.source != j.header.source || segment.provider != j.epoch.engine.provider ||
    segment.model != j.epoch.engine.model || segment.startMs < commit.fromSample / 16 ||
    segment.endMs < segment.startMs || segment.endMs > commit.throughSample / 16 ||
    segment.confidence.any (!·.isFinite) || segment.words.any (refusesWord segment)

def checkSegments (j : Journal) (commit : CommittedAudio) :
    List String → List TranscriptSegment → Except IoError Unit
  | _, [] => .ok ()
  | seen, segment :: rest => do
    refuseIf (j.refusesSegment commit seen segment)
      (invalid "segment identity or interval does not match its coverage")
    j.checkSegments commit (segment.id :: seen) rest

def validateCommit (audio : Reader) (commit : CommittedAudio) : Except IoError Unit := do
  refuseIf (commit.epoch != j.epoch.number || commit.fromSample != j.committed ||
      commit.throughSample ≤ commit.fromSample ||
      commit.gap.any fun reason =>
        reason.isEmpty || reason.utf8ByteSize > 512 || !commit.segments.isEmpty)
    (invalid "coverage must extend the current epoch contiguously")
  let _ ← audio.readFrom commit.throughSample 1
  j.checkSegments commit [] commit.segments

def accept (commit : CommittedAudio) : Journal :=
  { j with
    committed := commit.throughSample
    ids := j.ids ++ commit.segments.map (·.id)
    commits := j.commits ++ [commit]
    accepted := j.accepted ++ [.committed commit] }

def pushEpoch (epoch : ProviderEpoch) : Journal :=
  { j with epochs := j.epochs ++ [epoch], epoch, accepted := j.accepted ++ [.switched epoch] }

end Journal

/-! ## Appending -/

/-- Outcomes of the system calls of one operation: `sync_data` on the audio, the number of
    bytes after which `write_all` fails, `sync_data` on the journal, the directory sync and
    the clean-up of a failed creation, `set_len` of a repair. -/
structure Io where
  audioSync : Bool
  write : Option ℕ
  sync : Bool
  dirSync : Bool
  remove : Bool
  setLen : Bool

/-- Every system call succeeds. -/
def Io.good : Io where
  audioSync := true
  write := none
  sync := true
  dirSync := true
  remove := true
  setLen := true

variable (codec : Codec Entry)

def encode (entry : Entry) : Except IoError (List UInt8) := do
  refuseIf ((codec.toVec entry).length > maxRecordBytes - 1)
    (invalid "coverage record exceeds size limit")
  return codec.toVec entry ++ [newline]

namespace Journal

variable (io : Io)

/-- `write_all` and `sync_data`; both must succeed. -/
def writeRecord (bytes : List UInt8) (file : DurableFile) : DurableFile × Bool :=
  if (file.writeAll bytes io.write).2 then (file.writeAll bytes io.write).1.syncData io.sync
  else ((file.writeAll bytes io.write).1, false)

def append (j : Journal) (file : DurableFile) (entry : Entry) :
    Except IoError Unit × Journal × DurableFile :=
  match (do j.healthy; encode codec entry) with
  | .error e => (.error e, j, file)
  | .ok bytes =>
    let written := writeRecord io bytes file
    if written.2 then
      match checkedAdd j.validBytes bytes.length with
      | some validBytes => (.ok (), { j with validBytes }, written.1)
      | none => (.error (invalid "journal length overflow"), j, written.1)
    else (.error .other, { j with failed := true }, written.1)

/-- What an operation of an open journal leaves behind. -/
structure Left where
  journal : Journal
  file : DurableFile
  audio : Reader

variable (s : Left) (epoch fromSample throughSample : ℕ)

variable (segments : List TranscriptSegment)

def record (gap : Option String) : Except IoError CommitOutcome × Left :=
  let commit : CommittedAudio := ⟨epoch, fromSample, throughSample, segments, gap⟩
  match (do
      s.journal.healthy
      refuseIf (epoch != s.journal.epoch.number) (invalid "stale provider epoch")) with
  | .error e => (.error e, s)
  | .ok () =>
    match s.journal.commits.find? fun c =>
        c.fromSample == fromSample && c.throughSample == throughSample with
    | some prior =>
      if prior.same commit then (.ok .alreadyCommitted, s)
      else (.error (invalid "conflicting committed interval"), s)
    | none =>
      match s.journal.validateCommit s.audio commit with
      | .error e => (.error e, s)
      | .ok () =>
        match s.audio.syncThrough throughSample io.audioSync with
        | (.error e, audio) => (.error e, { s with audio })
        | (.ok (), audio) =>
          match append codec io s.journal s.file (.committed commit) with
          | (.error e, j, file) => (.error e, ⟨j, file, audio⟩)
          | (.ok (), j, file) => (.ok .new, ⟨j.accept commit, file, audio⟩)

def commit : Except IoError CommitOutcome × Left :=
  record codec io s epoch fromSample throughSample segments none

def skip (reason : String) : Except IoError CommitOutcome × Left :=
  record codec io s epoch fromSample throughSample [] (some reason)

def switch (s : Left) (engine : EngineDescriptor)
    (reason : SwitchReason) : Except IoError ProviderEpoch × Left :=
  match (do
      s.journal.healthy
      let number ← okOr (checkedAdd s.journal.epoch.number 1) (invalid "provider epoch overflow")
      let epoch : ProviderEpoch := ⟨number, s.journal.committed, some reason, engine⟩
      s.journal.validateSwitch epoch
      return epoch) with
  | .error e => (.error e, s)
  | .ok epoch =>
    match append codec io s.journal s.file (.switched epoch) with
    | (.error e, j, file) => (.error e, { s with journal := j, file })
    | (.ok (), j, file) => (.ok epoch, { s with journal := j.pushEpoch epoch, file })

end Journal

/-! ## Loading -/

def readLine (rest : List UInt8) : Except IoError (List UInt8 × List UInt8) := do
  let line := takeLine newline (maxRecordBytes + 1) rest
  refuseIf (line.1.length > maxRecordBytes) (invalid "coverage record exceeds size limit")
  return line

namespace Journal

/-- One complete line after the header. -/
def applyEntry (j : Journal) (audio : Reader) : Entry → Except IoError Journal
  | .opened _ => .error (invalid "duplicate coverage header")
  | .switched epoch => do
    j.validateSwitch epoch
    return j.pushEpoch epoch
  | .committed commit => do
    j.validateCommit audio commit
    return j.accept commit

/-- The journal, the length of the validated lines and whether a torn line follows them.
    Every line read is nonempty, so the fuel of a file is its length. -/
def loadLoop (codec : Codec Entry) (audio : Reader) :
    ℕ → Journal → ℕ → List UInt8 → Except IoError (Journal × ℕ × Bool)
  | 0, j, validBytes, _ => .ok (j, validBytes, false)
  | fuel + 1, j, validBytes, rest => do
    let (line, rest) ← readLine rest
    if line.isEmpty then .ok (j, validBytes, false)
    else if line.getLast? != some newline then .ok (j, validBytes, true)
    else do
      let entry ← okOr (codec.fromSlice line) .decode
      let j ← j.applyEntry audio entry
      loadLoop codec audio fuel j (validBytes + line.length) rest

variable (sessionId : String) (source : Source) (audio : Reader)

def readHeader (first : List UInt8) : Except IoError Header := do
  refuseIf (first.getLast? != some newline) (invalid "missing coverage header")
  let entry ← okOr (codec.fromSlice first) .decode
  match entry with
  | .opened header =>
    refuseIf (header.schema != 1 || header.sessionId != sessionId || header.source != source ||
        header.firstSample != audio.firstSample)
      (invalid "coverage identity mismatch")
    validateEngine header.initial
    validateFallback header.fallback
    return header
  | _ => .error (invalid "missing coverage header")

/-- Everything `load_with_audio` does before it may repair the file. -/
def loadBytes (bytes : List UInt8) : Except IoError (Journal × ℕ × Bool) := do
  let (first, rest) ← readLine bytes
  let header ← readHeader codec sessionId source audio first
  loadLoop codec audio (rest.length + 1) (fromHeader header) first.length rest

def loadWithAudio (io : Io) (repair : Bool) (sessionId : String)
    (source : Source) (audio : Reader) (file : DurableFile) :
    Except IoError Journal × DurableFile :=
  match loadBytes codec sessionId source audio file.bytes with
  | .error e => (.error e, file)
  | .ok (j, validBytes, torn) =>
    if torn && repair then
      if !io.setLen then (.error .other, file)
      else if !io.sync then (.error .other, file.truncate validBytes)
      else (.ok { j with validBytes }, (file.truncate validBytes).sync)
    else (.ok { j with validBytes }, file)

end Journal

structure CoverageSnapshot where
  epochs : List ProviderEpoch
  fallback : Option LocalPlan
  validBytes : ℕ
  commits : List CommittedAudio

end FlyOnTheWall.Coverage
