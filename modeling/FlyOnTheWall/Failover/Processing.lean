/-
  Processing provenance of a canonical stream (`fotwd/src/failover/processing.rs`), and the
  call that writes it together with the audio (`write_processed` in `failover/stream.rs`).

  The evidence is one file beside the stream: a declaration line, then one line for each
  processed block with its place on the source clock and the hash of its samples. The
  journal writes a block's line before its audio; `validate` reads the file against the
  audio that was retained. JSON and SHA-256 are parameters.
-/
import FlyOnTheWall.Lib.Certificate
import FlyOnTheWall.Lib.Lines
import FlyOnTheWall.Pipeline.Aec
import FlyOnTheWall.Pipeline.Replay

namespace FlyOnTheWall.Processing

open Lib Replay
open Aec (OutputKind)

/-- Identifiers of a preloaded audio processor. -/
structure Descriptor where
  backend : String
  version : String
  profile : String
  deriving DecidableEq

structure Header where
  version : ℕ
  session : String
  source : ReplaySource
  firstSample : ℕ
  descriptor : Descriptor
  deriving DecidableEq

/-- One processed block. -/
structure Interval where
  epoch : ℕ
  start : ℕ
  stop : ℕ
  kind : OutputKind
  pcmSha256 : String
  deriving DecidableEq

structure Snapshot where
  descriptor : Descriptor
  firstSample : ℕ
  endSample : ℕ
  intervals : ℕ
  cleanedSamples : ℕ
  rawSamples : ℕ
  deriving DecidableEq

/-- JSON of the three kinds of value, and the hash. -/
structure Format where
  header : Codec Header
  interval : Codec Interval
  descriptor : Descriptor → List UInt8
  sha256 : List UInt8 → List UInt8

def newline : UInt8 := 10
def maxRecord : ℕ := 4096

def hexDigit (n : ℕ) : Char := if n < 10 then .ofNat (48 + n) else .ofNat (87 + n)

/-- Two digits a byte. -/
def hex (bytes : List UInt8) : String :=
  .ofList (bytes.flatMap fun b => [hexDigit (b.toNat / 16), hexDigit (b.toNat % 16)])

variable (format : Format)

def digest (pcm : List (BitVec 16)) : String :=
  hex (format.sha256 (encodePcm pcm))

/-- `fotw-processing-v1` and a zero byte. -/
def fingerprintTag : List UInt8 :=
  [102, 111, 116, 119, 45, 112, 114, 111, 99, 101, 115, 115, 105, 110, 103, 45, 118, 49, 0]

namespace Descriptor

def validate (d : Descriptor) : Except IoError Unit :=
  refuseIf ([d.backend, d.version, d.profile].any fun s =>
      s.isEmpty || s.utf8ByteSize > 96 ||
        !s.toList.all fun c => c.isAlphanum || ['.', '_', '-', '+'].contains c)
    (invalid "invalid audio processor identifier")

def fingerprint (d : Descriptor) : Except IoError String := do
  d.validate
  return hex (format.sha256 (fingerprintTag ++ format.descriptor d))

end Descriptor

/-- What stands under the name of the evidence. -/
inductive Evidence
  | absent
  | irregular
  | unreadable
  | file (f : DurableFile)

def present : Evidence → Except IoError Bool
  | .absent => .ok false
  | .irregular => .error (invalid "processing evidence is not an ordinary file")
  | .unreadable => .error .other
  | .file _ => .ok true

/-- A value as one line. -/
def line {α : Type} (codec : Codec α) (value : α) : Except IoError (List UInt8) := do
  let bytes := codec.toVec value ++ [newline]
  refuseIf (bytes.length > maxRecord) (invalid "processing record exceeds bound")
  return bytes

/-! ## The journal -/

/-- The owner of the evidence file. -/
structure Journal where
  endSample : ℕ
  epoch : Option ℕ
  failed : Bool

/-- What happens to the file: where a write fails, and whether the syncs of the file and of
    its directory return. -/
structure EvidenceIo where
  write : Option ℕ
  sync : Bool
  dirSync : Bool

namespace Journal

def check (j : Journal) (epoch start count : ℕ) : Except IoError Unit :=
  refuseIf (j.failed || start != j.endSample || !(1 ≤ count && count ≤ 16000) ||
      j.epoch.any (epoch < ·) || (checkedAdd start count).isNone)
    (invalid "invalid processing interval")

/-- `rawPlan` is whether a raw reconstruction recipe stands beside the stream. What was
    written of a declaration stays when the creation fails. -/
def create (json : Json) (io : EvidenceIo) (dir : Dir) (evidence : Evidence)
    (rawPlan : Except IoError Bool) (session : String) (source : ReplaySource)
    (firstSample : ℕ) (descriptor : Descriptor) : Except IoError Journal × Evidence :=
  match (do
      descriptor.validate
      let audio ← openReader json dir session source
      let fingerprint ← descriptor.fingerprint format
      refuseIf (audio.firstSample != firstSample ||
          audio.header.processingId != some fingerprint)
        (invalid "processing declaration is not bound to the canonical header")
      refuseIf (session.isEmpty || session.utf8ByteSize > 512)
        (invalid "invalid processing session identity")
      let planned ← rawPlan
      refuseIf planned (invalid "processed input conflicts with a raw reconstruction recipe")
      let bytes ← line format.header ⟨1, session, source, firstSample, descriptor⟩
      match evidence with
      | .absent => return bytes
      | _ => .error .alreadyExists) with
  | .error e => (.error e, evidence)
  | .ok bytes =>
    let written := DurableFile.empty.writeAll bytes io.write
    if written.2 && io.sync && io.dirSync then
      (.ok ⟨firstSample, none, false⟩, .file written.1.sync)
    else (.error .other, .file written.1)

def record (stop : Option ℕ) (j : Journal) (file : DurableFile)
    (epoch start : ℕ) (kind : OutputKind) (pcm : List (BitVec 16)) :
    Except IoError Unit × Journal × DurableFile :=
  match (do
      j.check epoch start pcm.length
      let last ← okOr (checkedAdd start pcm.length) (invalid "processing clock overflow")
      let bytes ← line format.interval ⟨epoch, start, last, kind, digest format pcm⟩
      return (last, bytes)) with
  | .error e => (.error e, j, file)
  | .ok (last, bytes) =>
    let written := file.writeAll bytes stop
    if written.2 then (.ok (), { j with endSample := last, epoch := some epoch }, written.1)
    else (.error .other, { j with failed := true }, written.1)

def sync (synced : Bool) (j : Journal) (file : DurableFile) :
    Except IoError Unit × Journal × DurableFile :=
  if j.failed then
    (.error (invalid "processing journal is fenced after a failed write"), j, file)
  else if synced then (.ok (), j, file.sync)
  else (.error .other, { j with failed := true }, file)

end Journal

/-! ## Writing a block -/

/-- A source that takes processed input: the canonical stream, its evidence and the journal
    that owns it. `terminal` is set when publication is fenced. -/
structure Source where
  stream : Stream
  evidence : Evidence
  processing : Option Journal
  stopRequested : Bool
  terminal : Bool

/-- One output of the processor. -/
structure Output (φ : Type) where
  epoch : ℕ
  startSample : ℕ
  kind : OutputKind
  samples : List φ

/-- How a sample is checked and quantised. -/
structure Quantizer (φ : Type) where
  finite : φ → Bool
  toI16 : φ → BitVec 16

/-- Outcomes of the system calls of one write: the evidence line and its sync, the audio, and
    the sync that is due once a second. -/
structure WriteIo where
  record : Option ℕ
  recordSync : Bool
  append : AppendIo
  due : Bool
  evidenceSync : Bool
  audioSync : Bool

/-- A write is refused without effect, or it is tried. -/
inductive Wrote
  | refused
  | failed
  | done
  deriving DecidableEq, Repr

namespace Source
variable {φ : Type}

variable (io : WriteIo) (s : Source) (j : Journal) (file : DurableFile)

/-- `writer.sync()`. -/
def syncWriter (w : Writer) : Bool × Source :=
  match j.sync io.evidenceSync file with
  | (.error _, j, file) => (false, { s with evidence := .file file, processing := some j })
  | (.ok (), j, file) =>
    match s.stream.syncAs w io.audioSync with
    | (.error _, stream) =>
      (false, { s with evidence := .file file, processing := some j, stream })
    | (.ok _, stream) =>
      (true, { s with evidence := .file file, processing := some j, stream })

/-- The audio of a block whose line is on disk, and the sync that may be due. -/
def appendBlock (pcm : List (BitVec 16)) : Bool × Source :=
  match s.stream.append io.append pcm with
  | (some (.ok ()), stream) =>
    let s := { s with stream := stream }
    match io.due, stream.owner with
    | true, some w => s.syncWriter io j file w
    | _, _ => (true, s)
  | (_, stream) => (false, { s with stream })

/-- The line, its sync, then the audio. -/
def writeBlock (epoch start : ℕ) (kind : OutputKind) (pcm : List (BitVec 16)) : Bool × Source :=
  match j.record format io.record file epoch start kind pcm with
  | (.error _, j, file) => (false, { s with evidence := .file file, processing := some j })
  | (.ok (), j, file) =>
    match j.sync io.recordSync file with
    | (.error _, j, file) => (false, { s with evidence := .file file, processing := some j })
    | (.ok (), j, file) =>
      appendBlock io { s with evidence := .file file, processing := some j } j file pcm

/-- Any failure past the checks fences publication. -/
def writeProcessed (quantizer : Quantizer φ) (io : WriteIo) (s : Source)
    (output : Output φ) : Wrote × Source :=
  if output.samples.isEmpty || output.samples.length > 16000 ||
      output.samples.any (!quantizer.finite ·) then (.refused, s)
  else if s.stopRequested then (.refused, s)
  else
    match s.processing, s.evidence with
    | some j, .file file =>
      match j.check output.epoch output.startSample output.samples.length with
      | .error _ => (.refused, s)
      | .ok () =>
        match s.writeBlock format io j file output.epoch output.startSample output.kind
            (output.samples.map quantizer.toI16) with
        | (true, s) => (.done, s)
        | (false, s) => (.failed, { s with terminal := true })
    | _, _ => (.refused, s)

end Source

/-! ## Validation -/

/-- One line of the evidence and what follows it; a line that does not end, or is too long,
    is refused. -/
def readRecord (rest : List UInt8) : Except IoError (Option (List UInt8 × List UInt8)) :=
  let line := takeLine newline (maxRecord + 1) rest
  if line.1.isEmpty then .ok none
  else if line.1.length > maxRecord || line.1.getLast? != some newline then
    .error (invalid "torn or oversized processing record")
  else .ok (some line)

theorem readRecord_rest_lt {rest line after : List UInt8}
    (h : readRecord rest = .ok (some (line, after))) : after.length < rest.length := by
  unfold readRecord at h
  dsimp only at h
  split at h
  · cases h
  rename_i hne
  split at h
  · cases h
  · have hall := takeLine_append newline (maxRecord + 1) rest
    have hline := Option.some.inj (Except.ok.inj h)
    rw [hline] at hall hne
    have hlength := congrArg List.length hall
    simp only [List.length_append] at hlength
    have hpos : 0 < line.length := List.length_pos_iff.mpr fun h0 => hne (by simp [h0])
    omega

/-- The saved end of an aligned stream. -/
def savedEnd (audio : Reader) : Except IoError ℕ := do
  let whole ← audio.aligned
  refuseIf (!whole) (invalid "replay ends in a torn sample")
  audio.availableEnd

/-- What has been validated, and the epoch of the last block. -/
structure Progress where
  snapshot : Snapshot
  epoch : Option ℕ

def Snapshot.count (s : Snapshot) (i : Interval) (count : ℕ) : Snapshot :=
  match i.kind with
  | .cleaned => { s with
      endSample := i.stop, intervals := s.intervals + 1,
      cleanedSamples := s.cleanedSamples + count }
  | .raw _ => { s with
      endSample := i.stop, intervals := s.intervals + 1, rawSamples := s.rawSamples + count }

def checkInterval (audio : Reader) (p : Progress) (i : Interval) : Except IoError Progress := do
  let count ← okOr ((checkedSub i.stop i.start).filter fun n => 1 ≤ n && n ≤ 16000)
    (invalid "invalid processing interval extent")
  refuseIf (i.start != p.snapshot.endSample || p.epoch.any (i.epoch < ·))
    (invalid "discontinuous processing coverage")
  let pcm ← audio.readFrom i.start count
  refuseIf (pcm.length != count || digest format pcm != i.pcmSha256)
    (invalid "processing evidence differs from retained canonical PCM")
  return ⟨p.snapshot.count i count, some i.epoch⟩

def validateLoop (format : Format) (audio : Reader) (p : Progress) (rest : List UInt8) :
    Except IoError Progress :=
  match _h : readRecord rest with
  | .error e => .error e
  | .ok none => .ok p
  | .ok (some (line, after)) =>
    match format.interval.fromSlice line with
    | none => .error .decode
    | some i =>
      match checkInterval format audio p i with
      | .error e => .error e
      | .ok p => validateLoop format audio p after
termination_by rest.length
decreasing_by exact readRecord_rest_lt _h

/-- The declaration and the stream it must be bound to. -/
def readHeader (session : String) (source : ReplaySource) (audio : Reader)
    (bytes : List UInt8) : Except IoError (Header × List UInt8) := do
  let first ← okOr (← readRecord bytes) (invalid "missing processing declaration")
  let header ← okOr (format.header.fromSlice first.1) .decode
  header.descriptor.validate
  let fingerprint ← header.descriptor.fingerprint format
  refuseIf (header.version != 1 || header.session != session || header.source != source ||
      header.firstSample != audio.firstSample ||
      audio.header.processingId != some fingerprint)
    (invalid "processing declaration identity differs")
  return (header, first.2)

def Header.begin (header : Header) : Progress :=
  ⟨⟨header.descriptor, header.firstSample, header.firstSample, 0, 0, 0⟩, none⟩

variable (session : String) (source : ReplaySource)

def validateBytes (audio : Reader) (bytes : List UInt8) : Except IoError Snapshot := do
  let (header, rest) ← readHeader format session source audio bytes
  let p ← validateLoop format audio header.begin rest
  let last ← savedEnd audio
  refuseIf (p.snapshot.endSample != last)
    (invalid "canonical PCM has no complete processing coverage")
  return p.snapshot

/-- `none` is the older format without evidence. -/
def validate (evidence : Evidence) (audio : Reader) : Except IoError (Option Snapshot) := do
  refuseIf (!audio.hasIdentity session source) (invalid "processing reader identity differs")
  let _ ← present evidence
  match evidence with
  | .file f => return some (← validateBytes format session source audio f.bytes)
  | _ =>
    refuseIf audio.header.processingId.isSome
      (invalid "processed canonical audio is missing its processing evidence")
    return none

end FlyOnTheWall.Processing
