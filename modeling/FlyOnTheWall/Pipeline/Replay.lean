/-
  The canonical replay stream of one capture leg (`fotw-pipeline/src/replay.rs`).

  The stream is one file: a magic, a length-prefixed JSON header and 16-bit samples. Its
  markers are separate files beside it: a seal (input frozen), a completion (every sample
  accounted for) and a projection (the journal of that coverage is in the library). This
  module translates the reader, the markers and the append owner. JSON is a parameter, and
  every call of the operating system that can fail has its outcome given with the call.
-/
import FlyOnTheWall.Lib.Storage
import FlyOnTheWall.Lib.U64

namespace FlyOnTheWall.Replay

open Lib List

def magic : List UInt8 := [70, 79, 84, 87, 82, 80, 76, 49]
def maxHeaderBytes : ℕ := 4096
def streamRate : ℕ := 16000
def maxReadSamples : ℕ := 16000

inductive ReplaySource
  | system
  | mic
  deriving DecidableEq, Repr

structure Header where
  sessionId : String
  source : ReplaySource
  sampleRate : ℕ
  firstSample : ℕ
  processingId : Option String
  deriving DecidableEq

def invalid (message : String) : IoError := .invalidData message

def validProcessingId (id : String) : Bool :=
  id.utf8ByteSize == 64 && id.toList.all fun c => c.isDigit || ('a' ≤ c && c ≤ 'f')

/-! ## Reading the stream -/

/-- An open stream: the header that was read, where the samples start, and the file. -/
structure Reader where
  header : Header
  audioOffset : ℕ
  file : DurableFile

/-- `u32::from_le_bytes`. -/
def leNat (bytes : List UInt8) : ℕ := bytes.foldr (fun b n => b.toNat + 256 * n) 0

def fromFile (codec : Codec Header) (file : DurableFile) (sessionId : String)
    (source : ReplaySource) : Except IoError Reader := do
  refuseIf (file.bytes.length < 8) .unexpectedEof
  refuseIf (file.bytes.take 8 != magic) (invalid "unsupported replay format")
  refuseIf (file.bytes.length < 12) .unexpectedEof
  let length := leNat ((file.bytes.drop 8).take 4)
  refuseIf (length == 0 || length > maxHeaderBytes) (invalid "invalid replay header length")
  refuseIf (file.bytes.length < 12 + length) .unexpectedEof
  let header ← okOr (codec.fromSlice ((file.bytes.drop 12).take length)) .decode
  refuseIf (header.sessionId != sessionId || header.source != source ||
      header.sampleRate != streamRate || header.processingId.any (!validProcessingId ·))
    (invalid "replay identity or sample rate mismatch")
  return { header, audioOffset := 12 + length, file }

variable (pcm : List (BitVec 16))

/-- `i16::to_le_bytes` of each sample. -/
def encodePcm : List UInt8 :=
  pcm.flatMap fun s => [.ofBitVec (s.extractLsb' 0 8), .ofBitVec (s.extractLsb' 8 8)]

theorem encodePcm_length : (encodePcm pcm).length = 2 * pcm.length := by
  induction pcm with
  | nil => rfl
  | cons s pcm ih =>
    simp only [encodePcm, flatMap_cons, length_append, length_cons, length_nil] at ih ⊢
    omega

namespace Reader

variable (r : Reader)

def firstSample : ℕ := r.header.firstSample

def hasIdentity (session : String) (source : ReplaySource) : Bool :=
  r.header.sessionId == session && r.header.source == source

/-- Length of the file past its header. -/
def audioBytes : Except IoError ℕ :=
  okOr (checkedSub r.file.bytes.length r.audioOffset) (invalid "replay header truncated")

def aligned : Except IoError Bool := do
  let length ← r.audioBytes
  return length % 2 == 0

def availableEnd : Except IoError ℕ := do
  let length ← r.audioBytes
  okOr (checkedAdd r.firstSample (length / 2)) (invalid "replay sample clock overflow")

/-- The flag is the outcome of `sync_data`. -/
def syncThrough (throughSample : ℕ) (synced : Bool) : Except IoError Unit × Reader :=
  match r.availableEnd with
  | .error e =>
    (.error (if throughSample < r.firstSample then
      invalid "checkpoint is outside saved replay audio" else e), r)
  | .ok last =>
    if throughSample < r.firstSample ∨ throughSample > last then
      (.error (invalid "checkpoint is outside saved replay audio"), r)
    else if synced then (.ok (), { r with file := r.file.sync })
    else (.error .other, r)

/-- `i16::from_le_bytes` on each pair of bytes; a last odd byte is not a sample. -/
def samplesOf : List UInt8 → List (BitVec 16)
  | low :: high :: rest => (high.toBitVec ++ low.toBitVec) :: samplesOf rest
  | _ => []

def readFrom (absoluteSample maximum : ℕ) : Except IoError (List (BitVec 16)) := do
  refuseIf (maximum == 0 || maximum > maxReadSamples)
    (invalid "replay reads must contain 1..=16000 samples")
  let relative ← okOr (checkedSub absoluteSample r.firstSample)
    (invalid "replay cursor precedes source anchor")
  let last ← r.availableEnd
  let remaining ← okOr (checkedSub (last - r.firstSample) relative)
    (invalid "replay cursor exceeds available audio")
  let offset ← okOr ((checkedMul relative 2).bind (checkedAdd · r.audioOffset))
    (invalid "replay byte offset overflow")
  return samplesOf ((r.file.bytes.drop offset).take (min remaining maximum * 2))

variable {r : Reader} {last : ℕ}

theorem availableEnd_eq_ok : r.availableEnd = .ok last ↔ r.audioOffset ≤ r.file.bytes.length ∧
        last = r.firstSample + (r.file.bytes.length - r.audioOffset) / 2 ∧ last ≤ u64Max := by
  simp only [availableEnd, audioBytes, bind_eq_ok, okOr_eq_ok, checkedSub_eq_some,
    checkedAdd_eq_some]
  constructor
  · rintro ⟨length, ⟨hle, rfl⟩, hmax, rfl⟩
    exact ⟨hle, rfl, hmax⟩
  · rintro ⟨hle, rfl, hmax⟩
    exact ⟨_, ⟨hle, rfl⟩, hmax, rfl⟩

/-- A read of one sample succeeds exactly within the saved audio, its end included. -/
theorem readFrom_one_isOk (hlast : r.availableEnd = .ok last) (n : ℕ) :
    (∃ pcm, r.readFrom n 1 = .ok pcm) ↔ r.firstSample ≤ n ∧ n ≤ last := by
  obtain ⟨hoff, hend, hmax⟩ := availableEnd_eq_ok.mp hlast
  have hfits := r.file.fits
  have hu : maxFileBytes < u64Max := by decide
  constructor
  · rintro ⟨pcm, h⟩
    simp only [readFrom, bind_eq_ok, okOr_eq_ok, checkedSub_eq_some, hlast, Except.ok.injEq] at h
    omega
  · rintro ⟨hfirst, hn⟩
    have hmul : (n - r.firstSample) * 2 ≤ u64Max := by omega
    have hadd : (n - r.firstSample) * 2 + r.audioOffset ≤ u64Max := by omega
    refine ⟨samplesOf ((r.file.bytes.drop ((n - r.firstSample) * 2 + r.audioOffset)).take
      (min (last - r.firstSample - (n - r.firstSample)) 1 * 2)), ?_⟩
    simp only [readFrom, bind_eq_ok, refuseIf_eq_ok, okOr_eq_ok, checkedSub_eq_some, hlast]
    refine ⟨(), by decide, _, ⟨hfirst, rfl⟩, _, rfl, _, ⟨by omega, rfl⟩, _, ?_, rfl⟩
    rw [checkedMul, if_pos hmul, Option.bind_some, checkedAdd, if_pos hadd]

theorem samplesOf_length : ∀ bytes, (samplesOf bytes).length = bytes.length / 2
  | [] => rfl
  | [_] => by simp [samplesOf]
  | low :: high :: rest => by
    rw [samplesOf, length_cons, samplesOf_length rest, length_cons, length_cons]
    omega

theorem readFrom_length {n maximum : ℕ} {pcm : List (BitVec 16)} (hlast : r.availableEnd = .ok last)
    (h : r.readFrom n maximum = .ok pcm) : n + pcm.length ≤ last := by
  simp only [readFrom, bind_eq_ok, okOr_eq_ok, checkedSub_eq_some, hlast, Except.ok.injEq] at h
  obtain ⟨-, -, relative, ⟨hfirst, rfl⟩, _, rfl, remaining, ⟨hroom, rfl⟩, offset, -, hpcm⟩ := h
  cases hpcm
  rw [samplesOf_length, length_take]
  have hend := (availableEnd_eq_ok.mp hlast).2.1
  omega

end Reader

/-! ## Markers -/

/-- A seal or a completion: the stream it speaks of and its end. -/
structure Completion where
  schema : ℕ
  sessionId : String
  source : ReplaySource
  firstSample : ℕ
  throughSample : ℕ
  deriving DecidableEq

structure ProjectionProof where
  boundary : Completion
  journalBytes : ℕ
  deriving DecidableEq

/-- JSON of the header and of the two kinds of marker. -/
structure Json where
  header : Codec Header
  boundary : Codec Completion
  projection : Codec ProjectionProof

/-- The files of one source in a session directory. Of the coverage journal only the length
    is looked at here. -/
structure Dir where
  audio : Option DurableFile
  sealedMark : Option (List UInt8)
  completion : Option (List UInt8)
  projected : Option (List UInt8)
  journal : Option ℕ

/-- How the write of a marker ends: before its rename, after it with the directory not
    synced, or completely. -/
inductive MarkerIo
  | failed
  | unsynced
  | done
  deriving DecidableEq, Repr

/-- A marker is written beside its name, synced and renamed over it. -/
def writeMarker (io : MarkerIo) (bytes : List UInt8) (old : Option (List UInt8)) :
    Except IoError Unit × Option (List UInt8) :=
  match io with
  | .failed => (.error .other, old)
  | .unsynced => (.error .other, some bytes)
  | .done => (.ok (), some bytes)

def readMarker {α : Type} (codec : Codec α) : Option (List UInt8) → Except IoError (Option α)
  | none => .ok none
  | some bytes => do
    refuseIf (bytes.length > maxHeaderBytes) (invalid "replay boundary proof exceeds size limit")
    let marker ← okOr (codec.fromSlice bytes) .decode
    return some marker

variable (json : Json)

def openReader (dir : Dir) (sessionId : String) (source : ReplaySource) :
    Except IoError Reader := do
  let file ← okOr dir.audio .notFound
  fromFile json.header file sessionId source

namespace Reader

def readBoundary (marker : Option (List UInt8)) : Except IoError (Option Completion) := do
  match ← readMarker json.boundary marker with
  | none => return none
  | some boundary =>
    refuseIf (boundary.schema != 1) (invalid "unsupported replay boundary proof")
    return some boundary

def matchesBoundary (r : Reader) (boundary : Completion) : Except IoError Bool := do
  if !(← r.aligned) then return false
  else if boundary.sessionId != r.header.sessionId || boundary.source != r.header.source ||
      boundary.firstSample != r.firstSample then return false
  else
    let last ← r.availableEnd
    return boundary.throughSample == last

section
variable (dir : Dir) (r : Reader)

def sealedEnd : Except IoError (Option ℕ) := do
  match ← readBoundary json dir.sealedMark with
  | none => return none
  | some boundary =>
    if ← r.matchesBoundary boundary then return some boundary.throughSample
    else .error (invalid "sealed replay input has changed or belongs to another source")

def isComplete : Except IoError Bool := do
  let _ ← r.sealedEnd json dir
  match ← readBoundary json dir.completion with
  | none => return false
  | some boundary => r.matchesBoundary boundary

def isProjected : Except IoError Bool := do
  if !(← r.isComplete json dir) then return false
  else
    match ← readMarker json.projection dir.projected with
    | none => return false
    | some proof =>
      if proof.boundary.schema != 1 || !(← r.matchesBoundary proof.boundary) then return false
      else
        let length ← okOr dir.journal .notFound
        return length == proof.journalBytes

end

/-- A boundary at the end of the whole aligned stream, and the audio after its sync. -/
def boundary (r : Reader) (throughSample : ℕ) (synced : Bool) :
    Except IoError Completion × Reader :=
  match (do
      let whole ← r.aligned
      refuseIf (!whole) (invalid "completion must cover the entire aligned replay stream")
      let last ← r.availableEnd
      refuseIf (throughSample != last)
        (invalid "completion must cover the entire aligned replay stream")) with
  | .error e => (.error e, r)
  | .ok () =>
    match r.syncThrough throughSample synced with
    | (.error e, r) => (.error e, r)
    | (.ok (), r) =>
      (.ok ⟨1, r.header.sessionId, r.header.source, r.firstSample, throughSample⟩, r)

end Reader

/-- Outcomes of the system calls of a marking call: `sync_data` on the audio, on the journal,
    and the marker itself. -/
structure MarkIo where
  audioSync : Bool
  journalSync : Bool
  marker : MarkerIo

namespace Dir

variable (io : MarkIo) (dir : Dir) (sessionId : String) (source : ReplaySource)

def markComplete (throughSample : ℕ) : Except IoError Unit × Dir :=
  match (do
      let r ← openReader json dir sessionId source
      let _ ← r.sealedEnd json dir
      return r) with
  | .error e => (.error e, dir)
  | .ok r =>
    match r.boundary throughSample io.audioSync with
    | (.error e, r) => (.error e, { dir with audio := some r.file })
    | (.ok boundary, r) =>
      let marked := writeMarker io.marker (json.boundary.toVec boundary) dir.completion
      (marked.1, { dir with audio := some r.file, completion := marked.2 })

def markProjected (throughSample journalBytes : ℕ) : Except IoError Unit × Dir :=
  match (do
      let r ← openReader json dir sessionId source
      let complete ← r.isComplete json dir
      refuseIf (!complete) (invalid "inference is not complete")
      let length ← okOr dir.journal .notFound
      refuseIf (length != journalBytes) (invalid "projection does not cover the current journal")
      refuseIf (!io.journalSync) .other
      return r) with
  | .error e => (.error e, dir)
  | .ok r =>
    match r.boundary throughSample io.audioSync with
    | (.error e, r) => (.error e, { dir with audio := some r.file })
    | (.ok boundary, r) =>
      let marked := writeMarker io.marker (json.projection.toVec ⟨boundary, journalBytes⟩)
        dir.projected
      (marked.1, { dir with audio := some r.file, projected := marked.2 })

end Dir

/-! ## The append owner -/

/-- The owner holds the stream's lock for as long as it exists. -/
structure Writer where
  sessionId : String
  endSample : ℕ
  failed : Bool
  isSealed : Bool
  prefixOnly : Bool

/-- Outcomes for a creation: where a write fails, the syncs of the file and of the directory,
    and the clean-up. -/
structure CreateIo where
  write : Option ℕ
  sync : Bool
  dirSync : Bool
  remove : Bool

/-- How the removal of a proof ends: not at all, with the directory not synced, or
    completely. -/
inductive RemoveIo
  | failed
  | unsynced
  | done
  deriving DecidableEq, Repr

structure AppendIo where
  completion : RemoveIo
  projected : RemoveIo
  write : Option ℕ

/-- `set_len` and `sync_data` of a resumption. -/
structure ResumeIo where
  setLen : Bool
  sync : Bool

/-- `u32::to_le_bytes`. -/
def le32 (n : ℕ) : List UInt8 :=
  [.ofNat n, .ofNat (n / 256), .ofNat (n / 65536), .ofNat (n / 16777216)]

def removeProof (io : RemoveIo) : Option (List UInt8) → Except IoError Unit × Option (List UInt8)
  | none => (.ok (), none)
  | some bytes =>
    match io with
    | .failed => (.error .other, some bytes)
    | .unsynced => (.error .other, none)
    | .done => (.ok (), none)

/-- One source: its files and at most one owner. -/
structure Stream where
  dir : Dir
  owner : Option Writer

namespace Stream

variable (io : CreateIo) (s : Stream) (sessionId : String) (source : ReplaySource) (firstSample : ℕ)

def createInner (processingId : Option String) : Except IoError Unit × Stream :=
  let header := json.header.toVec ⟨sessionId, source, streamRate, firstSample, processingId⟩
  match (do
      refuseIf (sessionId.isEmpty || sessionId.utf8ByteSize > 512)
        (invalid "invalid replay session identity")
      refuseIf (header.length > maxHeaderBytes) (invalid "replay header too large")
      refuseIf s.owner.isSome .wouldBlock
      refuseIf s.dir.audio.isSome .alreadyExists) with
  | .error e => (.error e, s)
  | .ok () =>
    let written := DurableFile.empty.writeAll (magic ++ le32 header.length ++ header) io.write
    if written.2 && io.sync && io.dirSync then
      (.ok (), {
        dir := { s.dir with audio := some written.1.sync }
        owner := some ⟨sessionId, firstSample, false, false, false⟩ })
    else (.error .other, { s with
      dir := { s.dir with audio := if io.remove then none else some written.1 } })

def create : Except IoError Unit × Stream :=
  s.createInner json io sessionId source firstSample none

def createWithProcessing (processingId : String) : Except IoError Unit × Stream :=
  if !validProcessingId processingId then (.error (invalid "invalid processing fingerprint"), s)
  else s.createInner json io sessionId source firstSample (some processingId)

variable (io : ResumeIo) (s : Stream) (sessionId : String) (source : ReplaySource)

def resumeValidated (validate : Reader → Except IoError Unit) : Except IoError Unit × Stream :=
  match (do
      refuseIf s.owner.isSome IoError.wouldBlock
      let r ← openReader json s.dir sessionId source
      validate r
      let sealedAt ← r.sealedEnd json s.dir
      let audioBytes ← r.audioBytes
      let last ← okOr (checkedAdd r.firstSample (audioBytes / 2))
        (invalid "replay sample clock overflow")
      return (r, sealedAt.isSome, audioBytes, last)) with
  | .error e => (.error e, s)
  | .ok (r, isSealed, audioBytes, last) =>
    let owner : Writer := ⟨sessionId, last, false, isSealed, false⟩
    if audioBytes % 2 != 0 then
      let file := r.file.truncate (r.file.bytes.length - 1)
      if !io.setLen then (.error .other, s)
      else if !io.sync then (.error .other, { s with dir := { s.dir with audio := some file } })
      else (.ok (), { dir := { s.dir with audio := some file.sync }, owner := some owner })
    else (.ok (), { s with owner := some owner })

def resumePrefixValidated (validate : Reader → Except IoError Unit) :
    Except IoError Unit × Stream :=
  match (do
      refuseIf s.owner.isSome IoError.wouldBlock
      let r ← openReader json s.dir sessionId source
      validate r
      let sealedAt ← r.sealedEnd json s.dir
      let last ← r.availableEnd
      refuseIf (!io.sync) .other
      return (r, sealedAt.isSome, last)) with
  | .error e => (.error e, s)
  | .ok (r, isSealed, last) =>
    (.ok (), {
      dir := { s.dir with audio := some r.file.sync }
      owner := some ⟨sessionId, last, false, isSealed, true⟩ })

/-- Both proofs are removed before any byte is written. The source encodes 1024 samples at a
    time into a buffer; the bytes reach the file in the same order. -/
def appendAs (io : AppendIo) (s : Stream) (w : Writer) (file : DurableFile)
    (pcm : List (BitVec 16)) : Except IoError Unit × Stream :=
  match (do
      refuseIf w.failed (invalid "replay writer failed; recovery required")
      refuseIf (w.isSealed || w.prefixOnly) (invalid "replay input is permanently sealed")) with
  | .error e => (.error e, s)
  | .ok () =>
    if pcm.isEmpty then (.ok (), s)
    else
      match checkedAdd w.endSample pcm.length with
      | none => (.error (invalid "replay sample clock overflow"), s)
      | some next =>
        match removeProof io.completion s.dir.completion with
        | (.error e, completion) =>
          (.error e, { dir := { s.dir with completion }, owner := some { w with failed := true } })
        | (.ok (), completion) =>
          match removeProof io.projected s.dir.projected with
          | (.error e, projected) =>
            (.error e, {
              dir := { s.dir with completion, projected }
              owner := some { w with failed := true } })
          | (.ok (), projected) =>
            let written := file.writeAll (encodePcm pcm) io.write
            let dir := { s.dir with completion, projected, audio := some written.1 }
            if written.2 then (.ok (), { dir, owner := some { w with endSample := next } })
            else (.error .other, { dir, owner := some { w with failed := true } })

/-- The owner, if there is one, appends to the file it has open. -/
def append (io : AppendIo) (s : Stream) (pcm : List (BitVec 16)) :
    Option (Except IoError Unit) × Stream :=
  match s.owner, s.dir.audio with
  | some w, some file => (some (s.appendAs io w file pcm).1, (s.appendAs io w file pcm).2)
  | _, _ => (none, s)

def sealAs (io : MarkIo) (s : Stream) (w : Writer) (source : ReplaySource) :
    Except IoError Unit × Stream :=
  match (do
      refuseIf w.failed (invalid "replay writer failed; recovery required")
      refuseIf w.prefixOnly (invalid "prefix ownership cannot seal original input")
      let r ← openReader json s.dir w.sessionId source
      let _ ← r.sealedEnd json s.dir
      return r) with
  | .error e => (.error e, s)
  | .ok r =>
    match r.boundary w.endSample io.audioSync with
    | (.error e, r) => (.error e, { s with dir := { s.dir with audio := some r.file } })
    | (.ok boundary, r) =>
      let marked := writeMarker io.marker (json.boundary.toVec boundary) s.dir.sealedMark
      let dir := { s.dir with audio := some r.file, sealedMark := marked.2 }
      match marked.1 with
      | .error e => (.error e, { s with dir })
      | .ok () => (.ok (), { dir, owner := some { w with isSealed := true } })

/-- The owner, if there is one, seals the stream. -/
def sealStream (io : MarkIo) (s : Stream) (source : ReplaySource) :
    Option (Except IoError Unit) × Stream :=
  match s.owner with
  | some w => (some (s.sealAs json io w source).1, (s.sealAs json io w source).2)
  | none => (none, s)

/-- `ReplayWriter::sync`. -/
def syncAs (s : Stream) (w : Writer) (synced : Bool) : Except IoError ℕ × Stream :=
  if w.failed then (.error (invalid "replay writer failed; recovery required"), s)
  else if synced then
    (.ok w.endSample, { s with dir := { s.dir with audio := s.dir.audio.map DurableFile.sync } })
  else (.error .other, { s with owner := some { w with failed := true } })

end Stream

end FlyOnTheWall.Replay
