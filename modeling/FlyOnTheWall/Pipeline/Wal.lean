/-
  A session directory and its archives.

  * `Manifest.trackFormats`: how the two raw legs are to be read.
  * `archivePath` and `verifyEncodedTrack`: where an encoded track lies and whether it is the
    complete archive of the recorded input.
  * `encodeTrack`, `encodeSession`: raw legs to archives, as programs over the directory whose
    steps a crash can separate.
  * `verifyRetainedPcm`, `discardPcm`: the removal of the raw legs.

  Of a manifest the fields read here are kept. A file system call that is not one of these
  steps does not fail.
-/
import FlyOnTheWall.Lib.Steps
import FlyOnTheWall.Pipeline.OpusComplete
import FlyOnTheWall.Pipeline.Replay

namespace FlyOnTheWall.Wal
open Lib Opus

/-! ## Formats and records -/

inductive Leg
  | system
  | mic
  deriving DecidableEq, Repr

/-- The names of `LEGS`. -/
def Leg.opus : Leg → String
  | .system => "system.opus"
  | .mic => "mic.opus"

def targetRate : ℕ := 16000
/-- `SCHEMA`. -/
def currentSchema : ℕ := 4

structure TrackFormat where
  sampleRateHz : ℕ
  channels : ℕ
  deriving DecidableEq, Repr

def TrackFormat.sane (f : TrackFormat) : TrackFormat := ⟨max f.sampleRateHz 1, max f.channels 1⟩

structure SessionFormats where
  system : TrackFormat
  mic : TrackFormat
  micInferred : Bool
  deriving DecidableEq, Repr

def SessionFormats.of (f : SessionFormats) : Leg → TrackFormat
  | .system => f.system
  | .mic => f.mic

structure EncodedTrack where
  file : String
  pcmBytes : ℕ
  opusBytes : ℕ
  durationMs : ℕ
  sampleRateHz : ℕ
  deriving DecidableEq, Repr

structure EncodedSession where
  system : EncodedTrack
  mic : EncodedTrack
  deriving DecidableEq, Repr

def EncodedSession.of (e : EncodedSession) : Leg → EncodedTrack
  | .system => e.system
  | .mic => e.mic

structure Claim where
  meetingId : String
  relDir : String
  deriving DecidableEq, Repr

structure PromotedTrack where
  channel : String
  relPath : String
  bytes : ℕ
  durationMs : ℕ
  sampleRateHz : ℕ
  deriving DecidableEq, Repr

structure Promotion where
  meetingId : String
  relDir : String
  tracks : List PromotedTrack
  deriving DecidableEq, Repr

structure Manifest where
  id : String
  sampleRateHz : ℕ
  channels : ℕ
  schema : ℕ
  systemFormat : Option TrackFormat
  micFormat : Option TrackFormat
  endedAtMs : Option ℕ
  encoded : Option EncodedSession
  claim : Option Claim
  promoted : Option Promotion
  deriving DecidableEq, Repr

/-! ## The directory -/

/-- What a name leads to: an ordinary file, or something else with the length it reports. -/
inductive Node
  | file (contents : DurableFile)
  | other (length : ℕ)

def Node.len : Node → ℕ
  | .file contents => contents.bytes.length
  | .other length => length

def Node.isFile : Node → Bool
  | .file _ => true
  | .other _ => false

/-- The archives of a directory: `files none` are the ones in the directory itself,
    `files (some g)` the ones in its subdirectory `g`. A subdirectory is `some true` if it is
    an ordinary directory. -/
structure ArchiveDir where
  files : Option String → Leg → Option Node
  generations : String → Option Bool

inductive OwnerLock
  | absent
  | free
  | held
  | notOrdinary
  deriving DecidableEq, Repr

structure SessionDir where
  manifest : Option Manifest
  pcm : Leg → Option Node
  archives : ArchiveDir
  captureOwner : OwnerLock
  streams : Replay.ReplaySource → Replay.Stream
  coverageOwned : Replay.ReplaySource → Bool

def invalidIo (message : String) : IoError := .invalidData message

variable (dir : SessionDir)

def archiveOwner : Except IoError Unit :=
  match dir.captureOwner with
  | .absent | .free => .ok ()
  | .held => .error .wouldBlock
  | .notOrdinary => .error (invalidIo "archive capture ownership is not an ordinary file")

def readManifest : Except IoError Manifest := okOr dir.manifest .notFound

/-! ## Formats of the raw legs -/

/-- `f64` arithmetic as the source has it. -/
def inferMicChannels (globalChannels sysBytes micBytes : ℕ) : ℕ :=
  if globalChannels < 2 || sysBytes == 0 || micBytes == 0 then max globalChannels 1
  else
    let ratio := Float.ofNat micBytes / Float.ofNat sysBytes
    let monoRatio := 1.0 / Float.ofNat globalChannels
    if (ratio - monoRatio).abs ≤ monoRatio * 0.1 then 1 else globalChannels

variable (m : Manifest) (pcm : Leg → Option Node)

/-- The raw length of a leg: of the file, or of the record if it was discarded. -/
def Manifest.legBytes (leg : Leg) : ℕ :=
  match pcm leg with
  | some node => node.len
  | none => m.encoded.elim 0 fun e => (e.of leg).pcmBytes

def Manifest.trackFormats : SessionFormats :=
  let global := TrackFormat.sane ⟨m.sampleRateHz, m.channels⟩
  let system := m.systemFormat.elim global TrackFormat.sane
  match m.micFormat with
  | some mic => ⟨system, mic.sane, false⟩
  | none =>
    if m.schema ≥ currentSchema then ⟨system, global, false⟩
    else
      ⟨system, { global with
        channels := inferMicChannels global.channels (m.legBytes pcm .system)
          (m.legBytes pcm .mic) }, true⟩

/-! ## Where an archive lies -/

/-- `split_once`. -/
def splitOnce (c : Char) : List Char → Option (List Char × List Char)
  | [] => none
  | x :: xs =>
    if x = c then some ([], xs)
    else (splitOnce c xs).map fun p => (x :: p.1, p.2)

def stripStart : List Char → List Char → Option (List Char)
  | [], xs => some xs
  | _ :: _, [] => none
  | c :: cs, x :: xs => if x = c then stripStart cs xs else none

def identityChar (c : Char) : Bool :=
  ('0' ≤ c && c ≤ '9') || ('a' ≤ c && c ≤ 'f') || ('A' ≤ c && c ≤ 'F') || c == '-'

def archivePath (dir : ArchiveDir) (leg : Leg) (file : String) : Except IoError (Option String) :=
  if file = leg.opus then .ok none
  else do
    let (generation, name) ← okOr (splitOnce '/' file.toList)
      (invalidIo "invalid archive source path")
    let identity ← okOr (stripStart ".archive-".toList generation)
      (invalidIo "invalid archive source path")
    refuseIf (name != leg.opus.toList || identity.isEmpty || !identity.all identityChar)
      (invalidIo "invalid archive source path")
    let ordinary ← okOr (dir.generations (String.ofList generation)) .notFound
    refuseIf (!ordinary) (invalidIo "invalid archive source path")
    .ok (some (String.ofList generation))

/-! ## Verifying an archive -/

def expectedRate (rate : ℕ) : ℕ := if rate ∈ supportedRates then rate else targetRate

/-- The number of frames the encoder must have been given. -/
def encodedFrames (track : EncodedTrack) : Option TrackFormat → Except IoError ℕ
  | some format => do
    refuseIf (format.sampleRateHz == 0 || format.channels == 0 ||
        track.pcmBytes % (format.channels * 2) != 0)
      (invalidIo "archive source format or frame alignment is invalid")
    refuseIf (track.sampleRateHz != expectedRate format.sampleRateHz)
      (invalidIo "archive encoder rate differs from original format")
    .ok (track.pcmBytes / 2 / format.channels * track.sampleRateHz / format.sampleRateHz)
  | none =>
    if track.pcmBytes = 0 then .ok 0
    else .error (invalidIo "nonempty archive has no original source format")

/-- The file a path leads to, if it is an ordinary one. -/
def ordinaryFile : Option Node → Except IoError DurableFile
  | none => .error .notFound
  | some (.other _) => .error (invalidIo "archive must be an ordinary file")
  | some (.file contents) => .ok contents

def verifyEncodedTrack {σ δ : Type} (lib : Libopus σ δ) (dir : ArchiveDir) (leg : Leg)
    (track : EncodedTrack) (format : Option TrackFormat) : Except IoError Unit := do
  refuseIf (!supportedRates.contains track.sampleRateHz)
    (invalidIo "archive does not match its declared source")
  let path ← archivePath dir leg track.file
  let frames ← encodedFrames track format
  let expectedTicks := frames * (granuleRate / track.sampleRateHz)
  refuseIf (expectedTicks > u64Max) (invalidIo "archive sample count overflow")
  let file ← ordinaryFile (dir.files path leg)
  refuseIf (file.bytes.length != track.opusBytes)
    (invalidIo "archive size differs from completion metadata")
  let limit ← okOr (checkedAdd track.opusBytes 1) (invalidIo "archive size overflow")
  match inspectCompleteArchive lib (file.bytes.take limit) with
  | .error _ => .error .decode
  | .ok observed =>
    refuseIf (observed.bytes != track.opusBytes || observed.inputRateHz != track.sampleRateHz ||
        observed.pcmSamples48k != expectedTicks || observed.durationMs != track.durationMs)
      (invalidIo "archive timing differs from original audio")

/-! ## What the transcoder is given -/

/-- Floating-point samples, as far as they are looked at: a 16-bit sample and the mean of such
    samples are finite. `toI16` clamps to full scale. -/
structure Pcm (φ : Type) where
  ofI16 : Int16 → φ
  mean : List φ → φ
  toI16 : φ → Int16
  finite : φ → Bool
  ofI16_finite : ∀ x, finite (ofI16 x) = true
  mean_finite : ∀ xs : List Int16, finite (mean (xs.map ofI16)) = true

/-- The archive converter from one rate to 16 kHz, one channel each. -/
structure Resampler (φ ρ : Type) where
  new : ℕ → ρ
  process : ρ → List φ → Except String (List φ × ρ)
  finish : ρ → Except String (List φ)

/-- All blocks through `process`, and the samples that came out. -/
def Resampler.processAll {φ ρ : Type} (r : Resampler φ ρ) :
    ρ → List (List φ) → Except String (ℕ × ρ)
  | st, [] => .ok (0, st)
  | st, block :: blocks => do
    let (out, st) ← r.process st block
    let (n, st) ← r.processAll st blocks
    .ok (out.length + n, st)

structure Codecs (σ δ φ ρ : Type) where
  lib : Libopus σ δ
  muxer : Muxer
  pcm : Pcm φ
  resampler : Resampler φ ρ

/-- What successive reads of a file return. -/
structure Reads (bytes : List UInt8) where
  blocks : List (List UInt8)
  flatten_eq : blocks.flatten = bytes
  ne_nil : ∀ block ∈ blocks, block ≠ []

/-- The identity of a new generation: hexadecimal digits and hyphens. -/
structure ArchiveId where
  text : List Char
  ne_nil : text ≠ []
  chars : text.all identityChar = true

/-- `.archive-` in front of the identity. -/
def ArchiveId.generation (id : ArchiveId) : String := String.ofList (".archive-".toList ++ id.text)

/-- The clock and the operating system during one encode: serial numbers of the two streams,
    fresh identities in the order they are tried, and the sizes of the reads. -/
structure EncodeEnv where
  serial : Leg → ℕ
  serial_lt : ∀ leg, serial leg < 2 ^ 32
  ids : List ArchiveId
  reads : (bytes : List UInt8) → Reads bytes

/-! ## Encoding a leg -/

/-- `chunks_exact`. -/
def chunksExact {α : Type} (n : ℕ) (xs : List α) : List (List α) :=
  (List.range (xs.length / n)).map fun i => (xs.drop (i * n)).take n

def i16OfLe (pair : List UInt8) : Int16 :=
  Int16.ofNat ((pair.getD 0 0).toNat + 256 * (pair.getD 1 0).toNat)

section Encode
variable {σ δ φ ρ : Type} (codecs : Codecs σ δ φ ρ)

/-- `Downmixer::to_mono`. -/
def toMono (interleaved : List φ) (channels : ℕ) : List φ :=
  if max channels 1 = 1 then interleaved
  else (chunksExact (max channels 1) interleaved).map codecs.pcm.mean

def samplesOf (bytes : List UInt8) : List φ :=
  (chunksExact 2 bytes).map fun pair => codecs.pcm.ofI16 (i16OfLe pair)

/-- One block of whole frames: to mono, to the encoder's rate, to the writer. -/
def pushBlock (channels : ℕ) (usable : List UInt8) (resampler : Option ρ) (w : Writer σ) :
    Except OpusError (Option ρ × Writer σ) :=
  let mono := toMono codecs (samplesOf codecs usable) channels
  match resampler with
  | some r =>
    match codecs.resampler.process r mono with
    | .error message => .error (.container message)
    | .ok (out, r') => do
      let w ← w.pushF32 codecs.lib codecs.pcm.toI16 out
      .ok (some r', w)
  | none => do
    let w ← w.pushF32 codecs.lib codecs.pcm.toI16 mono
    .ok (none, w)

/-- The read loop. Bytes that do not make up a whole frame are carried to the next read and
    dropped at the end. -/
def transcode (channels : ℕ) :
    List (List UInt8) → List UInt8 → Option ρ → Writer σ → Except OpusError (Option ρ × Writer σ)
  | [], _, resampler, w => .ok (resampler, w)
  | block :: blocks, carry, resampler, w =>
    let carry := carry ++ block
    let usable := carry.length / (2 * channels) * (2 * channels)
    if usable = 0 then transcode channels blocks carry resampler w
    else do
      let (resampler, w) ← pushBlock codecs channels (carry.take usable) resampler w
      transcode channels blocks (carry.drop usable) resampler w

/-- The tail of the resampler. -/
def flushTail (resampler : Option ρ) (w : Writer σ) : Except OpusError (Writer σ) :=
  match resampler with
  | none => .ok w
  | some r =>
    match codecs.resampler.finish r with
    | .error message => .error (.container message)
    | .ok tail => w.pushF32 codecs.lib codecs.pcm.toI16 tail

/-- `ArchiveConverter::new`, for a rate that needs one. -/
def converterFor (rate : ℕ) : Except OpusError (Option ρ) :=
  if rate ∈ supportedRates then .ok none
  else if 4000 ≤ rate ∧ rate ≤ 768000 then .ok (some (codecs.resampler.new rate))
  else .error (.container s!"cannot resample {rate} Hz: implausible input sample rate: {rate} Hz")

variable (reads : (bytes : List UInt8) → Reads bytes)

/-- The raw file, if there is one and it is not empty. -/
def transcodeFile (channels : ℕ) (pcm : Option Node) (resampler : Option ρ) (w : Writer σ) :
    Except OpusError (Option ρ × Writer σ) :=
  match pcm with
  | none => .ok (resampler, w)
  | some (.other length) => if length = 0 then .ok (resampler, w) else .error (.io .other)
  | some (.file contents) =>
    if contents.bytes.length = 0 then .ok (resampler, w)
    else transcode codecs channels (reads contents.bytes).blocks [] resampler w

/-- The packets of a leg's archive and its statistics. -/
def encodePcm (format : TrackFormat)
    (pcm : Option Node) : Except OpusError (OpusStats × List Ogg.Packet) := do
  let resampler ← converterFor codecs format.sane.sampleRateHz
  let w ← Writer.create codecs.lib (expectedRate format.sane.sampleRateHz)
  let (resampler, w) ← transcodeFile codecs reads format.sane.channels pcm resampler w
  let w ← flushTail codecs resampler w
  w.finish codecs.lib

/-! ## Encoding a session -/

def ArchiveDir.setFile (dir : ArchiveDir) (place : Option String) (leg : Leg)
    (node : Option Node) : ArchiveDir :=
  { dir with files := fun p l => if p = place ∧ l = leg then node else dir.files p l }

variable (env : EncodeEnv)

variable (place : Option String)

/-- Write one archive to a place of the directory: make the converter, create the file, fill it,
    sync it. The recorded file name is the one inside that place. -/
def encodeTrack (leg : Leg) (format : TrackFormat) : Prog SessionDir OpusError EncodedTrack := do
  let dir ← Prog.read fun dir => .ok dir
  let _ ← Prog.read fun _ => converterFor codecs format.sane.sampleRateHz
  let put := fun (file : DurableFile) => Prog.step fun (dir : SessionDir) =>
    { dir with archives := dir.archives.setFile place leg (some (.file file)) }
  put .empty
  let (stats, packets) ← Prog.read fun _ => encodePcm codecs env.reads format (dir.pcm leg)
  let written := DurableFile.empty.writeAll (codecs.muxer.mux (env.serial leg) packets) none
  put written.1
  Prog.read fun _ => refuseIf (!written.2) (.io .other)
  put written.1.sync
  return {
    file := leg.opus
    pcmBytes := (dir.pcm leg).elim 0 Node.len
    opusBytes := written.1.bytes.length
    durationMs := stats.durationMs
    sampleRateHz := expectedRate format.sane.sampleRateHz }

/-- The raw leg is there and not shorter than what an earlier encode recorded. A microphone
    that was never recorded may be absent. -/
def checkSource (manifest : Manifest) (dir : SessionDir) (leg : Leg) : Except IoError Unit :=
  let archive := dir.archives.files none leg
  let minimum := manifest.encoded.elim 0 fun e => (e.of leg).pcmBytes
  if archive.any (!·.isFile) then .error (invalidIo "archive destination is not an ordinary file")
  else match dir.pcm leg with
    | some node =>
      if node.isFile && node.len ≥ minimum then .ok ()
      else .error (invalidIo
        "raw archive source is unavailable or shorter than the retained recording")
    | none =>
      if leg = .mic ∧ minimum = 0 ∧ manifest.micFormat = none ∧ archive.isNone then .ok ()
      else .error .notFound

/-- At most 128 identities are tried. -/
def reserveGeneration (ids : List ArchiveId) : Prog SessionDir OpusError String := do
  let id ← Prog.read fun (dir : SessionDir) =>
    okOr ((ids.take 128).find? fun id => (dir.archives.generations id.generation).isNone)
      (.io .alreadyExists)
  Prog.step fun dir => { dir with archives := { dir.archives with
    generations := fun g => if g = id.generation then some true else dir.archives.generations g } }
  return id.generation

def liftIo {α : Type} (f : SessionDir → Except IoError α) : Prog SessionDir OpusError α :=
  Prog.mapError .io (Prog.read f)

/-- An abandoned generation is removed again. -/
def dropGeneration (dir : SessionDir) : SessionDir :=
  match place with
  | none => dir
  | some generation => { dir with archives :=
      { files := fun p l => if p = some generation then none else dir.archives.files p l
        generations := fun g => if g = generation then none else dir.archives.generations g } }

/-- The manifest names the archives relative to the session directory. -/
def placed (leg : Leg) (track : EncodedTrack) : EncodedTrack :=
  match place with
  | none => track
  | some generation => { track with file := generation ++ "/" ++ leg.opus }

/-- Archives that are there already are kept: the new ones go to a generation of their own. -/
def replaces (manifest : Manifest) : Bool :=
  manifest.encoded.isSome || (dir.archives.files none .system).isSome ||
    (dir.archives.files none .mic).isSome

def takePlace (ids : List ArchiveId) (replacement : Bool) :
    Prog SessionDir OpusError (Option String) :=
  if replacement then some <$> reserveGeneration ids else pure none

def encodeLegs (formats : SessionFormats) : Prog SessionDir OpusError EncodedSession := do
  let system ← encodeTrack codecs env place .system formats.system
  let mic ← encodeTrack codecs env place .mic formats.mic
  return ⟨placed place .system system, placed place .mic mic⟩

/-- Everything an encode does before it records the tracks in the manifest. -/
def encodeArchives : Prog SessionDir OpusError (Manifest × EncodedSession) := do
  liftIo archiveOwner
  let manifest ← liftIo readManifest
  liftIo fun dir => checkSource manifest dir .system
  liftIo fun dir => checkSource manifest dir .mic
  let formats ← Prog.read fun (dir : SessionDir) => .ok (manifest.trackFormats dir.pcm)
  let replacement ← Prog.read fun (dir : SessionDir) => .ok (replaces dir manifest)
  let place ← takePlace env.ids replacement
  let tracks ← Prog.onError (dropGeneration place) (encodeLegs codecs env place formats)
  return (manifest, tracks)

def recordTracks (manifest : Manifest) (tracks : EncodedSession) (dir : SessionDir) : SessionDir :=
  { dir with manifest := some { manifest with encoded := some tracks } }

def encodeSession : Prog SessionDir OpusError EncodedSession := do
  let (manifest, tracks) ← encodeArchives codecs env
  Prog.step (recordTracks manifest tracks)
  return tracks

end Encode

/-! ## Discarding the raw legs -/

def verifyRetainedLeg (leg : Leg) (track : EncodedTrack) : Except IoError Unit :=
  match dir.pcm leg with
  | none => .ok ()
  | some node =>
    if node.isFile && node.len == track.pcmBytes then .ok ()
    else .error (invalidIo "raw audio differs from the completed archive")

def verifyRetainedPcm (encoded : EncodedSession) : Except IoError Unit := do
  verifyRetainedLeg dir .system encoded.system
  verifyRetainedLeg dir .mic encoded.mic

/-- Everything `discard_pcm` checks before it removes a file. -/
def discardable {σ δ : Type} (lib : Libopus σ δ) (dir : SessionDir) : Except IoError Unit := do
  archiveOwner dir
  let manifest ← readManifest dir
  let encoded ← okOr manifest.encoded
    (invalidIo "refusing to unlink PCM: the manifest records no Opus encode")
  let formats := manifest.trackFormats dir.pcm
  verifyEncodedTrack lib dir.archives .system encoded.system (some formats.system)
  verifyEncodedTrack lib dir.archives .mic encoded.mic (some formats.mic)
  verifyRetainedPcm dir encoded

/-- The bytes reclaimed. -/
def removePcm (leg : Leg) : Prog SessionDir IoError ℕ := do
  let size ← Prog.read fun (dir : SessionDir) => .ok ((dir.pcm leg).elim 0 Node.len)
  Prog.step fun (dir : SessionDir) =>
    { dir with pcm := fun l => if l = leg then none else dir.pcm l }
  return size

def discardPcm {σ δ : Type} (lib : Libopus σ δ) : Prog SessionDir IoError ℕ := do
  Prog.read (discardable lib)
  let system ← removePcm .system
  let mic ← removePcm .mic
  return system + mic

section Discard
variable {dir : SessionDir} {manifest : Manifest} {encoded : EncodedSession}

theorem verifyRetainedLeg_eq_ok {leg : Leg} {track : EncodedTrack}
    (h : verifyRetainedLeg dir leg track = .ok ()) {node : Node} (hnode : dir.pcm leg = some node) :
    node.isFile = true ∧ node.len = track.pcmBytes := by
  rw [verifyRetainedLeg, hnode] at h
  dsimp only at h
  split at h
  · next hsame =>
    simpa using hsame
  · cases h

/-- The record has the length of a raw leg that is gone. -/
theorem trackFormats_removed (hencoded : manifest.encoded = some encoded)
    (hlen : ∀ leg node, dir.pcm leg = some node → node.len = (encoded.of leg).pcmBytes)
    {pcm : Leg → Option Node} (hpcm : ∀ leg, pcm leg = none ∨ pcm leg = dir.pcm leg) :
    manifest.trackFormats pcm = manifest.trackFormats dir.pcm := by
  have hbytes (leg : Leg) : manifest.legBytes pcm leg = manifest.legBytes dir.pcm leg := by
    unfold Manifest.legBytes
    rcases hpcm leg with hgone | hkept
    · rw [hgone, hencoded]
      cases hnode : dir.pcm leg with
      | none => rfl
      | some node => exact (hlen leg node hnode).symm
    · rw [hkept]
  simp only [Manifest.trackFormats, hbytes]

end Discard

end FlyOnTheWall.Wal
