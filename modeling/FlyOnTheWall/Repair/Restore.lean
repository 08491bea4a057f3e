/-
  Restoring a retained canonical stream from a reconstruction of it
  (`ReconstructionOwner` and `restore_reconstructed_suffix` of `fotw-pipeline/src/replay.rs`).

  The candidate is validated against what is retained: identity, every complete sample, and
  the markers beside the stream. Only then the file is cut back to its last complete sample and
  the missing samples are appended; a missing file is published by a hard link. The stop flag
  and the outcomes of the system calls are given with the call, so a run that is interrupted
  at some point is a run with other outcomes.
-/
import FlyOnTheWall.Failover.ProcessingCheck

namespace FlyOnTheWall.Replay

open Lib

/-- `io::ErrorKind::Interrupted`; no caller tells it from the other kinds. -/
def interrupted : IoError := .other

/-! ## The files of a source and their markers -/

structure PrefixProjection where
  scope : String
  boundary : Completion
  journalBytes : ℕ
  deriving DecidableEq

structure RestoreJson extends Json where
  prefixProjection : Codec PrefixProjection

/-- The files of one source with the marker of a projected prefix. -/
structure SourceFiles where
  dir : Dir
  prefixProjected : Option (List UInt8)

/-- The closure `matches` of the marker check: a boundary of this stream that ends at `last`,
    or for a prefix not after it. -/
def provesOf (r : Reader) (last : ℕ) (full : Bool) (b : Completion) : Bool :=
  b.schema == 1 && b.sessionId == r.header.sessionId && b.source == r.header.source &&
    b.firstSample == r.firstSample && b.throughSample ≥ r.firstSample &&
    if full then b.throughSample == last else b.throughSample ≤ last

variable (json : RestoreJson)

/-- `ordinary` says that whatever stands at the four paths is an ordinary file. -/
def validateReconstructionMarkers (ordinary : Bool) (files : SourceFiles)
    (r : Reader) : Except IoError Unit := do
  let last ← r.availableEnd
  refuseIf (!ordinary) (invalid "restoration proof is not an ordinary file")
  let sealedMark ← readMarker json.boundary files.dir.sealedMark
  refuseIf (sealedMark.any (!provesOf r last true ·))
    (invalid "restoration conflicts with frozen source proof")
  let completion ← readMarker json.boundary files.dir.completion
  refuseIf (completion.any (!provesOf r last true ·))
    (invalid "restoration conflicts with frozen source proof")
  let projected ← readMarker json.projection files.dir.projected
  refuseIf (projected.any fun p => !provesOf r last true p.boundary || p.journalBytes == 0)
    (invalid "restoration projection identity differs")
  let prefixProjected ← readMarker json.prefixProjection files.prefixProjected
  refuseIf (prefixProjected.any fun p => p.scope != "saved-prefix-projection" ||
      !provesOf r last false p.boundary || p.journalBytes == 0)
    (invalid "restoration prefix proof differs")

/-! ## What can interfere -/

/-- The places where the stop flag is looked at. -/
inductive Checkpoint
  | entry
  | path
  | compare (cursor : ℕ)
  | validated
  | copy (cursor : ℕ)
  | link

/-- What stands at the path of the candidate that has been opened. -/
inductive CandidatePath
  | absent
  | special
  | replaced
  | same

/-- The stop flag at each place and the outcomes of the system calls. A write that is stopped
    gives the number of bytes it got through. -/
structure RestoreIo where
  stop : Checkpoint → Bool
  locked : Bool
  ordinary : Bool
  path : CandidatePath
  proofsOrdinary : Bool
  setLen : Bool
  seek : Bool
  write : ℕ → Option ℕ
  sync : Bool
  candidateSync : Bool
  linkPath : CandidatePath
  link : Bool
  reopen : Bool
  dirSync : Bool

def RestoreIo.undisturbed : RestoreIo where
  stop _ := false
  locked := false
  ordinary := true
  path := .same
  proofsOrdinary := true
  setLen := true
  seek := true
  write _ := none
  sync := true
  candidateSync := true
  linkPath := .same
  link := true
  reopen := true
  dirSync := true

def checkedCandidatePath (path : CandidatePath) (stop : Bool) : Except IoError Unit := do
  match path with
  | .absent => .error .notFound
  | .special => .error (invalid "candidate path is not an ordinary file")
  | .replaced => .error (invalid "candidate path no longer refers to validated input")
  | .same => refuseIf stop interrupted

/-! ## The two loops -/

/-- Samples of the next bounded read. -/
def chunk (cursor last : ℕ) : ℕ := min (last - cursor) maxReadSamples

theorem chunk_pos {cursor last : ℕ} (h : cursor < last) : 0 < chunk cursor last := by
  unfold chunk maxReadSamples
  omega

theorem chunk_le (cursor last : ℕ) :
    chunk cursor last ≤ last - cursor ∧ chunk cursor last ≤ maxReadSamples := by
  unfold chunk
  omega

/-- Every sample of the retained stream before `last` is the candidate's. -/
def compareFrom (io : RestoreIo) (differs : IoError) (original candidate : Reader)
    (last cursor : ℕ) : Except IoError Unit :=
  if _h : cursor < last then do
    refuseIf (io.stop (.compare cursor)) interrupted
    let retained ← original.readFrom cursor (chunk cursor last)
    refuseIf (retained.length != chunk cursor last) differs
    let pcm ← candidate.readFrom cursor (chunk cursor last)
    refuseIf (pcm != retained) differs
    compareFrom io differs original candidate last (cursor + chunk cursor last)
  else .ok ()
termination_by last - cursor
decreasing_by
  have := chunk_pos _h
  omega

/-- How far a copy came, and whether a write failed. -/
structure Copied where
  result : Except IoError Unit
  cursor : ℕ
  file : DurableFile
  failed : Bool

def copyFrom (io : RestoreIo) (shortened : IoError) (candidate : Reader) (target cursor : ℕ)
    (file : DurableFile) : Copied :=
  if _h : cursor < target then
    if io.stop (.copy cursor) then ⟨.error interrupted, cursor, file, false⟩
    else
      match candidate.readFrom cursor (chunk cursor target) with
      | .error e => ⟨.error e, cursor, file, false⟩
      | .ok pcm =>
        if pcm.length != chunk cursor target then ⟨.error shortened, cursor, file, false⟩
        else if (file.writeAll (encodePcm pcm) (io.write cursor)).2 then
          copyFrom io shortened candidate target (cursor + chunk cursor target)
            (file.writeAll (encodePcm pcm) (io.write cursor)).1
        else ⟨.error .other, cursor, (file.writeAll (encodePcm pcm) (io.write cursor)).1, true⟩
  else ⟨.ok (), cursor, file, false⟩
termination_by target - cursor
decreasing_by
  have := chunk_pos _h
  omega

/-! ## The offline owner -/

/-- The reader of what is retained is open for as long as the owner exists. -/
structure ReconstructionOwner where
  expected : Header
  original : Option Reader

variable (io : RestoreIo)

/-- Missing input stays absent. -/
def openOriginal (audio : Option DurableFile)
    (session : String) (source : ReplaySource) : Except IoError (Option Reader) :=
  match audio with
  | none => .ok none
  | some file => do
    refuseIf (!io.ordinary) (invalid "restoration source is not an ordinary file")
    let r ← fromFile json.header file session source
    return some r

variable (files : SourceFiles)

def reserve (session : String)
    (source : ReplaySource) (firstSample : ℕ) : Except IoError ReconstructionOwner := do
  refuseIf (session.isEmpty || session.utf8ByteSize > 512) (invalid "invalid restoration session")
  refuseIf io.locked .wouldBlock
  let original ← openOriginal json io files.dir.audio session source
  let expected : Header := ⟨session, source, streamRate, firstSample, none⟩
  refuseIf (original.any (·.header != expected)) (invalid "retained canonical identity differs")
  return ⟨expected, original⟩

namespace ReconstructionOwner

variable (owner : ReconstructionOwner)

/-- The retained samples, if there are any, against the candidate's. -/
def compareRetained (original : Option Reader) (candidate : Reader)
    (target : ℕ) : Except IoError Unit :=
  match original with
  | none => .ok ()
  | some original => do
    let last ← original.availableEnd
    refuseIf (last > target) (invalid "candidate would shorten retained audio")
    compareFrom io (invalid "candidate would replace retained canonical samples") original
      candidate last original.firstSample

def validateCandidate (candidate : Reader) : Except IoError ℕ := do
  refuseIf (io.stop .entry) interrupted
  checkedCandidatePath io.path (io.stop .path)
  refuseIf (candidate.header != owner.expected) (invalid "candidate restoration identity differs")
  let target ← Processing.savedEnd candidate
  compareRetained io owner.original candidate target
  validateReconstructionMarkers json io.proofsOrdinary files candidate
  return target

/-- Cut back to the last complete sample, append what is missing and sync. -/
def restoreExisting (original candidate : Reader) (target : ℕ) :
    Except IoError Unit × DurableFile :=
  match original.availableEnd with
  | .error e => (.error e, original.file)
  | .ok last =>
    if !io.setLen then (.error .other, original.file)
    else
      let file :=
        original.file.truncate (original.audioOffset + (last - original.firstSample) * 2)
      if !io.seek then (.error .other, file)
      else
        let copied := copyFrom io (invalid "candidate shortened during restoration") candidate
          target last file
        match copied.result with
        | .error e => (.error e, copied.file)
        | .ok () => if io.sync then (.ok (), copied.file.sync) else (.error .other, copied.file)

/-- Publish the synced candidate under the name of the missing stream. -/
def restoreMissing (candidate : Reader) : Except IoError Unit × Option DurableFile :=
  match (do
      refuseIf (!io.candidateSync) IoError.other
      checkedCandidatePath io.linkPath (io.stop .link)
      refuseIf (!io.link) .other) with
  | .error e => (.error e, none)
  | .ok () => (refuseIf (!io.reopen) .other, some candidate.file.sync)

/-- A directory that does not sync is reported after everything else has been done. -/
def restore (candidate : Reader) : Except IoError ℕ × SourceFiles :=
  match (do
      let target ← owner.validateCandidate json io files candidate
      refuseIf (io.stop .validated) interrupted
      return target) with
  | .error e => (.error e, files)
  | .ok target =>
    let restored : Except IoError Unit × Option DurableFile := match owner.original with
      | some original =>
        ((restoreExisting io original candidate target).1,
          some (restoreExisting io original candidate target).2)
      | none => restoreMissing io candidate
    (do
      restored.1
      refuseIf (!io.dirSync) .other
      return target,
      { files with dir := { files.dir with audio := restored.2 } })

end ReconstructionOwner

variable (session : String) (source : ReplaySource) (firstSample : ℕ) (candidate : Reader)

/-- Validation of a candidate by a fresh owner. -/
def validateSource : Except IoError ℕ := do
  let owner ← reserve json io files session source firstSample
  owner.validateCandidate json io files candidate

/-- A fresh owner restores its source. -/
def restoreSource : Except IoError ℕ × SourceFiles :=
  match reserve json io files session source firstSample with
  | .error e => (.error e, files)
  | .ok owner => owner.restore json io files candidate

/-! ## The append owner -/

namespace Stream

section
variable (json : Json) (io : RestoreIo) (s : Stream) (w : Writer) (source : ReplaySource)
  (candidate : Reader)

def validateReconstructedSuffix : Except IoError ℕ := do
  refuseIf w.failed (invalid "replay writer failed; recovery required")
  let original ← openReader json s.dir w.sessionId source
  refuseIf (original.header != candidate.header)
    (invalid "reconstructed input identity or boundary differs")
  let sealedAt ← original.sealedEnd json s.dir
  refuseIf sealedAt.isSome (invalid "reconstructed input identity or boundary differs")
  let last ← original.availableEnd
  refuseIf (last != w.endSample) (invalid "reconstructed input identity or boundary differs")
  let target ← candidate.availableEnd
  refuseIf (target < w.endSample) (invalid "reconstructed input identity or boundary differs")
  compareFrom io (invalid "reconstruction would replace retained canonical audio") original
    candidate w.endSample original.firstSample
  candidate.availableEnd

/-- The file is cut to the owner's end, and the owner's end follows every chunk. -/
def restoreReconstructedSuffix : Except IoError ℕ × Stream :=
  match (do
      let target ← s.validateReconstructedSuffix json io w source candidate
      refuseIf (io.stop .validated) interrupted
      let original ← openReader json s.dir w.sessionId source
      refuseIf (!io.setLen) .other
      return (target, original)) with
  | .error e => (.error e, s)
  | .ok (target, original) =>
    let file :=
      original.file.truncate (original.audioOffset + (w.endSample - original.firstSample) * 2)
    if !io.seek then (.error .other, { s with dir := { s.dir with audio := some file } })
    else
      let copied := copyFrom io (invalid "reconstructed input shortened") candidate target
        w.endSample file
      let w' := { w with endSample := copied.cursor, failed := copied.failed }
      let s' : Stream := ⟨{ s.dir with audio := some copied.file }, some w'⟩
      match copied.result with
      | .error e => (.error e, s')
      | .ok () => s'.syncAs w' io.sync

end

/-- Another owner takes the stream over as a prefix and restores it. -/
def takeOverAndRestore (json : Json) (dir : Dir) (sessionId : String) (source : ReplaySource)
    (candidate : Reader) : Except IoError ℕ × Stream :=
  match (Stream.mk dir none).resumePrefixValidated json ⟨true, true⟩ sessionId source
      fun _ => .ok () with
  | (.error e, s) => (.error e, s)
  | (.ok (), s) =>
    match s.owner with
    | none => (.error .other, s)
    | some w => s.restoreReconstructedSuffix json .undisturbed w source candidate

end Stream

end FlyOnTheWall.Replay
