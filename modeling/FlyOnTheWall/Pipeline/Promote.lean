/-
  Promotion: a finished session becomes durable media.

  * `claim`, `encode`, `publish`, `stamp`, `retire`, `promote`: programs over a `Disk`, one step
    for each change of the file system, so that a crash can come after any of them.
  * `retirementGuard`: the state of the two replay sources in which a session may go.

  A path is the list of its components; different lists are different places, and none of them
  is inside the session directory. Names in the media tree lead to files and directories.
  Operations on names (create, rename, remove) take effect in order; the bytes of a file survive
  a power cut as far as they were synced.
-/
import FlyOnTheWall.Pipeline.Wal

namespace FlyOnTheWall.Promote
open Lib Opus Wal

/-! ## Errors -/

/-- A pending transcription without a reason is the guard that found an open or unfinished
    source. -/
inductive PromoteError
  | pendingTranscription (reason : Option IoError)
  | noSession
  | unclaimed
  | unfinalized
  | notEncoded
  | notPublished
  | unverified (path : String) (want : ℕ) (got : Option ℕ)
  | encode (source : OpusError)
  | io (what : String) (source : IoError)
  deriving DecidableEq, Repr

def io {α : Type} (what : String) : Except IoError α → Except PromoteError α
  | .ok a => .ok a
  | .error e => .error (.io what e)

/-! ## Paths -/

inductive Component
  | rootDir
  | curDir
  | parentDir
  | normal (name : String)
  deriving DecidableEq, Repr

def Component.isNormal : Component → Bool
  | .normal _ => true
  | _ => false

/-- The pieces between slashes; there is always a first one. -/
def pieces : List Char → List Char × List (List Char)
  | [] => ([], [])
  | c :: cs =>
    let (first, rest) := pieces cs
    if c = '/' then ([], first :: rest) else (c :: first, rest)

def componentOf (piece : List Char) : Option Component :=
  if piece = [] ∨ piece = ['.'] then none
  else if piece = ['.', '.'] then some .parentDir
  else some (.normal (String.ofList piece))

/-- `Path::components`: a slash in front is the root, a dot in front is kept, empty pieces and
    later dots are dropped. -/
def components (path : String) : List Component :=
  let (first, rest) := pieces path.toList
  let front :=
    if first = [] then (if rest = [] then [] else [.rootDir])
    else if first = ['.'] then [.curDir]
    else (componentOf first).toList
  front ++ rest.filterMap componentOf

/-- The directories on the way to a path, with the path itself. -/
def ancestors (path : List Component) : List (List Component) :=
  (List.range path.length).map fun k => path.take (k + 1)

/-! ## The disk -/

/-- `entries p` is `some true` if `p` is a directory. -/
structure Media where
  entries : List Component → Option Bool
  finished : List Component → Leg → Option Node
  parts : List Component → Leg → Option DurableFile

variable (media : Media) (path : List Component)

/-- A directory of the media tree as a place for archives. -/
def Media.archiveDir : ArchiveDir where
  files place leg := match place with
    | none => media.finished path leg
    | some _ => none
  generations _ := none

variable (leg : Leg)

def Media.setPart (file : DurableFile) : Media :=
  { media with parts := fun p l => if p = path ∧ l = leg then some file else media.parts p l }

def Media.setFinished (node : Node) : Media :=
  { media with finished := fun p l => if p = path ∧ l = leg then some node else media.finished p l }

/-- The rename of a part to its finished name. -/
def Media.finishPart : Media :=
  match media.parts path leg with
  | none => media
  | some file =>
    { media.setFinished path leg (.file file) with
      parts := fun p l => if p = path ∧ l = leg then none else media.parts p l }

def Media.syncFinished : Media :=
  match media.finished path leg with
  | some (.file file) => media.setFinished path leg (.file file.sync)
  | _ => media

structure Disk where
  session : Option SessionDir
  retired : Option SessionDir
  media : Media

def Disk.setSession (disk : Disk) (dir : SessionDir) : Disk := { disk with session := some dir }

abbrev PromoteProg (α : Type) : Type := Prog Disk PromoteError α

def readSession {α : Type} (f : SessionDir → Except PromoteError α) : PromoteProg α :=
  Prog.read fun disk => match disk.session with
    | none => .error .noSession
    | some dir => f dir

def changeSession (f : SessionDir → SessionDir) : PromoteProg Unit :=
  Prog.step fun disk => { disk with session := disk.session.map f }

def changeMedia (f : Media → Media) : PromoteProg Unit :=
  Prog.step fun disk => { disk with media := f disk.media }

def manifestOf (dir : SessionDir) : Except PromoteError Manifest := okOr dir.manifest .noSession

def writeManifest (manifest : Manifest) : PromoteProg Unit :=
  changeSession fun dir => { dir with manifest := some manifest }

/-! ## Claim -/

/-- Year, month and day of a day number. -/
def civilFromDays (days : ℤ) : ℤ × ℤ × ℤ :=
  let z := days + 719468
  let era := (if z ≥ 0 then z else z - 146096).tdiv 146097
  let doe := z - era * 146097
  let yoe := (doe - doe.tdiv 1460 + doe.tdiv 36524 - doe.tdiv 146096).tdiv 365
  let y := yoe + era * 400
  let doy := doe - (365 * yoe + yoe.tdiv 4 - yoe.tdiv 100)
  let mp := (5 * doy + 2).tdiv 153
  let d := doy - (153 * mp + 2).tdiv 5 + 1
  let m := if mp < 10 then mp + 3 else mp - 9
  (if m ≤ 2 then y + 1 else y, m, d)

def civilFromMs (ms : ℕ) : ℤ × ℤ × ℤ := civilFromDays (ms / 86400000 : ℕ)

/-- A number with zeros in front up to a width. -/
def padded (width : ℕ) (n : ℤ) : String :=
  let digits := toString n
  String.ofList (List.replicate (width - digits.length) '0') ++ digits

/-- `PathBuf::join`: an absolute path replaces the base. -/
def join (base path : String) : String :=
  if path.toList.head? = some '/' then path else base ++ "/" ++ path

def mediaRelDir (startedAtMs : ℕ) (meetingId : String) : String :=
  let date := civilFromMs startedAtMs
  join (join (join "media" (padded 4 date.1)) (padded 2 date.2.1)) meetingId

variable (meetingId : String) (startedAtMs : ℕ)

def claimOf : Claim :=
  ⟨meetingId, mediaRelDir startedAtMs meetingId⟩

def claim : PromoteProg Claim := do
  let manifest ← readSession manifestOf
  let claim := claimOf meetingId startedAtMs
  writeManifest { manifest with claim := some claim }
  return claim

/-- The claim of a session that is ready for promotion. -/
def readyClaim (manifest : Manifest) : Except PromoteError Claim := do
  refuseIf manifest.endedAtMs.isNone .unfinalized
  okOr manifest.claim .unclaimed

/-! ## Encode -/

def encode {σ δ φ ρ : Type} (codecs : Codecs σ δ φ ρ) (env : EncodeEnv) : PromoteProg Unit := do
  let manifest ← readSession manifestOf
  if manifest.encoded.isSome then return ()
  else do
    let _ ← Prog.zoom Disk.session Disk.setSession .noSession
      (Prog.mapError .encode (encodeSession codecs env))
    return ()

/-! ## Publish -/

/-- `create_dir_all`, one directory after the other. -/
def createDirs : List (List Component) → PromoteProg Unit
  | [] => pure ()
  | path :: paths => do
    let entry ← Prog.read fun (disk : Disk) => .ok (disk.media.entries path)
    match entry with
    | some true => createDirs paths
    | some false =>
      Prog.read fun _ => .error (.io "creating the media directory" .alreadyExists)
    | none => do
      changeMedia fun media =>
        { media with entries := fun p => if p = path then some true else media.entries p }
      createDirs paths

/-- The file a record leads to. -/
def sourceFile (dir : SessionDir) (leg : Leg) (track : EncodedTrack) :
    Except IoError DurableFile := do
  let path ← archivePath dir.archives leg track.file
  ordinaryFile (dir.archives.files path leg)

/-- `sync_all` on the file a record leads to. -/
def syncSource (leg : Leg) (track : EncodedTrack) (dir : SessionDir) : SessionDir :=
  match archivePath dir.archives leg track.file with
  | .error _ => dir
  | .ok path =>
    match dir.archives.files path leg with
    | some (.file file) =>
      { dir with archives := dir.archives.setFile path leg (some (.file file.sync)) }
    | _ => dir

def channel : Leg → String
  | .system => "system"
  | .mic => "mic"

section
variable {σ δ φ ρ : Type} (lib : Libopus σ δ)

def verifySource (manifest : Manifest) (encoded : EncodedSession) (leg : Leg) :
    PromoteProg Unit := do
  readSession fun dir => io "verifying source archive"
    (verifyEncodedTrack lib dir.archives leg (encoded.of leg)
      (some ((manifest.trackFormats dir.pcm).of leg)))
  changeSession (syncSource leg (encoded.of leg))

/-- Create the part, fill it, sync it, and rename it to its finished name. -/
def publishOne (dest : List Component) (relDir : String) (leg : Leg) (track : EncodedTrack) :
    PromoteProg PromotedTrack := do
  let source ← readSession fun dir => io "opening the encoded track" (sourceFile dir leg track)
  changeMedia fun media => media.setPart dest leg .empty
  let written := DurableFile.empty.writeAll source.bytes none
  changeMedia fun media => media.setPart dest leg written.1
  Prog.read fun _ => refuseIf (!written.2) (.io "writing the media file" .other)
  changeMedia fun media => media.setPart dest leg written.1.sync
  Prog.read fun disk => refuseIf ((disk.media.finished dest leg).any (!·.isFile))
    (.io "publishing the track to" .other)
  changeMedia fun media => media.finishPart dest leg
  return {
    channel := channel leg
    relPath := relDir ++ "/" ++ leg.opus
    bytes := source.bytes.length
    durationMs := track.durationMs
    sampleRateHz := track.sampleRateHz }

def publish : PromoteProg Promotion := do
  readSession fun dir => io "acquiring archive ownership" (archiveOwner dir)
  let manifest ← readSession manifestOf
  let claim ← Prog.read fun _ => readyClaim manifest
  let encoded ← Prog.read fun _ => okOr manifest.encoded .notEncoded
  verifySource lib manifest encoded .system
  verifySource lib manifest encoded .mic
  createDirs (ancestors (components claim.relDir))
  let system ← publishOne (components claim.relDir) claim.relDir .system encoded.system
  let mic ← publishOne (components claim.relDir) claim.relDir .mic encoded.mic
  return ⟨claim.meetingId, claim.relDir, [system, mic]⟩

/-! ## Stamp -/

def stamp (promotion : Promotion) : PromoteProg Unit := do
  let manifest ← readSession manifestOf
  writeManifest { manifest with promoted := some promotion }

/-! ## Verify -/

def mismatch : PromoteError :=
  .io "verifying published archive identity"
    (.invalidData "published archives do not match the original sources")

variable (promoted : Promotion) (manifest : Manifest)

variable (encoded : EncodedSession) (leg : Leg)

/-- What is checked about one published track. -/
def checkPublished (dir : SessionDir) (media : Media) : Except PromoteError Unit := do
  let track := encoded.of leg
  let path := components promoted.relDir
  let t ← okOr (promoted.tracks.find? (·.channel == channel leg)) mismatch
  refuseIf (t.relPath != promoted.relDir ++ "/" ++ leg.opus || t.bytes != track.opusBytes ||
    t.durationMs != track.durationMs || t.sampleRateHz != track.sampleRateHz) mismatch
  let got := (media.finished path leg).map Node.len
  refuseIf (got != some t.bytes) (.unverified t.relPath t.bytes got)
  let _ ← io "verifying source archive identity" (archivePath dir.archives leg track.file)
  io "verifying published archive audio"
    (verifyEncodedTrack lib (media.archiveDir path) leg { track with file := leg.opus }
      (some ((manifest.trackFormats dir.pcm).of leg)))

def verifyPublished : PromoteProg Unit := do
  Prog.read fun disk => match disk.session with
    | none => .error .noSession
    | some dir => checkPublished lib promoted manifest encoded leg dir disk.media
  changeMedia fun media => media.syncFinished (components promoted.relDir) leg

def verify : PromoteProg Unit := do
  let encoded ← Prog.read fun _ => okOr manifest.encoded .notEncoded
  Prog.read fun _ => refuseIf (promoted.tracks.length != 2 || promoted.relDir.isEmpty ||
    !(components promoted.relDir).all Component.isNormal) mismatch
  Prog.read fun disk => refuseIf (!(ancestors (components promoted.relDir)).all fun path =>
    disk.media.entries path == some true) mismatch
  verifyPublished lib promoted manifest encoded .system
  verifyPublished lib promoted manifest encoded .mic

/-! ## Retire -/

variable (json : Replay.Json)

variable (dir : SessionDir) (sessionId : String)

/-- The locks, the completion and the projection of one source. A source that would block or
    is not finished gives `false`. -/
def sourceRetirable (source : Replay.ReplaySource) : Except IoError Bool :=
  let files := (dir.streams source).dir
  if files.audio.isNone then do
    refuseIf (files.completion.isSome || files.sealedMark.isSome)
      (invalidIo "completion proof has no replay audio")
    .ok true
  else if (dir.streams source).owner.isSome || dir.coverageOwned source then .ok false
  else do
    let reader ← Replay.openReader json files sessionId source
    let complete ← reader.isComplete json files
    if !complete then .ok false else reader.isProjected json files

def retirementGuard : Except IoError Bool := do
  let system ← sourceRetirable json dir sessionId .system
  if !system then .ok false else sourceRetirable json dir sessionId .mic

/-- Ownership that is taken is a transcription that is not finished. -/
def ownedForRetirement (dir : SessionDir) : Except PromoteError Unit :=
  match archiveOwner dir with
  | .ok () => .ok ()
  | .error .wouldBlock => .error (.pendingTranscription (some .wouldBlock))
  | .error e => .error (.io "acquiring archive ownership" e)

def guardForRetirement (sessionId : String) (dir : SessionDir) : Except PromoteError Unit :=
  match retirementGuard json dir sessionId with
  | .error e => .error (.pendingTranscription (some e))
  | .ok false => .error (.pendingTranscription none)
  | .ok true => .ok ()

/-- The only destructive step: rename the directory out of the way, then remove it. -/
def retire : PromoteProg Unit := do
  readSession ownedForRetirement
  let manifest ← readSession manifestOf
  let promoted ← Prog.read fun _ => okOr manifest.promoted .notPublished
  verify lib promoted manifest
  let encoded ← Prog.read fun _ => okOr manifest.encoded .notEncoded
  readSession fun dir => io "verifying retained raw audio" (verifyRetainedPcm dir encoded)
  readSession (guardForRetirement json manifest.id)
  Prog.read fun disk => refuseIf disk.retired.isSome
    (.io "retiring the session directory" .alreadyExists)
  Prog.step fun disk => { disk with session := none, retired := disk.session }
  Prog.step fun disk => { disk with retired := none }

/-! ## Promote -/

def retireFinishedReplay : PromoteProg Unit := do
  match ← (Prog.attempt (retire lib json) : PromoteProg _) with
  | .ok () | .error (.pendingTranscription _) => return ()
  | .error e => Prog.read fun _ => .error e

def publishAndRetire (codecs : Codecs σ δ φ ρ) (json : Replay.Json) (env : EncodeEnv) :
    PromoteProg Promotion := do
  encode codecs env
  let promotion ← publish codecs.lib
  stamp promotion
  retireFinishedReplay codecs.lib json
  return promotion

/-- Whether the stamped promotion is still intact. -/
def stillPublished (manifest : Manifest) : PromoteProg Bool :=
  match manifest.promoted with
  | none => pure false
  | some done => do
    let checked ← (Prog.attempt (verify lib done manifest) : PromoteProg _)
    return checked.isOk

def promote (codecs : Codecs σ δ φ ρ) (json : Replay.Json) (env : EncodeEnv) :
    PromoteProg Promotion := do
  let manifest ← readSession manifestOf
  let _ ← Prog.read fun _ => readyClaim manifest
  let intact ← stillPublished codecs.lib manifest
  match intact, manifest.promoted with
  | true, some done => do
    retireFinishedReplay codecs.lib json
    return done
  | _, _ => publishAndRetire codecs json env

/-- `sweep_retired`, for this session. -/
def sweepRetired : PromoteProg Unit := Prog.step fun disk => { disk with retired := none }

end

end FlyOnTheWall.Promote
