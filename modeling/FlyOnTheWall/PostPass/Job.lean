/-
  One meeting's cleanup job.

  `runJob` opens the saved tracks, sends every window that has no checkpoint through speech
  detection and the recognizer, stores its words at once, labels the speakers of the system
  track and stores the result as a new version of the transcript. It runs on the library's
  rows of the meeting (`Library`) step by step, so it can be cut after any of them, and it can
  be asked to stop between windows (`RunIo`).

  The engine is a set of functions: the same audio gives the same answer. `Cleanup` collects
  what a job is given besides the library. `heard` of `JobState` is bookkeeping of the model:
  the windows that were handed to the engine, in order.
-/
import FlyOnTheWall.Lib.Steps
import FlyOnTheWall.PostPass.Merge

namespace FlyOnTheWall.PostPass
open Lib

/-! ## The library -/

inductive PostPassState
  | pending
  | done
  | failed
  deriving DecidableEq, Repr

structure PostPassJob where
  state : PostPassState
  createdAtMs : ℤ
  planJson : List UInt8
  progressPermille : ℕ
  liveTranscriptId : Option String
  cleanedTranscriptId : Option String
  provenanceJson : Option (List UInt8)
  detail : Option String
  deriving DecidableEq

structure NewSegment where
  idx : ℕ
  startMs : ℕ
  endMs : ℕ
  channel : Channel
  speakerLabel : Option String
  text : String
  isFinal : Bool
  words : Option (List UInt8)
  deriving DecidableEq

structure Transcript where
  id : String
  provider : String
  model : String
  isPrimary : Bool
  segments : List NewSegment
  deriving DecidableEq

/-- A row of `post_pass_windows`. -/
structure WindowRow where
  channel : Channel
  idx : ℕ
  wordsJson : List UInt8
  deriving DecidableEq

/-- The rows of one meeting. -/
structure Library where
  job : Option PostPassJob
  windows : List WindowRow
  transcripts : List Transcript
  deriving DecidableEq

def noLongerPending : String := "the cleanup job is no longer pending"

variable (l : Library)

def Library.pendingJob : Except String PostPassJob :=
  okOr (l.job.filter (·.state == .pending)) noLongerPending

/-- `post_pass_checkpoint`: a window's words and the job's progress, together. -/
def Library.checkpoint (channel : Channel) (idx : ℕ) (wordsJson : List UInt8)
    (progressPermille : ℕ) : Except String Library := do
  let job ← l.pendingJob
  let _ ← refuseIf (l.windows.any fun w => w.channel == channel && w.idx == idx)
    "UNIQUE constraint failed"
  .ok { l with
    job := some { job with progressPermille := min progressPermille 1000 }
    windows := l.windows ++ [⟨channel, idx, wordsJson⟩] }

/-- `post_pass_progress`. -/
def Library.progress (progressPermille : ℕ) : Library :=
  match l.pendingJob with
  | .ok job => { l with job := some { job with progressPermille := min progressPermille 1000 } }
  | .error _ => l

/-- How long summaries wait for a cleanup. -/
def postPassWaitMs : ℤ := 15 * 60 * 1000

def Library.primary : Option String :=
  (l.transcripts.find? (·.isPrimary)).map (·.id)

/-- The new version takes over only from the version that was live when the job was queued, and
    only while something may still wait for it. -/
def takesOver (job : PostPassJob) (now : ℤ) : Bool :=
  l.primary == job.liveTranscriptId && now - job.createdAtMs ≤ postPassWaitMs

/-- `post_pass_complete`: the new version, the end of the job and its checkpoints, together. -/
def Library.complete (id provider model : String) (segments : List NewSegment)
    (provenanceJson : List UInt8) (detail : Option String) (now : ℤ) :
    Except String Library := do
  let job ← l.pendingJob
  let _ ← refuseIf (l.transcripts.any (·.id == id)) "UNIQUE constraint failed"
  let takeOver := takesOver l job now
  let others :=
    if takeOver then l.transcripts.map fun t => { t with isPrimary := false } else l.transcripts
  .ok
    { job := some { job with
        state := .done
        progressPermille := 1000
        cleanedTranscriptId := some id
        provenanceJson := some provenanceJson
        detail }
      windows := []
      transcripts := others ++ [⟨id, provider, model, takeOver, segments⟩] }

/-! ## What a job is given -/

structure Plan where
  version : ℕ
  windowMs : ℕ
  overlapMs : ℕ
  engines : List UInt8
  bleed : Option BleedParams
  deriving DecidableEq

/-- `PassEngine` and `Diarization`; `δ` is a diarizer's state. -/
structure Engine (δ : Type) where
  speech : Pcm → Except String (List (ℕ × ℕ))
  transcribe : Pcm → Except String (List TimedWord)
  diarize : Except String (Option δ)
  push : δ → Pcm → Except String δ
  finish : δ → Except String (List SpeakerSpan)
  provenance : List UInt8
  bleed : Option BleedParams

variable {σ δ : Type}

def Plan.current (engine : Engine δ) : Plan := ⟨2, 30000, 2000, engine.provenance, engine.bleed⟩

structure Word where
  text : String
  startMs : ℕ
  endMs : ℕ
  speaker : Option String
  deriving DecidableEq

structure Segment where
  source : Channel
  speaker : Option String
  text : String
  startMs : ℕ
  endMs : ℕ
  words : List Word
  deriving DecidableEq

/-- The provenance stored with a cleaned version, besides its constant entries. -/
structure Provenance where
  plan : Plan
  speakerLabels : Bool
  echoSegmentsDropped : ℕ
  liveTranscriptId : Option String

/-- Saved tracks, engine and serializers of a job. `dedupeCrossLeg` is the pass over both
    channels that drops what the microphone only heard from the speakers. -/
structure Cleanup (σ δ : Type) where
  source : Source σ
  opens : Channel → Except String (Option σ)
  copiedFrames : BleedParams → Pcm → Pcm → List Bool
  engine : Engine δ
  unicode : Unicode
  dedupeCrossLeg : List Segment → List Segment × ℕ
  planJson : Codec Plan
  wordsJson : Codec (List TimedWord)
  encodeWords : List Word → List UInt8
  provenanceJson : Provenance → List UInt8

/-- What happens around one run: where it is asked to stop, which transactions fail, the notes
    of the engine, and the id and time of the new version. -/
structure RunIo where
  stopsAt : Channel → ℕ → Bool
  stopsLabels : Bool
  stopsChunk : ℕ → Bool
  failsCheckpoint : Channel → ℕ → Bool
  failsProgress : ℕ → Bool
  failsCompletion : Bool
  notes : List String
  newId : String
  now : ℤ

structure JobState where
  library : Library
  heard : List (Channel × ℕ)

inductive Outcome
  | done (id : String)
  | stopped
  deriving DecidableEq

variable (c : Cleanup σ δ) (io : RunIo)

abbrev Cleanup.tracks : Source (Track σ) := trackSource c.copiedFrames c.source

def Channel.other : Channel → Channel
  | .mic => .system
  | .system => .mic

variable (plan : Plan)

/-- A channel's track as the job reads it: filtered by the other channel's, when the plan says
    so and there is one. -/
def openTrack (channel : Channel) : Except String (Option (Track σ)) := do
  match ← c.opens channel with
  | none => .ok none
  | some track =>
    match plan.bleed.filter (·.appliesTo channel) with
    | none => .ok (some (.plain track))
    | some params =>
      match ← c.opens channel.other with
      | none => .ok (some (.plain track))
      | some reference => .ok (some (.filtered (BleedFilter.new c.source track reference params)))

def openTracks (plan : Plan) : List Channel → Except String (List (Channel × Track σ))
  | [] => .ok []
  | channel :: rest => do
    let track ← openTrack c plan channel
    let others ← openTracks plan rest
    .ok ((track.map fun t => (channel, t)).toList ++ others)

/-- The windows of a track. -/
def bounds (track : Track σ) : List (ℕ × ℕ) :=
  PostPass.plan (c.tracks.total track) (samples plan.windowMs) (samples plan.overlapMs)

def Cleanup.planOf (job : PostPassJob) : Except String Plan := do
  let plan ← okOr (c.planJson.fromSlice job.planJson) "not a plan"
  let _ ← refuseIf (plan != Plan.current c.engine)
    "the speech models changed since this cleanup started; the live transcript is kept"
  .ok plan

/-! ## Windows -/

def speechPadMs : ℕ := 300

/-- Zero everything farther than the padding from speech. -/
def silenceOutside (pcm : Pcm) (speech : List (ℕ × ℕ)) : Pcm :=
  pcm.mapIdx fun i x =>
    if speech.any fun s => s.1 - samples speechPadMs ≤ i && i < s.2 + samples speechPadMs then x
    else 0

/-- The words of a window, on the recording's clock. -/
def windowWords (window : PcmWindow) : Except String (List TimedWord) := do
  let speech ← c.engine.speech window.pcm
  if speech.isEmpty then .ok []
  else do
    let words ← c.engine.transcribe (silenceOutside window.pcm speech)
    let offset := millis window.start
    .ok (words.map fun w => TimedWord.new w.text (w.startMs + offset) (w.endMs + offset))

structure Progress where
  done : ℕ
  total : ℕ

/-- Never 1000 before the version is stored. -/
def Progress.permille (p : Progress) : ℕ :=
  if p.total = 0 then 0 else min (p.done * 1000 / p.total) 999

/-- The words of the windows that are done, by index. -/
abbrev Saved := List (ℕ × List TimedWord)

def decodeRow (row : WindowRow) : Except String (ℕ × List TimedWord) := do
  let words ← okOr (c.wordsJson.fromSlice row.wordsJson) "not a list of words"
  .ok (row.idx, words)

/-- `post_pass_windows`, decoded. -/
def decodeRows (channel : Channel) : List WindowRow → Except String Saved
  | [] => .ok []
  | row :: rest =>
    if row.channel = channel then do
      let saved ← decodeRow c row
      let others ← decodeRows channel rest
      .ok (saved :: others)
    else decodeRows channel rest

/-- A transaction on the library: it happens as a whole or not at all. -/
def commit (fails : Bool) (f : Library → Except String Library) : Prog JobState String Unit := do
  let library ← Prog.read fun s => do
    let _ ← refuseIf fails "SQLite failure"
    f s.library
  Prog.step fun s => { s with library }

/-- A window that has no checkpoint is heard and stored; `none` if the job is to stop. -/
def hearWindow (channel : Channel) (window : PcmWindow) (saved : Saved) (progress : Progress) :
    Prog JobState String (Option (Saved × Progress)) :=
  if (saved.lookup window.index).isSome then pure (some (saved, progress))
  else if io.stopsAt channel window.index then pure none
  else do
    Prog.step fun s => { s with heard := s.heard ++ [(channel, window.index)] }
    let words ← Prog.read fun _ => windowWords c window
    let progress := { progress with done := progress.done + 1 }
    commit (io.failsCheckpoint channel window.index) fun l =>
      l.checkpoint channel window.index (c.wordsJson.toVec words) progress.permille
    pure (some (saved ++ [(window.index, words)], progress))

/-- The windows of a track from number `index` on. -/
def hearWindows (channel : Channel) : List (ℕ × ℕ) → ℕ → WindowReader (Track σ) → Saved →
    Progress → Prog JobState String (Option (Saved × Progress))
  | [], _, _, saved, progress => pure (some (saved, progress))
  | b :: rest, index, reader, saved, progress => do
    let next ← Prog.read fun _ =>
      nextWindow c.tracks (fun i => (saved.lookup i).isSome) index b reader
    let heard ← hearWindow c io channel next.1 saved progress
    match heard with
    | none => pure none
    | some (saved, progress) => hearWindows channel rest (index + 1) next.2 saved progress

/-- Every window with its words. -/
def collect : List (ℕ × ℕ) → ℕ → Saved → List WindowWords
  | [], _, _ => []
  | b :: rest, index, saved =>
    ⟨millis b.1, millis b.2, (saved.lookup index).getD []⟩ :: collect rest (index + 1) saved

abbrev Heard := List (Channel × List WindowWords)

def hearTracks (plan : Plan) : List (Channel × Track σ) → Progress →
    Prog JobState String (Option (Heard × Progress))
  | [], progress => pure (some ([], progress))
  | (channel, track) :: rest, progress => do
    let saved ← Prog.read fun s => decodeRows c channel s.library.windows
    let heard ← hearWindows c io channel (bounds c plan track) 0 (WindowReader.new track) saved
      { progress with done := progress.done + saved.length }
    match heard with
    | none => pure none
    | some (saved, progress) => do
      let others ← hearTracks plan rest progress
      pure (others.map fun p => ((channel, collect (bounds c plan track) 0 saved) :: p.1, p.2))

/-! ## Speakers -/

inductive Diarized
  | spans (spans : List SpeakerSpan)
  | unavailable (why : String)
  | stopped
  deriving DecidableEq

def unavailable (e : String) : Diarized := .unavailable ("speaker labels unavailable: " ++ e)

def diarizeChunk : ℕ := 16000 * 10

def finishSession (session : δ) : Diarized :=
  match c.engine.finish session with
  | .ok spans => .spans spans
  | .error e => unavailable e

/-- The track is sent to the diarizer chunk by chunk; `sent` samples so far. `base` is the
    progress before it. -/
def diarizeLoop (base : Progress) (units total : ℕ) (track : Track σ) (session : δ)
    (sent chunk : ℕ) : Prog JobState String Diarized :=
  if io.stopsChunk chunk then pure .stopped
  else
    match _hread : c.tracks.read track diarizeChunk with
    | .error e => Prog.read fun _ => .error e
    | .ok ([], _) => pure (finishSession c session)
    | .ok (x :: more, track) =>
      match c.engine.push session (x :: more) with
      | .error e => pure (unavailable e)
      | .ok session => do
        let sent := sent + (x :: more).length
        let progress := { base with done := base.done + units * sent / total }
        Prog.step fun s =>
          if io.failsProgress chunk then s
          else { s with library := s.library.progress progress.permille }
        diarizeLoop base units total track session sent (chunk + 1)
termination_by c.tracks.left track
decreasing_by
  have hleft := c.tracks.read_left _hread
  simp only [List.length_cons] at hleft
  omega

def noDiarizer : Diarized := .unavailable "speaker labels unavailable: no diarizer installed"

/-- The system channel's speakers. A diarizer that is missing or fails leaves the cleaned
    version without labels. -/
def diarize (progress : Progress) (units : ℕ) : Prog JobState String Diarized :=
  match c.engine.diarize with
  | .error e => pure (unavailable e)
  | .ok none => pure noDiarizer
  | .ok (some session) => do
    let track ← Prog.read fun _ => openTrack c plan .system
    match track with
    | none => pure (.spans [])
    | some track =>
      diarizeLoop c io progress units (max (c.tracks.total track) 1) track session 0 0

/-- The speakers and the notes of the run; `none` if the job is to stop. -/
def labels (notes : List String) : Diarized → Option (Option (List SpeakerSpan) × List String)
  | .spans spans => some (some (joinSpans spans), notes)
  | .unavailable why => some (none, notes ++ [why])
  | .stopped => none

def Heard.hasSystem (heard : Heard) : Bool := heard.any (·.1 == .system)

def labelSpeakers (heard : Heard) (progress : Progress) (units : ℕ) :
    Prog JobState String (Option (Option (List SpeakerSpan) × List String)) :=
  if heard.hasSystem then
    if io.stopsLabels then pure none
    else labels io.notes <$> diarize c io plan progress units
  else pure (some (none, io.notes))

/-! ## The new version -/

def provider : String := "fotw-speechd"

def toSegment (turn : Turn) : Segment where
  source := turn.channel
  speaker := turn.speaker
  text := turn.text c.unicode
  startMs := turn.startMs
  endMs := turn.endMs
  words := turn.words.map fun w => ⟨w.1.text, w.1.startMs, w.1.endMs, w.2⟩

def toRow (idx : ℕ) (s : Segment) : NewSegment where
  idx
  startMs := s.startMs
  endMs := s.endMs
  channel := s.source
  speakerLabel := s.speaker
  text := s.text
  isFinal := true
  words := if s.words.isEmpty then none else some (c.encodeWords s.words)

structure Cleaned where
  model : String
  rows : List NewSegment
  echoes : ℕ
  labelled : Bool
  deriving DecidableEq

def merged (heard : Heard) (channel : Channel) : List TimedWord :=
  ((heard.find? (·.1 == channel)).map fun h => mergeWindows c.unicode h.2).getD []

/-- From the words of every window to the rows of the new version. -/
def assemble (heard : Heard) (speakers : Option (List SpeakerSpan)) : Cleaned :=
  let turns := buildTurns c.unicode (merged c heard .mic) (merged c heard .system) speakers
  let deduped := c.dedupeCrossLeg (sortByKey (·.startMs) (turns.map (toSegment c)))
  { model := if speakers.isSome then "parakeet-unified+diarizer" else "parakeet-unified"
    rows := deduped.1.mapIdx (toRow c)
    echoes := deduped.2
    labelled := speakers.isSome }

def detailOf (notes : List String) : Option String :=
  if notes.isEmpty then none else some ("; ".intercalate notes)

/-- Store the new version. -/
def store (job : PostPassJob) (plan : Plan) (cleaned : Cleaned) (notes : List String) :
    Prog JobState String Outcome := do
  commit io.failsCompletion fun l =>
    l.complete io.newId provider cleaned.model cleaned.rows
      (c.provenanceJson ⟨plan, cleaned.labelled, cleaned.echoes, job.liveTranscriptId⟩)
      (detailOf notes) io.now
  pure (.done io.newId)

/-- Label the speakers and store the new version. -/
def finishJob (job : PostPassJob) (plan : Plan) (units : ℕ) (heard : Heard)
    (progress : Progress) : Prog JobState String Outcome := do
  let speakers ← labelSpeakers c io plan heard progress units
  match speakers with
  | none => pure .stopped
  | some (speakers, notes) => store c io job plan (assemble c heard speakers) notes

variable (tracks : List (Channel × Track σ))

/-- Diarization weighs a fifth of the system channel's windows. -/
def diarizeUnits : ℕ :=
  (((tracks.filter (·.1 == .system)).map fun t => (bounds c plan t.2).length).sum + 4) / 5

def startProgress : Progress :=
  ⟨0, (tracks.map fun t => (bounds c plan t.2).length).sum + diarizeUnits c plan tracks⟩

/-- Hear every window, then finish. -/
def workOn (job : PostPassJob) (plan : Plan) (tracks : List (Channel × Track σ)) :
    Prog JobState String Outcome := do
  let heard ← hearTracks c io plan tracks (startProgress c plan tracks)
  match heard with
  | none => pure .stopped
  | some (heard, progress) => finishJob c io job plan (diarizeUnits c plan tracks) heard progress

def runJob : Prog JobState String Outcome := do
  let job ← Prog.read fun s => okOr s.library.job "this meeting has no cleanup job"
  let plan ← Prog.read fun _ => c.planOf job
  let tracks ← Prog.read fun _ => openTracks c plan [.mic, .system]
  workOn c io job plan tracks

end FlyOnTheWall.PostPass
