/-
  The runtime of one durable source (`failover/stream.rs`).

  A capture pump appends canonical audio, a worker thread reads it back, sends it to the
  cloud or infers locally, commits coverage and publishes events, and a handle on the source
  stops it, times it out or drops it. They share the canonical stream, its published end, two
  flags and the publication gate. The worker is a `Proc`: one step for each access to shared
  state and for each call on the journal, the reader or the recogniser. Everything else that
  can happen is a `Move`.

  What is outside the source comes in through `Setup` (codecs, the engine, the outcome of
  every system call by its number) and through the moves (provider events, the clock, room in
  the cloud queue). Time is in milliseconds. `moved` only decides whether the loop sleeps.
-/
import FlyOnTheWall.Lib.Interleave
import FlyOnTheWall.Failover.CoverageSystem
import FlyOnTheWall.Failover.Endpoint
import FlyOnTheWall.Failover.Policy
import FlyOnTheWall.Pipeline.ReplayRun

namespace FlyOnTheWall.Stream

open Lib Replay Coverage Endpoint Handoff

/-! ## Data -/

/-- `SttErrorClass::is_retryable`. -/
def isRetryable : SttErrorClass → Bool
  | .rateLimit | .concurrency | .network | .server | .sessionLimit => true
  | .auth | .quota | .badRequest | .unsupported | .audioFormat => false

structure SttError extends Handoff.SttError where
  provider : String
  message : String
  retryable : Bool
  detail : Option String
  deriving DecidableEq, Repr

/-- `SttError::new`. -/
def SttError.new (errorClass : SttErrorClass) (provider message : String) : SttError where
  errorClass
  retryAfterMs := none
  provider
  message
  retryable := isRetryable errorClass
  detail := none

def failure (message : String) : SttError := .new .server "handoff" message

/-- `StreamEvent`; an interim text is the source's `Partial`. -/
inductive StreamEvent
  | interim (segment : TranscriptSegment)
  | final (segment : TranscriptSegment)
  | error (error : SttError)
  | state (state : StreamState)
  deriving DecidableEq

inductive Event
  | transcript (event : StreamEvent)
  | providerSwitch (epoch : ProviderEpoch)
  deriving DecidableEq

inductive Phase
  | cloud
  | onDevice
  | complete
  | prefixRecovered
  | incomplete
  deriving DecidableEq, Repr

/-- The fields of `Status` that are kept under the gate; the written sample, the lag and
    `worker_running` are filled in from elsewhere when a snapshot is taken. -/
structure Status where
  phase : Phase
  epoch : ProviderEpoch
  committedSample : ℕ
  error : Option String
  deriving DecidableEq

structure Publication where
  fenced : Bool
  status : Status
  deriving DecidableEq

/-- A published event, and for what the worker emits, the provider epoch it was in. -/
structure Sent where
  event : Event
  epoch : Option ℕ
  deriving DecidableEq

/-- The worker's side of the cloud transport: what the provider has sent and not been taken
    yet, whether the channel is gone, and whether a write would find room. -/
structure Cloud where
  inbox : List StreamEvent
  disconnected : Bool
  room : Bool

structure LocalRuntime where
  factory : Factory
  plan : LocalPlan

/-- What a source is opened with, and the world's answers by the number of the call.
    `errorText` is how an IO error reads, `secondsText` how a number of samples reads in
    seconds with one decimal. -/
structure Setup where
  json : Json
  codec : Codec Coverage.Entry
  sessionId : String
  source : Coverage.Source
  onDevice : Option LocalRuntime
  endpoint : EndpointConfig
  limits : HandoffLimits
  cloudSettleMs : ℕ
  prefixEnd : Option ℕ
  acoustics : Acoustics
  spoken : String → Option String
  ids : ℕ → String
  recognize : ℕ → List Sample → Except SttError (List Recognized)
  journalIo : ℕ → Coverage.Io
  markIo : MarkIo
  errorText : IoError → String
  secondsText : ℕ → String

def Setup.ioFailure (S : Setup) (e : IoError) : SttError := failure (S.errorText e)

structure World (S : Setup) where
  stream : Replay.Stream
  reader : Reader
  endSample : ℕ
  stopRequested : Bool
  inputClosed : Bool
  gate : Publication
  events : List Sent
  -- owned by the worker
  journal : Journal
  journalFile : DurableFile
  cloud : Option Cloud
  cloudCursor : ℕ
  vadCursor : ℕ
  localCursor : ℕ
  localBase : ℕ
  vad : Endpointer S.acoustics
  localEndpoint : Endpointer S.acoustics
  policy : HandoffPolicy
  blockedSince : Option ℕ
  stopSince : Option ℕ
  -- numbers of the next calls, and the clock
  inferences : ℕ
  journalCalls : ℕ
  minted : ℕ
  nowMs : ℕ

variable {S : Setup}

namespace World

variable (w : World S)

/-- What the provider has sent and the worker has not taken yet. -/
def inbox : List StreamEvent := (w.cloud.map (·.inbox)).getD []

/-! ## Publication -/

/-- `Shared::emit`, by the worker in its current epoch. -/
def emit (event : StreamEvent) (w : World S) : World S :=
  if w.gate.fenced then w
  else { w with events := w.events ++ [⟨.transcript event, some w.journal.epoch.number⟩] }

/-- `Shared::terminal`. -/
def terminal (error : Option SttError) (w : World S) : World S :=
  if w.gate.fenced then w
  else
    { w with
      gate := {
        fenced := true
        status := { w.gate.status with
          phase := if error.isSome then .incomplete
            else if S.prefixEnd.isSome then .prefixRecovered else .complete
          error := (error.map (·.message)).or w.gate.status.error } }
      events := w.events ++
        (error.map fun e => (⟨.transcript (.error e), none⟩ : Sent)).toList ++
        [⟨.transcript (.state .closed), none⟩] }

def noteGap (note : String) (w : World S) : World S :=
  if w.gate.fenced then w
  else { w with gate := { w.gate with status := { w.gate.status with error := some note } } }

def commitStatus : World S :=
  if w.gate.fenced then w
  else { w with gate := { w.gate with
    status := { w.gate.status with committedSample := w.journal.committed } } }

/-- The publication of a switch, under the gate. -/
def announce (epoch : ProviderEpoch) (w : World S) : World S :=
  if w.gate.fenced then w
  else
    { w with
      gate := { w.gate with status := { w.gate.status with phase := .onDevice, epoch } }
      events := w.events ++ [⟨.providerSwitch epoch, some epoch.number⟩] }

/-! ## Calls on the journal and the stream -/

/-- The worker's reader sees the file as it is now. -/
def live : Reader :=
  { w.reader with file := w.stream.dir.audio.getD w.reader.file }

/-- A call on the journal. Its reader is the live file, which the call may sync. -/
def onJournal {α : Type} (call : Coverage.Io → Journal.Left → Except IoError α × Journal.Left)
    (w : World S) : Except SttError α × World S :=
  let r := call (S.journalIo w.journalCalls) ⟨w.journal, w.journalFile, w.live⟩
  (r.1.mapError S.ioFailure,
    { w with
      journal := r.2.journal
      journalFile := r.2.file
      stream := { w.stream with dir := { w.stream.dir with audio := some r.2.audio.file } }
      journalCalls := w.journalCalls + 1 })

variable (throughSample : ℕ) (segments : List TranscriptSegment)

/-- The interval a commit of the worker hands in: from what is committed, in the current
    epoch. -/
def handed (gap : Option String) : CommittedAudio :=
  ⟨w.journal.epoch.number, w.journal.committed, throughSample, segments, gap⟩

def journalCommit (w : World S) : Except SttError CommitOutcome × World S :=
  w.onJournal fun io left => Journal.commit S.codec io left w.journal.epoch.number
    w.journal.committed throughSample segments

def journalSkip (throughSample : ℕ) (reason : String) (w : World S) :
    Except SttError CommitOutcome × World S :=
  w.onJournal fun io left => Journal.skip S.codec io left w.journal.epoch.number
    w.journal.committed throughSample reason

def journalSwitch (engine : EngineDescriptor) (reason : SwitchReason) (w : World S) :
    Except SttError ProviderEpoch × World S :=
  w.onJournal fun io left => Journal.switch S.codec io left engine reason

def readPcm (cursor last : ℕ) (w : World S) : Except SttError (List Sample) × World S :=
  ((w.live.readFrom cursor (min (last - cursor) maxReadSamples)).mapError S.ioFailure, w)

def markComplete (last : ℕ) (w : World S) : Except SttError Unit × World S :=
  let r := w.stream.dir.markComplete S.json S.markIo S.sessionId (replaySource S.source) last
  (r.1.mapError S.ioFailure, { w with stream := { w.stream with dir := r.2 } })

end World

/-! ## The worker -/

/-- What a step of the worker touches. -/
inductive Label
  | gate
  | own
  | loadEnd
  | closedTest (last : ℕ)
  | readAudio (cursor last : ℕ)
  | transcribe (chunk : Chunk)
  | commit (throughSample : ℕ) (segments : List TranscriptSegment)
  | skip (throughSample : ℕ) (reason : String)
  | switch (engine : EngineDescriptor) (reason : SwitchReason)
  | markComplete (last : ℕ)

abbrev Worker (S : Setup) := Proc Label (World S) SttError

def fenced : Worker S Bool := .read .gate (·.gate.fenced)

/-- Most calls are refused once the publication is fenced. -/
def unlessFenced (message : String) : Worker S Unit := do
  if ← fenced then .fail (failure message)

theorem unlessFenced_run {w : World S} (message : String)
    (h : w.gate.fenced = false) :
    (unlessFenced message : Worker S Unit).run w = (.ok (), w) := by
  refine (Proc.run_bind_ok (Proc.run_read _ _ _)).trans ?_
  rw [h]
  rfl

def emit (event : StreamEvent) : Worker S Unit := .update .gate (World.emit event)

def commit (throughSample : ℕ) (segments : List TranscriptSegment) : Worker S Unit := do
  unlessFenced "late coverage commit fenced"
  let outcome ← Proc.atomic (.commit throughSample segments)
    (World.journalCommit throughSample segments)
  Proc.update .gate World.commitStatus
  match outcome with
  | .new => Proc.forEach (fun segment => emit (.final segment)) segments
  | .alreadyCommitted => pure ()

/-- The reason of a gap: the error's message and detail, cut to 500 characters. -/
def gapReason (error : SttError) : String :=
  let text := match error.detail with
    | some detail => error.message ++ " (" ++ detail ++ ")"
    | none => error.message
  String.ofList (text.toList.take 500)

def Setup.gapNote (S : Setup) (samples : ℕ) (reason : String) : String :=
  S.secondsText samples ++ " s of speech were not transcribed: " ++ reason ++ "; the audio is kept"

def skip (throughSample samples : ℕ) (error : SttError) : Worker S Unit := do
  unlessFenced "late coverage gap fenced"
  let _ ← Proc.atomic (.skip throughSample (gapReason error))
    (World.journalSkip throughSample (gapReason error))
  Proc.update .gate World.commitStatus
  Proc.update .gate (World.noteGap (S.gapNote samples (gapReason error)))
  emit (.error (.new error.errorClass error.provider (S.gapNote samples (gapReason error))))

/-- The provider id of the speech helper. -/
def speechdProvider : String := "fotw-speechd"

/-- The segments of a recognised chunk and where its commit ends; their identifiers are
    minted here. -/
def World.segments (runtime : LocalRuntime) (chunk : Chunk) (recognized : List Recognized)
    (w : World S) : Except SttError (List TranscriptSegment) × World S :=
  let made := segmentsFor S.spoken S.ids ⟨S.sessionId, S.source, w.localBase / 16⟩
    runtime.factory chunk w.minted recognized
  (.ok made, { w with minted := w.minted + made.length })

def transcribe (chunk : Chunk) : Worker S (Except SttError (List Recognized)) :=
  .atomic (.transcribe chunk) fun w =>
    (.ok (S.recognize w.inferences chunk.samples), { w with inferences := w.inferences + 1 })

def infer (chunk : Chunk) : Worker S Unit := do
  unlessFenced "native inference fenced before entry"
  match ← transcribe chunk with
  | .error error =>
    let base ← Proc.read .own (·.localBase)
    if error.provider = speechdProvider && error.retryable then
      skip (base + chunk.startSample + chunk.samples.length) chunk.samples.length error
    else .fail error
  | .ok recognized =>
    unlessFenced "late native inference fenced"
    match S.onDevice with
    | none => .fail (failure "local inference was not selected")
    | some runtime =>
      let segments ← Proc.atomic .own (World.segments runtime chunk recognized)
      let base ← Proc.read .own (·.localBase)
      commit (base + chunk.startSample + chunk.samples.length) segments

/-- The engine a demotion switches to. -/
def LocalRuntime.engine (runtime : LocalRuntime) : EngineDescriptor where
  provider := runtime.factory.provider
  model := runtime.factory.model
  revision := runtime.plan.engine.revision

variable (w : World S)

/-- The worker starts afresh at the committed boundary. -/
def World.startLocal : World S :=
  { w with
    localBase := w.journal.committed
    localCursor := w.journal.committed
    localEndpoint := .new S.acoustics S.endpoint }

def demoteLocal (reason : SwitchReason) : Worker S Unit :=
  match S.onDevice with
  | none => .fail (failure ("cloud transcription incomplete; original input retained; " ++
      "no local fallback was selected"))
  | some runtime => do
    Proc.update .own fun w => { w with cloud := none }
    let epoch ← Proc.atomic (.switch runtime.engine reason)
      (World.journalSwitch runtime.engine reason)
    Proc.update .own World.startLocal
    Proc.update .gate (World.announce epoch)
    unlessFenced "late native initialization fenced"

def complete (last : ℕ) : Worker S Unit := do
  unlessFenced "source completion requires frozen, fully committed input"
  let closed ← Proc.read .own (·.inputClosed)
  let committed ← Proc.read .own (·.journal.committed)
  if !closed || committed != last then
    .fail (failure "source completion requires frozen, fully committed input")
  else if S.prefixEnd = some last then pure ()
  else Proc.atomic (.markComplete last) (World.markComplete last)

/-! ## The loop -/

inductive Received
  | event (event : StreamEvent)
  | empty
  | disconnected

/-- `try_recv`. -/
def World.receive : Except SttError Received × World S :=
  match w.cloud with
  | none => (.ok .empty, w)
  | some cloud =>
    match cloud.inbox with
    | event :: rest => (.ok (.event event), { w with cloud := some { cloud with inbox := rest } })
    | [] => (.ok (if cloud.disconnected then .disconnected else .empty), w)

/-- What an error of the provider means: the policy's verdict with a fallback, and without
    one only whether it is final. -/
def World.judge (error : SttError) (w : World S) : Except SttError Decision × World S :=
  if S.onDevice.isSome then
    (.ok (w.policy.error w.nowMs error.toSttError).1,
      { w with policy := (w.policy.error w.nowMs error.toSttError).2 })
  else
    (.ok (match error.errorClass with
      | .auth | .quota | .badRequest | .unsupported | .audioFormat => .surface
      | _ => .keepCloud), w)

def World.confirmedFinal : World S :=
  { w with policy := w.policy.confirmedFinal w.vad.voicedSamples }

/-- A final of the provider. -/
def cloudFinal (segment : TranscriptSegment) : Worker S Unit := do
  match checkedMul segment.endMs 16 with
  | none => .fail (failure "provider clock overflow")
  | some through =>
    let committed ← Proc.read .own (·.journal.committed)
    if committed < through then do
      commit through [segment]
      Proc.update .own World.confirmedFinal
    else pure ()

/-- One event of the provider; `false` ends the reading of events. -/
def cloudEvent : StreamEvent → Worker S Bool
  | .final segment => do
    cloudFinal segment
    pure true
  | .error error => do
    let decision ← Proc.atomic .own (World.judge error)
    match decision with
    | .surface => .fail error
    | .keepCloud => do
      emit (.error error)
      pure true
    | .switch reason => do
      emit (.error error)
      demoteLocal reason
      pure false
  | .state .closed => do
    demoteLocal .transportBudget
    pure false
  | .state state => do
    Proc.update .own fun w => { w with policy := w.policy.state w.nowMs state }
    emit (.state state)
    pure true
  | .interim segment => do
    emit (.interim segment)
    pure true

/-- At most `count` events of the provider. -/
def cloudEvents : ℕ → Worker S Unit
  | 0 => pure ()
  | count + 1 => do
    match ← Proc.atomic .own World.receive with
    | .empty => pure ()
    | .disconnected => demoteLocal .transportBudget
    | .event event =>
      if ← cloudEvent event then cloudEvents count else pure ()

def readPcm (cursor last : ℕ) : Worker S (List Sample) :=
  .atomic (.readAudio cursor last) (World.readPcm cursor last)

def onCloud : Worker S Bool := .read .own (·.cloud.isSome)

def whileCloud (p : Worker S Unit) : Worker S Unit := do
  if ← onCloud then p else pure ()

/-- The speech counter of a cloud source. -/
def hear (last : ℕ) : Worker S Unit := do
  let cursor ← Proc.read .own (·.vadCursor)
  if cursor < last then do
    let pcm ← readPcm cursor last
    Proc.update .own fun w =>
      { w with vadCursor := w.vadCursor + pcm.length, vad := (w.vad.push pcm).2 }
  else pure ()

def World.tick : Except SttError Decision × World S :=
  (.ok (w.policy.tick w.nowMs w.vad.voicedSamples).1,
    { w with policy := (w.policy.tick w.nowMs w.vad.voicedSamples).2 })

/-- The policy's tick, if there is a fallback to switch to. -/
def tick : Worker S Unit :=
  if S.onDevice.isSome then do
    match ← Proc.atomic .own World.tick with
    | .switch reason => demoteLocal reason
    | .keepCloud | .surface => pure ()
  else pure ()

def listen (last : ℕ) : Worker S Unit := do
  hear last
  tick

/-- Whether the cloud has been without room for the whole retry budget. -/
def World.blocked : Except SttError Bool × World S :=
  let since := w.blockedSince.getD w.nowMs
  (.ok (S.limits.retryBudgetMs ≤ w.nowMs - since), { w with blockedSince := some since })

/-- No room: with a fallback the budget runs. -/
def block : Worker S Unit :=
  if S.onDevice.isSome then do
    if ← Proc.atomic .own World.blocked then demoteLocal .transportBudget else pure ()
  else pure ()

/-- The next audio goes to the cloud, if there is room. -/
def feed (last : ℕ) : Worker S Unit := do
  let cursor ← Proc.read .own (·.cloudCursor)
  if cursor < last then do
    let pcm ← readPcm cursor last
    if ← Proc.read .own (·.cloud.any (·.room)) then
      Proc.update .own fun w =>
        { w with cloudCursor := w.cloudCursor + pcm.length, blockedSince := none }
    else block
  else pure ()

inductive Control
  | again
  | completed
  deriving DecidableEq, Repr

/-- Since when the source has been stopping. -/
def World.settling : Except SttError Bool × World S :=
  let since := w.stopSince.getD w.nowMs
  (.ok (S.cloudSettleMs ≤ w.nowMs - since), { w with stopSince := some since })

/-- A closed cloud source: it completes at full coverage, and goes local with its tail after
    the settling time. -/
def cloudStop (last : ℕ) : Worker S Control := do
  let committed ← Proc.read .own (·.journal.committed)
  if committed = last then do
    complete last
    pure .completed
  else do
    if ← Proc.atomic .own World.settling then do
      demoteLocal .finishingTail
      pure .again
    else pure .again

/-- The cloud's part of a pass: `completed` if the source is done. -/
def cloudPass (last : ℕ) : Worker S Control := do
  feed last
  if ← onCloud then do
    if ← Proc.read (.closedTest last) (·.inputClosed) then cloudStop last else pure .again
  else pure .again

/-- What the endpointer has let go of is committed. -/
def commitSafe : Worker S Unit := do
  let safe ← Proc.read .own fun w => w.localBase + w.localEndpoint.safeThroughSample
  let committed ← Proc.read .own (·.journal.committed)
  if committed < safe then commit safe [] else pure ()

def World.pushLocal (pcm : List Sample) (w : World S) : Except SttError (List Chunk) × World S :=
  (.ok (w.localEndpoint.push pcm).1,
    { w with
      localCursor := w.localCursor + pcm.length
      localEndpoint := (w.localEndpoint.push pcm).2 })

/-- Audio goes through the endpointer; what it completes is inferred. -/
def localAudio (last : ℕ) : Worker S Unit := do
  let cursor ← Proc.read .own (·.localCursor)
  if cursor < last then do
    let pcm ← readPcm cursor last
    let chunks ← Proc.atomic .own (World.pushLocal pcm)
    Proc.forEach infer chunks
    commitSafe
  else pure ()

def World.flushLocal : Except SttError (Option Chunk) × World S :=
  (.ok w.localEndpoint.flush.1, { w with localEndpoint := w.localEndpoint.flush.2 })

variable (last : ℕ)

/-- Silence after the last utterance. -/
def commitRest : Worker S Unit := do
  let committed ← Proc.read .own (·.journal.committed)
  if committed < last then commit last [] else pure ()

/-- The tail of a closed source. -/
def localTail : Worker S Unit := do
  let chunk ← Proc.atomic .own World.flushLocal
  Proc.forEach infer chunk.toList
  commitRest last
  complete last

def localPass : Worker S Control := do
  localAudio last
  if ← Proc.read (.closedTest last) (·.inputClosed) then do
    let cursor ← Proc.read .own (·.localCursor)
    if cursor = last then do
      localTail last
      pure .completed
    else pure .again
  else pure .again

/-- A pass's cloud part, on a cloud source, and its local part, on what then is a local one. -/
def serve : Worker S Control := do
  if ← onCloud then do
    match ← cloudPass last with
    | .completed => pure .completed
    | .again => do if ← onCloud then pure .again else localPass last
  else localPass last

/-- One pass of `Worker::run`. -/
def pass : Worker S Control := do
  unlessFenced "source publication fenced"
  whileCloud (cloudEvents 64)
  let last ← Proc.read .loadEnd (·.endSample)
  whileCloud (listen last)
  serve last

/-- The worker thread around the loop: a pass that ends the run is followed by the terminal
    publication. `false` once the thread is done. -/
def thread : Worker S Bool := do
  match ← pass.attempt with
  | .ok .again => pure true
  | .ok .completed => do
    Proc.update .gate (World.terminal none)
    pure false
  | .error error => do
    Proc.update .gate (World.terminal (some error))
    pure false

/-- The thread of a live local source loads its model first. -/
def liveThread (load : Except SttError Unit) : Worker S Bool := do
  emit (.state .connecting)
  match load with
  | .error error => do
    Proc.update .gate (World.terminal (some error))
    pure false
  | .ok () => do
    emit (.state .open)
    pure true

def again (running : Bool) : Option (Worker S Bool) := if running then some thread else none

/-! ## Everybody else -/

/-- What the pump, the handle, the provider and the clock can do between two steps of the
    worker. A failed write, a failed seal, the drain deadline and a dropped handle all end in
    `terminal`. -/
inductive Move
  | append (io : AppendIo) (pcm : List Sample)
  | sync (synced : Bool)
  | storeEnd
  | requestStop
  | sealInput (io : MarkIo)
  | closeInput
  | terminal (error : SttError)
  | provider (event : StreamEvent)
  | disconnect
  | room (free : Bool)
  | clock (elapsedMs : ℕ)

/-- A move of the pump is under the writer's lock, and refused once a stop was asked for. -/
def World.move : Move → Option (World S)
  | .append io pcm =>
    if w.stopRequested then none else some { w with stream := (w.stream.append io pcm).2 }
  | .sync synced => w.stream.owner.map fun owner =>
      { w with stream := (w.stream.syncAs owner synced).2 }
  | .storeEnd => w.stream.owner.map fun owner => { w with endSample := owner.endSample }
  | .requestStop => some { w with stopRequested := true }
  | .sealInput io =>
    some { w with stream := (w.stream.sealStream S.json io (replaySource S.source)).2 }
  | .closeInput => some { w with inputClosed := true }
  | .terminal error => some (w.terminal (some error))
  | .provider event => w.cloud.map fun cloud =>
      { w with cloud := some { cloud with inbox := cloud.inbox ++ [event] } }
  | .disconnect => w.cloud.map fun cloud =>
      { w with cloud := some { cloud with disconnected := true } }
  | .room free => w.cloud.map fun cloud => { w with cloud := some { cloud with room := free } }
  | .clock elapsedMs => some { w with nowMs := w.nowMs + elapsedMs }

/-! ## A small source

    A source with a local engine to fall back to, that hears only silence. Its journal lines
    are those of the small recording of `Coverage`, and one for two samples of silence. -/

def sampleText : Codec Coverage.Entry where
  toVec e := (((sampleLines ++ [silentLine]).find? (·.1 == e)).map (·.2)).getD []
  fromSlice line := ((sampleLines ++ [silentLine]).find? (·.2 ++ [newline] == line)).map (·.1)
where
  silentLine : Coverage.Entry × List UInt8 :=
    (.committed ⟨0, 0, 2, [], none⟩, utf8 (
      "\x7b\"kind\":\"committed\",\"commit\":\x7b\"epoch\":0,\"from_sample\":0," ++
      "\"through_sample\":2,\"segments\":[]\x7d\x7d"))

def silentAcoustics : Acoustics where
  Level := Unit
  Gate := Unit
  start := ()
  levelDb _ := ()
  hear _ _ := (⟨false, false⟩, ())
  louder _ _ := ()
  quieter _ _ := ()
  swings _ _ := false

def sampleEndpoint : EndpointConfig where
  frameMs := 1
  prerollMs := 0
  hangoverMs := 1
  minSpeechMs := 0
  softMaxMs := 1000
  hardMaxMs := 1000
  marginDb := .finite 6
  speechFloorDb := .finite (-50)
  floorWindowMs := 1000
  minRangeDb := .finite 0

def sampleRuntime : LocalRuntime where
  factory := ⟨"whispercpp", "base.en", none⟩
  plan := ⟨sampleLocal, none, sampleEndpoint⟩

def sampleSetup : Setup where
  json := Replay.sampleJson
  codec := sampleText
  sessionId := "s"
  source := .system
  onDevice := some sampleRuntime
  endpoint := sampleEndpoint
  limits := .default
  cloudSettleMs := 2000
  prefixEnd := none
  acoustics := silentAcoustics
  spoken := some
  ids n := String.ofList (List.replicate (n + 1) 'u')
  recognize _ _ := .ok []
  journalIo _ := .good
  markIo := ⟨true, true, .done⟩
  errorText
    | .invalidData message => message
    | _ => "input/output error"
  secondsText samples := toString (samples / 16000)

/-- The small source once its journal has gone local. -/
def localHeader : Coverage.Header := ⟨1, "s", .system, 0, sampleLocal, none⟩

/-- A source as it is launched over what was captured so far, on the cloud or local. -/
def sampleWorld (S : Setup) (header : Coverage.Header) (pcm : List Sample)
    (cloud : Option Cloud) : World S :=
  let file := (DurableFile.empty.write (sampleAudioHeader ++ encodePcm pcm)).sync
  { stream := ⟨⟨some file, none, none, none, none⟩, some ⟨"s", pcm.length, false, false, false⟩⟩
    reader := ⟨⟨"s", .system, 16000, 0, none⟩, 85, file⟩
    endSample := pcm.length
    stopRequested := false
    inputClosed := false
    gate := ⟨false, ⟨if cloud.isSome then .cloud else .onDevice, initialEpoch header, 0, none⟩⟩
    events := []
    journal := .fromHeader header
    journalFile := .empty
    cloud
    cloudCursor := 0
    vadCursor := 0
    localCursor := 0
    localBase := 0
    vad := .new S.acoustics S.endpoint
    localEndpoint := .new S.acoustics S.endpoint
    policy := .new .default
    blockedSince := none
    stopSince := none
    inferences := 0
    journalCalls := 0
    minted := 0
    nowMs := 0 }

/-- Play a schedule of the source's thread and of everybody else. -/
def World.play (p : Worker S Bool) (turns : List (Turn Move)) : Option (World S × Worker S Bool) :=
  Lib.play (fun move w => w.move move) (fun _ _ => true) again turns (w, p)

end FlyOnTheWall.Stream
