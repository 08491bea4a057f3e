/-
  The capture clock of a recording (`checkpoint_capture` of `fotw-pipeline/src/wal.rs` and
  `fotw-pipeline/src/capture_clock.rs`).

  A live session publishes its elapsed time in `capture-clock.json`: the audio is flushed, a
  temporary file is written and synced, renamed over the old one, and the directory is synced.
  The session keeps the last checkpoint it published in memory and compares the next one with
  it. Recovery reads the file back.

  A checkpoint is read back as it was written, so the file is modelled by its checkpoint; of
  the JSON text only the length is looked at. The failing step of a call is given with it.

  * `Settled`: as long as no checkpoint fails behind its rename, memory and file agree.
  * `clock_upheld`: how the file develops over a run, and what recovery is handed.
-/
import FlyOnTheWall.Pipeline.Wal

namespace FlyOnTheWall.Wal

open Lib Opus

/-! ## Checkpoints and what recovery makes of them -/

structure CaptureCheckpoint where
  schema : ℕ
  sessionId : String
  startedAtMs : ℕ
  elapsedMs : ℕ
  stopRequested : Bool
  systemBytes : ℕ
  micBytes : ℕ
  systemFormat : TrackFormat
  micFormat : Option TrackFormat
  deriving DecidableEq, Repr

structure CaptureSnapshot where
  checkpoint : CaptureCheckpoint
  systemTailBytes : ℕ
  micTailBytes : ℕ
  deriving DecidableEq, Repr

def CaptureSnapshot.frozenCaptureClock (s : CaptureSnapshot) : Option (ℕ × ℕ) :=
  if !s.checkpoint.stopRequested || s.systemTailBytes != 0 || s.micTailBytes != 0 then none
  else
    (checkedAdd s.checkpoint.startedAtMs s.checkpoint.elapsedMs).map
      fun ended => (s.checkpoint.startedAtMs, ended)

/-- The clock file, if it is within the bound. -/
def readClock (jsonLength : CaptureCheckpoint → ℕ) (clock : Option CaptureCheckpoint) :
    Except IoError CaptureCheckpoint := do
  let checkpoint ← okOr clock .notFound
  refuseIf (jsonLength checkpoint > 8192) (invalidIo "capture checkpoint exceeds size bound")
  return checkpoint

/-- What the format allows a leg to hold. -/
def checkTailFormat (count : ℕ) : Option TrackFormat → Except IoError Unit
  | some format =>
    refuseIf (format.sampleRateHz == 0 || format.channels == 0 ||
        count % (format.channels * 2) != 0)
      (invalidIo "invalid checkpoint PCM format or alignment")
  | none => refuseIf (count != 0) (invalidIo "checkpoint audio has no declared format")

/-- Bytes of a leg beyond its checkpoint. A raw leg that is gone needs a complete archive. -/
def tail {σ δ : Type} (lib : Libopus σ δ) (dir : SessionDir) (leg : Leg) (count : ℕ)
    (format : Option TrackFormat) (encoded : Option EncodedTrack) : Except IoError ℕ := do
  checkTailFormat count format
  match dir.pcm leg with
  | some (.file contents) =>
    okOr (checkedSub contents.bytes.length count)
      (invalidIo "checkpointed audio has been truncated")
  | some (.other _) => .error (invalidIo "capture evidence must be an ordinary file")
  | none =>
    let track ← okOr encoded (invalidIo "retired PCM has no completed archive")
    refuseIf (track.pcmBytes != count) (invalidIo "archive does not match checkpointed source")
    verifyEncodedTrack lib dir.archives leg track format
    return 0

/-- A session directory as recovery finds it: its name, the start in its manifest, and the
    files. -/
structure Evidence where
  name : Option String
  startedAtMs : ℕ
  dir : SessionDir

def snapshot {σ δ : Type} (lib : Libopus σ δ) (jsonLength : CaptureCheckpoint → ℕ)
    (found : Evidence) (clock : Option CaptureCheckpoint) : Except IoError CaptureSnapshot := do
  let checkpoint ← readClock jsonLength clock
  let manifest ← readManifest found.dir
  refuseIf (checkpoint.schema != 1 || checkpoint.sessionId != manifest.id ||
      found.name != some checkpoint.sessionId || checkpoint.startedAtMs != found.startedAtMs ||
      some checkpoint.systemFormat != manifest.systemFormat ||
      checkpoint.micFormat != manifest.micFormat ||
      (checkedAdd checkpoint.startedAtMs checkpoint.elapsedMs).isNone)
    (invalidIo "capture checkpoint does not match original manifest")
  let systemTailBytes ← tail lib found.dir .system checkpoint.systemBytes
    (some checkpoint.systemFormat) (manifest.encoded.map (·.system))
  let micTailBytes ← tail lib found.dir .mic checkpoint.micBytes checkpoint.micFormat
    (manifest.encoded.map (·.mic))
  return ⟨checkpoint, systemTailBytes, micTailBytes⟩

/-! ## The live session -/

/-- A session that is being written: what its manifest declares, the two raw legs with what is
    still buffered for them, the last checkpoint it knows to be published, and the clock file
    with its temporary. -/
structure SessionWal where
  id : String
  startedAtMs : ℕ
  systemFormat : TrackFormat
  micFormat : Option TrackFormat
  files : Leg → DurableFile
  buffered : Leg → List UInt8
  captureCheckpoint : Option CaptureCheckpoint
  clock : Option CaptureCheckpoint
  temporary : Bool

/-- The step of a publication that fails, if any. -/
inductive PublishIo
  | remove
  | create
  | write
  | sync
  | rename
  | directory
  | done
  deriving DecidableEq, Repr

/-- Outcomes for a checkpoint: of the two legs the number of bytes after which a flush fails
    and the sync, then the transcript file, the file lengths and the publication. -/
structure CheckpointIo where
  write : Leg → Option ℕ
  sync : Leg → Bool
  stt : Bool
  metadata : Bool
  publish : PublishIo

namespace SessionWal

/-- `create_with_formats`, before its first checkpoint. -/
def created (id : String) (startedAtMs : ℕ) (systemFormat : TrackFormat)
    (micFormat : Option TrackFormat) : SessionWal where
  id
  startedAtMs
  systemFormat
  micFormat
  files _ := .empty
  buffered _ := []
  captureCheckpoint := none
  clock := none
  temporary := false

variable (w : SessionWal)

/-- Bytes for a leg; the buffer passes some of them on. -/
def write (leg : Leg) (bytes : List UInt8) (spilled : ℕ) : SessionWal :=
  { w with
    files := fun l => if l = leg then (w.files l).write ((w.buffered l ++ bytes).take spilled)
      else w.files l
    buffered := fun l => if l = leg then (w.buffered l ++ bytes).drop spilled else w.buffered l }

variable (io : CheckpointIo)

/-- `flush` and `sync_data` of one leg. -/
def flushLeg (leg : Leg) (w : SessionWal) : Except IoError Unit × SessionWal :=
  let written := (w.files leg).writeAll (w.buffered leg) (io.write leg)
  let w' := { w with
    files := fun l => if l = leg then
      (if written.2 && io.sync leg then written.1.sync else written.1) else w.files l
    buffered := fun l => if l = leg then
      (w.buffered l).drop (written.1.bytes.length - (w.files l).bytes.length) else w.buffered l }
  (refuseIf (!(written.2 && io.sync leg)) .other, w')

def flush (w : SessionWal) : Except IoError Unit × SessionWal :=
  match flushLeg io .system w with
  | (.error e, w) => (.error e, w)
  | (.ok (), w) =>
    match flushLeg io .mic w with
    | (.error e, w) => (.error e, w)
    | (.ok (), w) => (refuseIf (!io.stt) .other, w)

/-- `CaptureOwner::publish`. -/
def publish (io : PublishIo) (w : SessionWal) (checkpoint : CaptureCheckpoint) :
    Except IoError Unit × SessionWal :=
  match io with
  | .remove => (.error .other, w)
  | .create => (.error .other, { w with temporary := false })
  | .write | .sync | .rename => (.error .other, { w with temporary := true })
  | .directory => (.error .other, { w with temporary := false, clock := some checkpoint })
  | .done => (.ok (), { w with temporary := false, clock := some checkpoint })

def aligned (bytes : ℕ) : Option TrackFormat → Bool
  | none => bytes == 0
  | some f => f.channels > 0 && f.sampleRateHz > 0 && bytes % (f.channels * 2) == 0

/-- The first Stop that is known to be published. -/
def frozen : Option CaptureCheckpoint :=
  w.captureCheckpoint.filter (·.stopRequested)

variable (elapsedMs : ℕ) (stopRequested : Bool)

/-- The elapsed time a checkpoint is taken at, if it is allowed. -/
def admitElapsed : Except IoError ℕ := do
  let elapsed := w.frozen.elim elapsedMs (·.elapsedMs)
  refuseIf ((checkedAdd w.startedAtMs elapsed).isNone ||
      (!stopRequested && w.captureCheckpoint.any fun p => elapsed < p.elapsedMs))
    (invalidIo "capture clock overflow or regression")
  return elapsed

/-- The checkpoint of the flushed files. -/
def checkpointAt : CaptureCheckpoint where
  schema := 1
  sessionId := w.id
  startedAtMs := w.startedAtMs
  elapsedMs
  stopRequested
  systemBytes := (w.files .system).bytes.length
  micBytes := (w.files .mic).bytes.length
  systemFormat := w.systemFormat
  micFormat := w.micFormat

def checkAligned (c : CaptureCheckpoint) : Except IoError Unit :=
  refuseIf (!aligned c.systemBytes (some c.systemFormat) || !aligned c.micBytes c.micFormat)
    (invalidIo "capture checkpoint has invalid PCM format or alignment")

/-- The checkpoint in memory follows a publication that was reported as complete. -/
def checkpointCapture (w : SessionWal) (elapsedMs : ℕ)
    (stopRequested : Bool) : Except IoError Unit × SessionWal :=
  match w.admitElapsed elapsedMs stopRequested with
  | .error e => (.error e, w)
  | .ok elapsed =>
    let stop := stopRequested || w.frozen.isSome
    match w.flush io with
    | (.error e, w) => (.error e, w)
    | (.ok (), w) =>
      let checkpoint := w.checkpointAt elapsed stop
      match (do
          refuseIf (!io.metadata) IoError.other
          checkAligned checkpoint) with
      | .error e => (.error e, w)
      | .ok () =>
        match w.publish io.publish checkpoint with
        | (.error e, w) => (.error e, w)
        | (.ok (), w) => (.ok (), { w with captureCheckpoint := some checkpoint })

end SessionWal

/-! ## Runs -/

inductive CaptureEvent
  | write (leg : Leg) (bytes : List UInt8) (spilled : ℕ)
  | checkpoint (io : CheckpointIo) (elapsedMs : ℕ) (stopRequested : Bool)

/-- No checkpoint that has been renamed into place is reported as failed. -/
def CaptureEvent.settles : CaptureEvent → Bool
  | .write _ _ _ => true
  | .checkpoint io _ _ => io.publish != .directory

def SessionWal.step (w : SessionWal) : CaptureEvent → SessionWal
  | .write leg bytes spilled => w.write leg bytes spilled
  | .checkpoint io elapsedMs stopRequested => (w.checkpointCapture io elapsedMs stopRequested).2

def SessionWal.run (w : SessionWal) (events : List CaptureEvent) : SessionWal :=
  events.foldl SessionWal.step w

/-! ## One checkpoint -/

/-- The clock file, the memory of it and the start of the recording. -/
structure SessionWal.SameClock (w w' : SessionWal) : Prop where
  clock : w'.clock = w.clock
  memory : w'.captureCheckpoint = w.captureCheckpoint
  started : w'.startedAtMs = w.startedAtMs

variable {w : SessionWal}

theorem SessionWal.SameClock.trans {w' w'' : SessionWal} (h : w.SameClock w')
    (h' : w'.SameClock w'') : w.SameClock w'' :=
  ⟨h'.clock.trans h.clock, h'.memory.trans h.memory, h'.started.trans h.started⟩

theorem SessionWal.flushLeg_sameClock (io : CheckpointIo) (leg : Leg) (w : SessionWal) :
    w.SameClock (w.flushLeg io leg).2 := ⟨rfl, rfl, rfl⟩

theorem SessionWal.flush_sameClock (io : CheckpointIo) (w : SessionWal) :
    w.SameClock (w.flush io).2 := by
  have hsystem := w.flushLeg_sameClock io .system
  unfold SessionWal.flush
  split
  · next heq =>
    rwa [heq] at hsystem
  · next w' heq =>
    rw [heq] at hsystem
    have hmic := w'.flushLeg_sameClock io .mic
    split
    · next heq =>
      rw [heq] at hmic
      exact hsystem.trans hmic
    · next heq =>
      rw [heq] at hmic
      exact hsystem.trans hmic

/-- What a checkpoint publishes, compared with what the session remembers. -/
structure Admitted (w : SessionWal) (elapsedMs : ℕ) (stopRequested : Bool)
    (c : CaptureCheckpoint) : Prop where
  started : c.startedAtMs = w.startedAtMs
  stop : c.stopRequested = (stopRequested || w.frozen.isSome)
  elapsed : c.elapsedMs = w.frozen.elim elapsedMs (·.elapsedMs)
  live : stopRequested = false → ∀ p, w.captureCheckpoint = some p → p.elapsedMs ≤ c.elapsedMs

/-- A checkpoint fails and leaves the clock alone, is published, or fails behind its rename. -/
theorem SessionWal.checkpointCapture_cases (io : CheckpointIo) (w : SessionWal) (elapsedMs : ℕ)
    (stopRequested : Bool) :
    (w.SameClock (w.checkpointCapture io elapsedMs stopRequested).2 ∧
        ∃ e, (w.checkpointCapture io elapsedMs stopRequested).1 = .error e) ∨
      ∃ c, Admitted w elapsedMs stopRequested c ∧
        (w.checkpointCapture io elapsedMs stopRequested).2.clock = some c ∧
        (w.checkpointCapture io elapsedMs stopRequested).2.startedAtMs = w.startedAtMs ∧
        (io.publish ≠ .directory →
          (w.checkpointCapture io elapsedMs stopRequested).2.captureCheckpoint = some c) := by
  unfold SessionWal.checkpointCapture
  split
  · exact .inl ⟨⟨rfl, rfl, rfl⟩, _, rfl⟩
  rename_i elapsed hadmit
  obtain ⟨hlive, hadmit⟩ := refuseIf_bind_ok.mp hadmit
  cases hadmit
  have hflush := w.flush_sameClock io
  dsimp only
  split
  · next heq =>
    rw [heq] at hflush
    exact .inl ⟨hflush, _, rfl⟩
  · next w' heq =>
    rw [heq] at hflush
    split
    · exact .inl ⟨hflush, _, rfl⟩
    have hadmitted : Admitted w elapsedMs stopRequested
        (w'.checkpointAt (w.frozen.elim elapsedMs (·.elapsedMs))
          (stopRequested || w.frozen.isSome)) := by
      refine ⟨hflush.started, rfl, rfl, fun hstop p hp => ?_⟩
      rw [hstop, hp] at hlive
      simp only [Bool.or_eq_false_iff, Bool.not_false, Bool.true_and, Option.any_some,
        decide_eq_false_iff_not, not_lt] at hlive
      exact hlive.2
    cases io.publish with
    | remove | create | write | sync | rename =>
      exact .inl ⟨hflush.trans ⟨rfl, rfl, rfl⟩, _, rfl⟩
    | directory => exact .inr ⟨_, hadmitted, rfl, hflush.started, fun h => absurd rfl h⟩
    | done => exact .inr ⟨_, hadmitted, rfl, hflush.started, fun _ => rfl⟩

/-! ## Over a run -/

/-- The memory of the session is what is in the file. -/
def SessionWal.Settled (w : SessionWal) : Prop :=
  w.clock = w.captureCheckpoint ∧ ∀ c, w.clock = some c → c.startedAtMs = w.startedAtMs

/-- A later checkpoint of the same recording: a live clock has not gone back, and a stopped one
    has not moved. -/
structure Follows (c c' : CaptureCheckpoint) : Prop where
  started : c'.startedAtMs = c.startedAtMs
  live : c'.stopRequested = false → c.elapsedMs ≤ c'.elapsedMs
  stopped : c.stopRequested = true → c'.stopRequested = true ∧ c'.elapsedMs = c.elapsedMs

theorem Follows.refl (c : CaptureCheckpoint) : Follows c c :=
  ⟨rfl, fun _ => le_rfl, fun h => ⟨h, rfl⟩⟩

variable {c : CaptureCheckpoint}

theorem Follows.trans {a b : CaptureCheckpoint} (hab : Follows a b) (hbc : Follows b c) :
    Follows a c := by
  refine ⟨hbc.started.trans hab.started, fun hc => ?_, fun ha => ?_⟩
  · have hb : b.stopRequested = false := by
      cases hb : b.stopRequested with
      | false => rfl
      | true =>
        rw [(hbc.stopped hb).1] at hc
        cases hc
    exact le_trans (hab.live hb) (hbc.live hc)
  · obtain ⟨hb, hbe⟩ := hab.stopped ha
    obtain ⟨hc, hce⟩ := hbc.stopped hb
    exact ⟨hc, hce.trans hbe⟩

open SessionWal

/-- What is published follows what the session remembers. -/
theorem Admitted.follows {elapsedMs : ℕ} {stopRequested : Bool} {p : CaptureCheckpoint}
    (h : Admitted w elapsedMs stopRequested c) (hp : w.captureCheckpoint = some p)
    (hstart : p.startedAtMs = w.startedAtMs) : Follows p c := by
  refine ⟨h.started.trans hstart.symm, fun hc => ?_, fun hstop => ?_⟩
  · have hlive := h.stop.symm.trans hc
    rw [Bool.or_eq_false_iff] at hlive
    exact h.live hlive.1 p hp
  · have hfrozen : w.frozen = some p := by
      rw [frozen, hp, Option.filter_some, hstop]
      rfl
    have hc := h.stop
    have he := h.elapsed
    rw [hfrozen] at hc he
    exact ⟨hc.trans (Bool.or_true _), he⟩

theorem SessionWal.step_settled (h : w.Settled) {e : CaptureEvent} (he : e.settles = true) :
    (w.step e).Settled ∧
      ∀ c, w.clock = some c → ∃ c', (w.step e).clock = some c' ∧ Follows c c' := by
  cases e with
  | write leg bytes spilled => exact ⟨h, fun c hc => ⟨c, hc, .refl c⟩⟩
  | checkpoint io elapsedMs stopRequested =>
    have hio : io.publish ≠ .directory := by simpa [CaptureEvent.settles] using he
    rcases w.checkpointCapture_cases io elapsedMs stopRequested with
      ⟨hsame, -⟩ | ⟨c', hadmitted, hclock, hstarted, hmemory⟩
    · refine ⟨⟨?_, fun c hc => ?_⟩, fun c hc => ⟨c, hsame.clock.trans hc, .refl c⟩⟩
      · exact hsame.clock.trans (h.1.trans hsame.memory.symm)
      · exact (h.2 c (hsame.clock.symm.trans hc)).trans hsame.started.symm
    · refine ⟨⟨hclock.trans (hmemory hio).symm, fun c hc => ?_⟩, fun c hc => ⟨c', hclock, ?_⟩⟩
      · obtain rfl := Option.mem_unique hclock hc
        exact hadmitted.started.trans hstarted.symm
      · exact hadmitted.follows (h.1.symm.trans hc) (h.2 c hc)

theorem SessionWal.run_settled (h : w.Settled) (events : List CaptureEvent)
    (he : ∀ e ∈ events, e.settles = true) :
    (w.run events).Settled ∧
      ∀ c, w.clock = some c → ∃ c', (w.run events).clock = some c' ∧ Follows c c' := by
  induction events generalizing w with
  | nil => exact ⟨h, fun c hc => ⟨c, hc, .refl c⟩⟩
  | cons e events ih =>
    obtain ⟨he, hrest⟩ := List.forall_mem_cons.mp he
    obtain ⟨hstep, hfollows⟩ := step_settled h he
    obtain ⟨hrun, hlater⟩ := ih hstep hrest
    refine ⟨hrun, fun c hc => ?_⟩
    obtain ⟨c', hc', hcc'⟩ := hfollows c hc
    obtain ⟨c'', hc'', hcc''⟩ := hlater c' hc'
    exact ⟨c'', hc'', hcc'.trans hcc''⟩

theorem SessionWal.created_settled (id : String) (startedAtMs : ℕ) (systemFormat : TrackFormat)
    (micFormat : Option TrackFormat) :
    (created id startedAtMs systemFormat micFormat).Settled := ⟨rfl, nofun⟩

variable {jsonLength : CaptureCheckpoint → ℕ} {clock : Option CaptureCheckpoint}

theorem readClock_eq_ok (h : readClock jsonLength clock = .ok c) : clock = some c := by
  obtain ⟨c', hclock, h⟩ := bind_eq_ok.mp h
  obtain ⟨_, h⟩ := bind_rest h
  cases h
  exact okOr_eq_ok.mp hclock

variable {snap : CaptureSnapshot}

/-- Recovery hands out the checkpoint in the file. -/
theorem snapshot_checkpoint {σ δ : Type} {lib : Libopus σ δ} {found : Evidence}
    (h : snapshot lib jsonLength found clock = .ok snap) : clock = some snap.checkpoint := by
  obtain ⟨c, hclock, h⟩ := bind_eq_ok.mp h
  obtain ⟨manifest, -, h⟩ := bind_eq_ok.mp h
  obtain ⟨_, h⟩ := bind_rest h
  obtain ⟨systemTail, -, h⟩ := bind_eq_ok.mp h
  obtain ⟨micTail, -, h⟩ := bind_eq_ok.mp h
  cases h
  exact readClock_eq_ok hclock

theorem frozenCaptureClock_eq_some {final : ℕ × ℕ} (h : snap.frozenCaptureClock = some final) :
    final = (snap.checkpoint.startedAtMs,
      snap.checkpoint.startedAtMs + snap.checkpoint.elapsedMs) := by
  unfold CaptureSnapshot.frozenCaptureClock at h
  split at h
  · cases h
  · obtain ⟨ended, hended, hfinal⟩ := Option.map_eq_some_iff.mp h
    rw [← hfinal, ← (checkedAdd_eq_some.mp hended).2]

/-- What holds between two points of a recording. -/
structure ClockUpheld (jsonLength : CaptureCheckpoint → ℕ) (w w' : SessionWal) : Prop where
  follows : ∀ c c', readClock jsonLength w.clock = .ok c →
    readClock jsonLength w'.clock = .ok c' → Follows c c'
  accepted : ∀ io elapsedMs, (w.checkpointCapture io elapsedMs true).1 = .ok () →
    ∃ c, (w.checkpointCapture io elapsedMs true).2.clock = some c ∧ c.stopRequested = true ∧
      c.elapsedMs = w.frozen.elim elapsedMs (·.elapsedMs)
  final : ∀ c, readClock jsonLength w.clock = .ok c → c.stopRequested = true →
    ∀ (σ δ : Type) (lib : Libopus σ δ) (found : Evidence) (snap : CaptureSnapshot)
      (final : ℕ × ℕ), snapshot lib jsonLength found w'.clock = .ok snap →
      snap.frozenCaptureClock = some final →
      final = (w.startedAtMs, w.startedAtMs + c.elapsedMs)

/-- In a recording none of whose checkpoints fails behind its rename: the live clock in the file
    never goes back, the first Stop that is accepted is published with its own time, and from
    then on the file and what recovery hands out stay at that time. -/
theorem clock_upheld (jsonLength : CaptureCheckpoint → ℕ) (id : String) (startedAtMs : ℕ)
    (systemFormat : TrackFormat) (micFormat : Option TrackFormat)
    (earlier later : List CaptureEvent) (hsettles : ∀ e ∈ earlier ++ later, e.settles = true) :
    ClockUpheld jsonLength
      ((SessionWal.created id startedAtMs systemFormat micFormat).run earlier)
      ((SessionWal.created id startedAtMs systemFormat micFormat).run (earlier ++ later)) := by
  have hrun : (created id startedAtMs systemFormat micFormat).run (earlier ++ later) =
      ((created id startedAtMs systemFormat micFormat).run earlier).run later :=
    List.foldl_append
  obtain ⟨hsettled, -⟩ := run_settled
    (created_settled id startedAtMs systemFormat micFormat) earlier
    fun e he => hsettles e (List.mem_append_left _ he)
  generalize (created id startedAtMs systemFormat micFormat).run earlier = w at *
  obtain ⟨-, hfollows⟩ := run_settled hsettled later
    fun e he => hsettles e (List.mem_append_right _ he)
  rw [hrun]
  refine ⟨fun c c' hc hc' => ?_, fun io elapsedMs hok => ?_, ?_⟩
  · obtain ⟨c'', hclock, hfollow⟩ := hfollows c (readClock_eq_ok hc)
    obtain rfl := Option.some.inj (hclock.symm.trans (readClock_eq_ok hc'))
    exact hfollow
  · rcases w.checkpointCapture_cases io elapsedMs true with
      ⟨-, e, herror⟩ | ⟨c, hadmitted, hclock, -, -⟩
    · cases herror.symm.trans hok
    · exact ⟨c, hclock, hadmitted.stop.trans (Bool.true_or _), hadmitted.elapsed⟩
  · intro c hc hstop σ δ lib found snap final hsnap hfinal
    obtain ⟨c', hclock, hfollow⟩ := hfollows c (readClock_eq_ok hc)
    obtain rfl := Option.some.inj (hclock.symm.trans (snapshot_checkpoint hsnap))
    rw [frozenCaptureClock_eq_some hfinal, hfollow.started, (hfollow.stopped hstop).2,
      hsettled.2 c (readClock_eq_ok hc)]

/-- Every step of a checkpoint succeeds. -/
def CheckpointIo.done : CheckpointIo := ⟨fun _ => none, fun _ => true, true, true, .done⟩

theorem clock_upheld_stop : Follows
    ((SessionWal.created "s" 1000 ⟨16000, 1⟩ none).checkpointAt 250 true)
    ((SessionWal.created "s" 1000 ⟨16000, 1⟩ none).checkpointAt 250 true) :=
  (clock_upheld (fun _ => 0) "s" 1000 ⟨16000, 1⟩ none
    [.checkpoint .done 0 false, .checkpoint .done 250 true] [.checkpoint .done 5000 false]
    (by decide)).follows _ _ (by decide) (by decide)

/-- A Stop that was requested before the last live checkpoint sets the clock back. -/
theorem clock_set_back : (readClock (fun _ => 0) ((SessionWal.created "s" 1000 ⟨16000, 1⟩ none).run
        [.checkpoint .done 250 false]).clock).map (·.elapsedMs) = .ok 250 ∧
      (readClock (fun _ => 0) ((SessionWal.created "s" 1000 ⟨16000, 1⟩ none).run
        [.checkpoint .done 250 false, .checkpoint .done 200 true]).clock).map (·.elapsedMs) =
        .ok 200 := by
  decide

end FlyOnTheWall.Wal
