/-
  Coverage journal operations as steps of one system, and what every run of them keeps.

  The system is the audio file, the journal file and at most one owner of the journal (the
  owner holds an exclusive lock). Creating, committing, skipping, switching, reopening and
  taking a snapshot are the operations; capture appends audio meanwhile, and a crash drops
  the owner and cuts both files anywhere past what was synced. A call that the crash
  interrupts is a call whose `Io` fails at that point, followed by the crash.

  `run_sound`: in every state of every run, the journal held by the owner is `Sound`.
-/
import FlyOnTheWall.Failover.CoverageLedger
import FlyOnTheWall.Lib.Table
import Mathlib.Tactic.DeriveCountable
import Mathlib.Data.Rat.Encodable
import Mathlib.Data.Countable.Basic
import Mathlib.Logic.Equiv.List

namespace FlyOnTheWall.Coverage

open Lib Replay List Journal DurableFile

/-! ## One operation of an open journal -/

def Journal.apply (j : Journal) : Record → Journal
  | .switched epoch => j.pushEpoch epoch
  | .committed commit => j.accept commit

/-- What validation accepts, with the audio the check reads. -/
def Valid (j : Journal) (audio : Reader) : Record → Prop
  | .switched epoch => SwitchShape j epoch
  | .committed commit =>
    CommitShape j commit ∧ ∃ pcm, audio.readFrom commit.throughSample 1 = .ok pcm

variable {j : Journal} {audio : Reader}

theorem Sound.apply {r : Record} (h : Sound j) (hr : Valid j audio r) : Sound (j.apply r) := by
  cases r with
  | switched epoch => exact h.pushEpoch hr
  | committed commit => exact h.accept hr.1

/-- The audio as it was, or synced. -/
def Touched (audio audio' : Reader) : Prop :=
  audio' = audio ∨ audio' = { audio with file := audio.file.sync }

/-- Everything `append` can do. -/
inductive Appended (codec : Codec Entry) (j : Journal) (file : DurableFile) (entry : Entry) :
    Except IoError Unit × Journal × DurableFile → Prop
  | refused (e : IoError) : Appended codec j file entry (.error e, j, file)
  | done {bytes : List UInt8} {file' : DurableFile} (healthy : j.failed = false)
      (encoded : encode codec entry = .ok bytes)
      (written : file'.bytes = file.bytes ++ bytes)
      (durable : file'.synced = file'.bytes.length) :
      Appended codec j file entry
        (.ok (), { j with validBytes := j.validBytes + bytes.length }, file')
  | overflow {bytes : List UInt8} {file' : DurableFile} (e : IoError)
      (healthy : j.failed = false) (long : u64Max < j.validBytes + bytes.length)
      (written : file'.bytes = file.bytes ++ bytes) :
      Appended codec j file entry (.error e, j, file')
  | failed {bytes part : List UInt8} {file' : DurableFile} (e : IoError)
      (healthy : j.failed = false) (encoded : encode codec entry = .ok bytes)
      (partly : part <+: bytes) (written : file'.bytes = file.bytes ++ part)
      (synced : file'.synced = file.synced) :
      Appended codec j file entry (.error e, { j with failed := true }, file')

variable {io : Io} {file : DurableFile} {bytes : List UInt8} {repair : Bool}

theorem Journal.writeRecord_done (h : (writeRecord io bytes file).2 = true) :
    (writeRecord io bytes file).1.bytes = file.bytes ++ bytes ∧
      (writeRecord io bytes file).1.synced = (writeRecord io bytes file).1.bytes.length := by
  unfold writeRecord at h ⊢
  split at h
  · next hwrite =>
    obtain ⟨hbytes, -⟩ := writeAll_complete hwrite
    cases hsync : io.sync with
    | false => simp [hsync, syncData] at h
    | true => exact ⟨by simpa [hwrite, syncData] using hbytes, by
        simp [hwrite, syncData]⟩
  · cases h

theorem Journal.writeRecord_failed (h : (writeRecord io bytes file).2 = false) :
    ∃ part, part <+: bytes ∧ (writeRecord io bytes file).1.bytes = file.bytes ++ part ∧
      (writeRecord io bytes file).1.synced = file.synced := by
  obtain ⟨part, hpart, hbytes, hsynced⟩ := file.writeAll_bytes bytes io.write
  refine ⟨part, hpart, ?_⟩
  unfold writeRecord at h ⊢
  split at h
  · next hwrite =>
    cases hsync : io.sync with
    | false => simpa [hwrite, syncData] using ⟨hbytes, hsynced⟩
    | true => simp [hsync, syncData] at h
  · next hwrite =>
    simpa [hwrite] using ⟨hbytes, hsynced⟩

theorem Journal.append_cases (codec : Codec Entry) (io : Io) (j : Journal)
    (file : DurableFile) (entry : Entry) :
    Appended codec j file entry (append codec io j file entry) := by
  unfold append
  split
  · exact .refused _
  rename_i bytes hready
  obtain ⟨_, hhealthy, hencode⟩ := bind_eq_ok.mp hready
  have hhealthy : j.failed = false := refuseIf_eq_ok.mp hhealthy
  dsimp only
  split
  · next hdone =>
    obtain ⟨hwritten, hdurable⟩ := writeRecord_done hdone
    split
    · next validBytes hvalid =>
      obtain ⟨-, rfl⟩ := checkedAdd_eq_some.mp hvalid
      exact .done hhealthy hencode hwritten hdurable
    · next hlong =>
      refine .overflow _ hhealthy ?_ hwritten
      unfold checkedAdd at hlong
      split at hlong
      · cases hlong
      · omega
  · next hfailed =>
    obtain ⟨part, hpart, hwritten, hsynced⟩ := writeRecord_failed (Bool.not_eq_true _ ▸ hfailed)
    exact .failed _ hhealthy hencode hpart hwritten hsynced

/-- Everything an operation that proposes `attempt` can do: refuse it, find it already
    recorded, accept it, or fail while it is written. -/
inductive Acts (codec : Codec Entry) (s : Journal.Left) (attempt : Record) :
    Except IoError (Option Record) → Journal.Left → Prop
  | refused {audio : Reader} (e : IoError) (touched : Touched s.audio audio) :
      Acts codec s attempt (.error e) { s with audio }
  | repeated : Acts codec s attempt (.ok none) s
  | accepted {audio : Reader} {bytes : List UInt8} {file : DurableFile}
      (valid : Valid s.journal s.audio attempt) (touched : Touched s.audio audio)
      (safe : ∀ c, attempt = .committed c →
        audio = { s.audio with file := s.audio.file.sync })
      (healthy : s.journal.failed = false) (encoded : encode codec attempt.entry = .ok bytes)
      (written : file.bytes = s.file.bytes ++ bytes)
      (durable : file.synced = file.bytes.length) :
      Acts codec s attempt (.ok (some attempt))
        ⟨{ s.journal.apply attempt with validBytes := s.journal.validBytes + bytes.length },
          file, audio⟩
  | overflow {audio : Reader} {bytes : List UInt8} {file : DurableFile} (e : IoError)
      (touched : Touched s.audio audio) (healthy : s.journal.failed = false)
      (long : u64Max < s.journal.validBytes + bytes.length)
      (written : file.bytes = s.file.bytes ++ bytes) :
      Acts codec s attempt (.error e) ⟨s.journal, file, audio⟩
  | failed {audio : Reader} {bytes part : List UInt8} {file : DurableFile} (e : IoError)
      (valid : Valid s.journal s.audio attempt) (touched : Touched s.audio audio)
      (safe : ∀ c, attempt = .committed c →
        audio = { s.audio with file := s.audio.file.sync })
      (healthy : s.journal.failed = false) (encoded : encode codec attempt.entry = .ok bytes)
      (partly : part <+: bytes) (written : file.bytes = s.file.bytes ++ part)
      (synced : file.synced = s.file.synced) :
      Acts codec s attempt (.error e) ⟨{ s.journal with failed := true }, file, audio⟩

/-- The record a returning `commit` or `skip` has newly accepted. -/
def CommitOutcome.accepted (commit : CommittedAudio) : CommitOutcome → Option Record
  | .new => some (.committed commit)
  | .alreadyCommitted => none

theorem syncThrough_touched {audio' : Reader} {n : ℕ} {ok : Bool} {result : Except IoError Unit}
    (h : audio.syncThrough n ok = (result, audio')) :
    Touched audio audio' ∧
      (result = .ok () → audio' = { audio with file := audio.file.sync }) := by
  unfold Reader.syncThrough at h
  split at h
  · cases h
    exact ⟨.inl rfl, nofun⟩
  · split at h
    · cases h
      exact ⟨.inl rfl, nofun⟩
    · split at h
      · cases h
        exact ⟨.inr rfl, fun _ => rfl⟩
      · cases h
        exact ⟨.inl rfl, nofun⟩

section
variable (codec : Codec Entry) (io : Io) (s : Left)

theorem Journal.record_acts (epoch fromSample throughSample : ℕ) (segments : List TranscriptSegment)
    (gap : Option String) :
    Acts codec s (.committed ⟨epoch, fromSample, throughSample, segments, gap⟩)
      ((record codec io s epoch fromSample throughSample segments gap).1.map
        (CommitOutcome.accepted ⟨epoch, fromSample, throughSample, segments, gap⟩))
      (record codec io s epoch fromSample throughSample segments gap).2 := by
  unfold record
  dsimp only
  split
  · exact .refused _ (.inl rfl)
  split
  · split
    · exact .repeated
    · exact .refused _ (.inl rfl)
  · split
    · exact .refused _ (.inl rfl)
    · next hvalid =>
      have hvalid := validateCommit_eq_ok.mp hvalid
      split
      · next audio hsync =>
        exact .refused _ (syncThrough_touched hsync).1
      · next audio hsync =>
        obtain ⟨htouched, hsafe⟩ := syncThrough_touched hsync
        have happend := append_cases codec io s.journal s.file
          (.committed ⟨epoch, fromSample, throughSample, segments, gap⟩)
        split <;> rename_i hres <;> rw [hres] at happend <;> cases happend
        · exact .refused _ htouched
        · next hhealthy hlong hwritten =>
          exact .overflow _ htouched hhealthy hlong hwritten
        · next hhealthy hencoded hpart hwritten hsynced =>
          exact .failed _ hvalid htouched (fun _ _ => hsafe rfl) hhealthy hencoded hpart
            hwritten hsynced
        · next hhealthy hencoded hwritten hdurable =>
          exact .accepted hvalid htouched (fun _ _ => hsafe rfl) hhealthy hencoded hwritten
            hdurable

theorem Journal.switch_acts (engine : EngineDescriptor) (reason : SwitchReason) : Acts codec s
      (.switched ⟨s.journal.epoch.number + 1, s.journal.committed, some reason, engine⟩)
      ((switch codec io s engine reason).1.map fun epoch => some (.switched epoch))
      (switch codec io s engine reason).2 := by
  unfold switch
  split
  · exact .refused _ (.inl rfl)
  rename_i epoch hready
  obtain ⟨_, hready⟩ := bind_rest hready
  obtain ⟨number, hnumber, hready⟩ := bind_eq_ok.mp hready
  obtain ⟨_, hvalid, hepoch⟩ := bind_eq_ok.mp hready
  obtain ⟨-, rfl⟩ := checkedAdd_eq_some.mp (okOr_eq_ok.mp hnumber)
  cases hepoch
  have hvalid := validateSwitch_eq_ok.mp hvalid
  have happend := append_cases codec io s.journal s.file
    (.switched ⟨s.journal.epoch.number + 1, s.journal.committed, some reason, engine⟩)
  split <;> rename_i hres <;> rw [hres] at happend <;> cases happend
  · exact .refused _ (.inl rfl)
  · next hhealthy hlong hwritten =>
    exact .overflow _ (.inl rfl) hhealthy hlong hwritten
  · next hhealthy hencoded hpart hwritten hsynced =>
    exact .failed _ hvalid (.inl rfl) nofun hhealthy hencoded hpart hwritten hsynced
  · next hhealthy hencoded hwritten hdurable =>
    exact .accepted hvalid (.inl rfl) nofun hhealthy hencoded hwritten hdurable

end

variable {codec : Codec Entry} {left s : Journal.Left} {attempt : Record} {sessionId : String}
  {result : Except IoError (Option Record)}

section
variable (h : Acts codec s attempt result left)
include h

theorem Acts.touched : Touched s.audio left.audio := by
  cases h with
  | refused _ touched | accepted _ touched | overflow _ touched | failed _ _ touched =>
    exact touched
  | repeated => exact .inl rfl

theorem Acts.sound (hs : Sound s.journal) : Sound left.journal := by
  cases h with
  | refused | repeated | overflow => exact hs
  | accepted valid =>
    exact (hs.apply valid).congr_state (s.journal.apply attempt).failed _ rfl
  | failed => exact hs.congr_state true s.journal.validBytes rfl

/-- What an operation makes of the journal: it accepts what was proposed, or all its records
    stay. -/
theorem Acts.wrote : ((∀ r, result ≠ .ok (some r)) ∧ ∃ failed validBytes,
        left.journal = { s.journal with failed, validBytes }) ∨
      (result = .ok (some attempt) ∧ Valid s.journal s.audio attempt ∧
        ∃ validBytes, left.journal = { s.journal.apply attempt with validBytes }) := by
  cases h with
  | refused | repeated | overflow | failed => exact .inl ⟨nofun, _, _, rfl⟩
  | accepted valid => exact .inr ⟨rfl, valid, _, rfl⟩

end

/-- An interval that starts at the committed sample is never one the journal has. -/
theorem Journal.record_new {epoch throughSample : ℕ}
    {segments : List TranscriptSegment} {gap : Option String} {outcome : CommitOutcome}
    (hs : Sound s.journal)
    (h : (record codec io s epoch s.journal.committed throughSample segments gap).1 =
      .ok outcome) : outcome = .new := by
  unfold record at h
  dsimp only at h
  split at h
  · cases h
  split at h
  · next prior hprior =>
    have hsame := find?_some hprior
    simp only [Bool.and_eq_true, beq_iff_eq] at hsame
    have hbefore := hs.tiles.lo_lt (mem_of_find?_eq_some hprior)
    omega
  · split at h
    · cases h
    · split at h
      · cases h
      · split at h <;> cases h
        rfl

/-- What one owner did: the records whose call returned `Ok`, and the record of the call
    that failed while it was being written, after which the owner refuses everything. -/
structure Generation where
  acked : List Record
  inFlight : Option Record

/-- `created` and `generations` (newest first) are not part of the source: whether a
    creation has returned `Ok`, and what was reported since by each owner in turn. -/
structure System where
  source : Source
  audio : Reader
  file : Option DurableFile
  owner : Option Journal
  created : Bool
  generations : List Generation

def openAudio (audio : Reader) (sessionId : String) (source : Source) : Except IoError Unit :=
  refuseIf (!audio.hasIdentity sessionId (replaySource source))
    (invalid "replay identity or sample rate mismatch")

def Generation.note (g : Generation) (attempt : Record) (failed : Bool) :
    Except IoError (Option Record) → Generation
  | .ok (some r) => { g with acked := g.acked ++ [r] }
  | .ok none => g
  | .error _ => if failed then { g with inFlight := some attempt } else g

namespace System

section
variable (codec : Codec Entry) (io : Io)

def create (s : System) (sessionId : String)
    (initial : EngineDescriptor) (fallback : Option LocalPlan) : Except IoError Unit × System :=
  match (do
      validateFallback fallback
      validateEngine initial
      openAudio s.audio sessionId s.source
      refuseIf s.owner.isSome .wouldBlock) with
  | .error e => (.error e, s)
  | .ok () =>
    match s.file with
    | some _ => (.error .alreadyExists, s)
    | none =>
      let header : Header := ⟨1, sessionId, s.source, s.audio.firstSample, initial, fallback⟩
      match Journal.append codec io (Journal.fromHeader header) .empty (.opened header) with
      | (.error e, _, file) => (.error e, { s with file := if io.remove then none else some file })
      | (.ok (), j, file) =>
        if io.dirSync then
          (.ok (), { s with
            file := some file, owner := some j, created := true, generations := [⟨[], none⟩] })
        else (.error .other, { s with file := if io.remove then none else some file })

def load (repair : Bool) (s : System) (sessionId : String) : Except IoError Journal × System :=
  match (do
      openAudio s.audio sessionId s.source
      refuseIf (!s.audio.hasIdentity sessionId (replaySource s.source))
        (invalid "candidate audio identity mismatch")
      refuseIf (repair && s.owner.isSome) .wouldBlock) with
  | .error e => (.error e, s)
  | .ok () =>
    match s.file with
    | none => (.error .notFound, s)
    | some file =>
      let loaded := Journal.loadWithAudio codec io repair sessionId s.source s.audio file
      (loaded.1, { s with file := some loaded.2 })

/-- `CoverageJournal::open`. -/
def reopen (s : System) (sessionId : String) : Except IoError Journal × System :=
  match s.load codec io true sessionId with
  | (.error e, s) => (.error e, s)
  | (.ok j, s) => (.ok j, { s with owner := some j, generations := ⟨[], none⟩ :: s.generations })

def snapshot (s : System) (sessionId : String) : Except IoError CoverageSnapshot × System :=
  match s.load codec io false sessionId with
  | (.error e, s) => (.error e, s)
  | (.ok j, s) =>
    if io.sync then
      (.ok ⟨j.epochs, j.header.fallback, j.validBytes, j.commits⟩,
        { s with file := s.file.map DurableFile.sync })
    else (.error .other, s)

end

variable (s : System)

/-- A call of the owner that proposes a record. -/
def operate (attempt : Journal → Record)
    (call : Journal.Left → Except IoError (Option Record) × Journal.Left) : System :=
  match s.owner, s.file with
  | some j, some file =>
    let out := call ⟨j, file, s.audio⟩
    { s with
      audio := out.2.audio
      file := some out.2.file
      owner := some out.2.journal
      generations := s.generations.modifyHead fun g =>
        g.note (attempt j) (out.2.journal.failed && !j.failed) out.1 }
  | _, _ => s

/-- The replay writer appends samples; see `Replay.Writer.append`. A stream that ends in half
    a sample has lost its writer, and the next one trims it first. -/
def capture (pcm : List (BitVec 16)) (stop : Option ℕ) : System :=
  match s.audio.aligned, s.audio.availableEnd with
  | .ok true, .ok last =>
    if last + pcm.length ≤ u64Max then
      { s with audio := { s.audio with file := (s.audio.file.writeAll (encodePcm pcm) stop).1 } }
    else s
  | _, _ => s

/-- A resumed replay writer cuts a trailing half sample. -/
def trim : System :=
  match s.audio.aligned with
  | .ok false =>
    { s with
      audio := { s.audio with file := s.audio.file.truncate (s.audio.file.bytes.length - 1) } }
  | _ => s

/-- Power loss or a killed process: the owner is gone, and each file keeps what was synced
    and an arbitrary part of the rest. -/
def crash (keepJournal keepAudio : ℕ) : System :=
  { s with
    owner := none
    file := s.file.map (·.crash keepJournal)
    audio := { s.audio with file := s.audio.file.crash keepAudio } }

end System

inductive Event
  | create (sessionId : String) (initial : EngineDescriptor) (fallback : Option LocalPlan)
      (io : Io)
  | commit (epoch fromSample throughSample : ℕ) (segments : List TranscriptSegment) (io : Io)
  | skip (epoch fromSample throughSample : ℕ) (reason : String) (io : Io)
  | switch (engine : EngineDescriptor) (reason : SwitchReason) (io : Io)
  | reopen (sessionId : String) (io : Io)
  | snapshot (sessionId : String) (io : Io)
  | close
  | capture (pcm : List (BitVec 16)) (stop : Option ℕ)
  | trim
  | crash (keepJournal keepAudio : ℕ)

def step (codec : Codec Entry) (s : System) : Event → System
  | .create sessionId initial fallback io => (s.create codec io sessionId initial fallback).2
  | .commit epoch fromSample throughSample segments io =>
    s.operate (fun _ => .committed ⟨epoch, fromSample, throughSample, segments, none⟩)
      fun left =>
        let out := Journal.commit codec io left epoch fromSample throughSample segments
        (out.1.map (CommitOutcome.accepted ⟨epoch, fromSample, throughSample, segments, none⟩),
          out.2)
  | .skip epoch fromSample throughSample reason io =>
    s.operate (fun _ => .committed ⟨epoch, fromSample, throughSample, [], some reason⟩)
      fun left =>
        let out := Journal.skip codec io left epoch fromSample throughSample reason
        (out.1.map (CommitOutcome.accepted ⟨epoch, fromSample, throughSample, [], some reason⟩),
          out.2)
  | .switch engine reason io =>
    s.operate (fun j => .switched ⟨j.epoch.number + 1, j.committed, some reason, engine⟩)
      fun left =>
        let out := Journal.switch codec io left engine reason
        (out.1.map fun epoch => some (.switched epoch), out.2)
  | .reopen sessionId io => (s.reopen codec io sessionId).2
  | .snapshot sessionId io => (s.snapshot codec io sessionId).2
  | .close => { s with owner := none }
  | .capture pcm stop => s.capture pcm stop
  | .trim => s.trim
  | .crash keepJournal keepAudio => s.crash keepJournal keepAudio

def run (codec : Codec Entry) (s : System) (events : List Event) : System :=
  events.foldl (step codec) s

/-! ## Every journal in memory is sound -/

theorem Journal.applyEntry_eq_ok {j' : Journal} {entry : Entry} :
    j.applyEntry audio entry = .ok j' ↔
      ∃ r, entry = r.entry ∧ Valid j audio r ∧ j' = j.apply r := by
  cases entry with
  | opened header =>
    refine ⟨nofun, ?_⟩
    rintro ⟨r, hr, -⟩
    cases r <;> cases hr
  | switched epoch =>
    simp only [applyEntry, bind_eq_ok, validateSwitch_eq_ok]
    constructor
    · rintro ⟨_, hvalid, hj⟩
      exact ⟨.switched epoch, rfl, hvalid, (Except.ok.inj hj).symm⟩
    · rintro ⟨r, hr, hvalid, rfl⟩
      cases r with
      | switched e =>
        cases hr
        exact ⟨(), hvalid, rfl⟩
      | committed c => cases hr
  | committed commit =>
    simp only [applyEntry, bind_eq_ok, validateCommit_eq_ok]
    constructor
    · rintro ⟨_, hvalid, hj⟩
      exact ⟨.committed commit, rfl, hvalid, (Except.ok.inj hj).symm⟩
    · rintro ⟨r, hr, hvalid, rfl⟩
      cases r with
      | switched e => cases hr
      | committed c =>
        cases hr
        exact ⟨(), hvalid, rfl⟩

theorem Journal.loadLoop_sound {fuel : ℕ} {validBytes : ℕ} {rest : List UInt8}
    {out : Journal × ℕ × Bool} (h : loadLoop codec audio fuel j validBytes rest = .ok out)
    (hj : Sound j) : Sound out.1 := by
  induction fuel generalizing j validBytes rest with
  | zero =>
    cases h
    exact hj
  | succ fuel ih =>
    obtain ⟨⟨line, rest'⟩, -, h⟩ := bind_eq_ok.mp h
    dsimp only at h
    split at h
    · cases h
      exact hj
    · split at h
      · cases h
        exact hj
      · obtain ⟨entry, -, h⟩ := bind_eq_ok.mp h
        obtain ⟨j', happly, h⟩ := bind_eq_ok.mp h
        obtain ⟨r, -, hvalid, rfl⟩ := applyEntry_eq_ok.mp happly
        exact ih h (hj.apply hvalid)

theorem Journal.loadWithAudio_sound {source : Source}
    (h : (loadWithAudio codec io repair sessionId source audio file).1 = .ok j) : Sound j := by
  unfold loadWithAudio at h
  split at h
  · cases h
  rename_i j' validBytes torn hload
  obtain ⟨⟨first, rest⟩, -, hload⟩ := bind_eq_ok.mp hload
  obtain ⟨header, -, hload⟩ := bind_eq_ok.mp hload
  have hsound : Sound j' := loadLoop_sound hload (.fromHeader header)
  split at h
  · split at h
    · cases h
    · split at h
      · cases h
      · cases h
        exact hsound.congr_state j'.failed validBytes rfl
  · cases h
    exact hsound.congr_state j'.failed validBytes rfl

def OwnerSound (s : System) : Prop := ∀ j, s.owner = some j → Sound j

variable {s : System}

theorem ownerSound_of_none (h : s.owner = none) : OwnerSound s := by
  intro j hj
  rw [h] at hj
  cases hj

theorem System.load_owner (codec : Codec Entry) (io : Io) (repair : Bool) (s : System)
    (sessionId : String) : (s.load codec io repair sessionId).2.owner = s.owner := by
  unfold load
  split
  · rfl
  · split <;> rfl

theorem System.load_sound (h : (s.load codec io repair sessionId).1 = .ok j) : Sound j := by
  unfold load at h
  split at h
  · cases h
  · split at h
    · cases h
    · exact loadWithAudio_sound h

theorem System.operate_sound {attempt : Journal → Record}
    {call : Journal.Left → Except IoError (Option Record) × Journal.Left}
    (hcall : ∀ left, Acts codec left (attempt left.journal) (call left).1 (call left).2)
    (hs : OwnerSound s) : OwnerSound (s.operate attempt call) := by
  unfold operate
  split
  · next j file howner hfile =>
    intro j' hj'
    cases hj'
    exact (hcall ⟨j, file, s.audio⟩).sound (hs j howner)
  · exact hs

theorem System.create_sound (codec : Codec Entry) (io : Io) (sessionId : String)
    (initial : EngineDescriptor) (fallback : Option LocalPlan) (hs : OwnerSound s) :
    OwnerSound (s.create codec io sessionId initial fallback).2 := by
  unfold create
  split
  · exact hs
  split
  · exact hs
  · dsimp only
    have happend := append_cases codec io
      (.fromHeader ⟨1, sessionId, s.source, s.audio.firstSample, initial, fallback⟩) .empty
      (.opened ⟨1, sessionId, s.source, s.audio.firstSample, initial, fallback⟩)
    split
    · exact hs
    rename_i j file hres
    rw [hres] at happend
    split
    · intro j' hj'
      cases hj'
      cases happend
      exact (Sound.fromHeader _).congr_state false _ rfl
    · exact hs

theorem step_sound (codec : Codec Entry) (event : Event) (hs : OwnerSound s) :
    OwnerSound (step codec s event) := by
  cases event with
  | create sessionId initial fallback io => exact System.create_sound codec io _ _ _ hs
  | commit epoch fromSample throughSample segments io =>
    exact System.operate_sound
      (fun left => record_acts codec io left epoch fromSample throughSample segments none)
      hs
  | skip epoch fromSample throughSample reason io =>
    exact System.operate_sound
      (fun left => record_acts codec io left epoch fromSample throughSample [] (some reason)) hs
  | switch engine reason io =>
    exact System.operate_sound (fun left => switch_acts codec io left engine reason) hs
  | reopen sessionId io =>
    show OwnerSound (s.reopen codec io sessionId).2
    have howner := System.load_owner codec io true s sessionId
    unfold System.reopen
    split
    · next hload =>
      rw [hload] at howner
      exact fun j hj => hs j (howner ▸ hj)
    · next j s' hload =>
      intro j' hj'
      cases hj'
      exact System.load_sound (congrArg Prod.fst hload)
  | snapshot sessionId io =>
    show OwnerSound (s.snapshot codec io sessionId).2
    have howner := System.load_owner codec io false s sessionId
    unfold System.snapshot
    split <;> rename_i hload <;> rw [hload] at howner
    · exact fun j hj => hs j (howner ▸ hj)
    · split <;> exact fun j hj => hs j (howner ▸ hj)
  | close | crash => exact ownerSound_of_none rfl
  | capture pcm stop =>
    show OwnerSound (s.capture pcm stop)
    unfold System.capture
    split
    · split <;> exact hs
    · exact hs
  | trim =>
    show OwnerSound s.trim
    unfold System.trim
    split <;> exact hs

/-! ## A small recording

    A stream of 64 samples, transcribed up to sample 32 by one engine and given up on by
    the next. Of the JSON its lines keep what tells them apart. -/

def utf8 (text : String) : List UInt8 := text.toUTF8.data.toList

def sampleEngine : EngineDescriptor := ⟨"deepgram", "nova-3", none⟩

def sampleLocal : EngineDescriptor := ⟨"whispercpp", "base.en", none⟩

def sampleHeader : Header := ⟨1, "s", .system, 0, sampleEngine, none⟩

def sampleSegment : TranscriptSegment where
  id := "a"
  sessionId := "s"
  source := .system
  speaker := none
  text := "hi"
  startMs := 0
  endMs := 2
  words := []
  confidence := none
  language := none
  isFinal := true
  revision := 0
  provider := "deepgram"
  model := "nova-3"
  timestampSource := .provider

def sampleLines : List (Entry × List UInt8) := [
  (.opened sampleHeader, utf8 "\x7b\"kind\":\"opened\",\"session_id\":\"s\"\x7d"),
  (.committed ⟨0, 0, 32, [sampleSegment], none⟩,
    utf8 "\x7b\"kind\":\"committed\",\"through_sample\":32\x7d"),
  (.switched ⟨1, 32, some .transportBudget, sampleLocal⟩,
    utf8 "\x7b\"kind\":\"switched\",\"from_sample\":32\x7d"),
  (.committed ⟨1, 32, 64, [], some "helper failed"⟩,
    utf8 "\x7b\"kind\":\"committed\",\"through_sample\":64\x7d")]

def sampleAudioHeader : List UInt8 :=
  magic ++ [73, 0, 0, 0] ++ utf8 (
    "\x7b\"session_id\":\"s\",\"source\":\"system\",\"sample_rate\":16000," ++
    "\"first_sample\":0\x7d")

deriving instance Countable for Source
deriving instance Countable for Number
deriving instance Countable for Word
deriving instance Countable for TimestampSource
deriving instance Countable for TranscriptSegment
deriving instance Countable for EngineDescriptor
deriving instance Countable for EndpointConfig
deriving instance Countable for LocalPlan
deriving instance Countable for SwitchReason
deriving instance Countable for ProviderEpoch
deriving instance Countable for CommittedAudio
deriving instance Countable for Header
deriving instance Countable for Entry

noncomputable instance : Encodable Entry := Encodable.ofCountable Entry

/-- The lines above, and for any other entry a line of its own length. -/
noncomputable def sampleCodec : Codec Entry where
  toVec e := ((sampleLines.find? (·.1 == e)).map (·.2)).getD
    (List.replicate (1000 + Encodable.encode e) 0)
  fromSlice line := ((sampleLines.find? (·.2 ++ [newline] == line)).map (·.1)).or
    (Encodable.decode (line.length - 1001))

def sampleSystem : System where
  source := .system
  audio := {
    header := ⟨"s", .system, 16000, 0, none⟩
    audioOffset := 85
    file := (DurableFile.empty.write
      (sampleAudioHeader ++ encodePcm (List.replicate 64 0))).sync }
  file := none
  owner := none
  created := false
  generations := []

def sampleEvents : List Event := [
  .create "s" sampleEngine none .good,
  .commit 0 0 32 [sampleSegment] .good,
  .switch sampleLocal .transportBudget .good,
  .commit 0 32 64 [] .good,
  .skip 1 32 64 "helper failed" .good,
  .crash 0 0,
  .reopen "s" .good]

/-! ## Runs -/

/-- Whatever operations were called, with whatever arguments and outcomes: the journal an
    owner holds is sound, and its commits cover every sample up to the committed one once. -/
theorem run_sound (codec : Codec Entry) (s : System) (hstart : s.owner = none)
    (events : List Event) (j : Journal) (hj : (run codec s events).owner = some j) :
    Sound j ∧ ∀ n, j.header.firstSample ≤ n → n < j.committed →
      j.commits.countP (fun c => decide (c.fromSample ≤ n ∧ n < c.throughSample)) = 1 := by
  have hinv : OwnerSound (run codec s events) := by
    exact foldlRecOn events (step codec) (ownerSound_of_none hstart)
      fun t ht event _ => step_sound codec event ht
  exact ⟨hinv j hj, fun n => (hinv j hj).covered_once⟩

/-- The small recording, with a commit of a past epoch refused on the way. -/
theorem run_sound_sample :
    ∃ j, (run sampleCodec sampleSystem sampleEvents).owner = some j ∧ j.committed = 64 ∧
      j.commits.length = 2 ∧ j.epochs.length = 2 ∧ Sound j := by
  have hrun : (run sampleCodec sampleSystem sampleEvents).owner.map
      (fun j => (j.committed, j.commits.length, j.epochs.length)) = some (64, 2, 2) := by
    decide +kernel
  obtain ⟨j, hj, hout⟩ := Option.map_eq_some_iff.mp hrun
  simp only [Prod.mk.injEq] at hout
  exact ⟨j, hj, hout.1, hout.2.1, hout.2.2,
    (run_sound sampleCodec sampleSystem rfl sampleEvents j hj).1⟩

end FlyOnTheWall.Coverage
